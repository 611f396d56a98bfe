import SpecDecode.Ngram.SuffixDraft

/-!
# Drafting for a batch

`batchMatch` drafts for every request from the trie and from all external corpora, which share the
budget. A request may come with any tail and any length, so its cached match need not belong to the
tail.
-/

namespace SpecDecode.Ngram

/-- `Param`; a configured number of `size_t::max()` is `none`. -/
structure Param where
  maxTrieDepth : Nat
  minBfsBreadth : Nat
  maxBfsBreadth : Nat
  draftTokenNum : Nat
  externalSamBudget : Nat
  matchType : String
  batchDraftTokenNum : List (Option Nat)

inductive NgramError where
  | trieDepth (value : Nat)
  | bfsBreadth (value : Nat)
  | breadthOrder (minValue maxValue : Nat)
  | draftTokens (value : Nat)
  | batchConfig (config draftTokenNum : Nat)
  | sizes
  | matchType (value : String)
  | emptyTail
deriving DecidableEq, Repr

namespace Param

/-- `get_draft_token_num`. -/
def getDraftTokenNum (p : Param) (batchSize : Nat) : Nat :=
  match p.batchDraftTokenNum[batchSize]? with
  | some (some config) => config
  | _ => p.draftTokenNum - 1

/-- The checks of the constructor of `Ngram`. -/
def check (p : Param) : Option NgramError :=
  if ¬ 1 < p.maxTrieDepth then some (.trieDepth p.maxTrieDepth)
  else if ¬ 0 < p.minBfsBreadth then some (.bfsBreadth p.minBfsBreadth)
  else if ¬ p.minBfsBreadth ≤ p.maxBfsBreadth then
    some (.breadthOrder p.minBfsBreadth p.maxBfsBreadth)
  else if ¬ 0 < p.draftTokenNum then some (.draftTokens p.draftTokenNum)
  else
    (p.batchDraftTokenNum.reduceOption.find? fun config => p.draftTokenNum < config).map
      (.batchConfig · p.draftTokenNum)

end Param

inductive MatchType where
  | recency
  | frequency
deriving DecidableEq, Repr

def Param.parseMatchType (p : Param) : Option MatchType :=
  if p.matchType = "BFS" then some .recency
  else if p.matchType = "PROB" then some .frequency
  else none

/-- The floating point scores of the builders, and the heap that is ordered by them. -/
structure Scores (β : Type) where
  start : Nat → β
  breadth : β → Nat
  narrow : β → β
  trieShare : Trie → Nat → Nat → β → β
  samShare : SuffixAutomaton → Nat → Nat → β → β
  queue : DraftTree.PriorityQueue (Nat × Int × Nat × β)
  one : β

/-- An `Ngram` object; `sams` lists the corpora in the order of its iteration. -/
structure NgramObj where
  trie : Trie
  sams : List (String × SuffixAutomaton)
  matchState : Int → MatchState

/-- The results of a batch behind one another. -/
structure Merged where
  token : List Int
  mask : List Bool
deriving DecidableEq, Repr

def Merged.new : Merged := ⟨[], []⟩

def Result.cells (r : Result) : List Bool :=
  (List.range (r.token.length * r.token.length)).map r.mask

def Merged.append (m : Merged) (r : Result) : Merged := ⟨m.token ++ r.token, m.mask ++ r.cells⟩

section Build

variable {β : Type} (scores : Scores β) (p : Param) (matchType : MatchType) (fuel budget : Nat)

/-- `trie_result_build_fn`, for anchors that have been matched. -/
def Trie.build (t : Trie) (anchors : List (Nat × Nat)) : Option DraftTree :=
  match matchType with
  | .recency => t.buildRecency budget fuel anchors scores.start scores.breadth scores.narrow
  | .frequency =>
      t.buildFrequency budget fuel anchors p.maxBfsBreadth (scores.trieShare t) scores.queue
        scores.one

/-- `sam_result_build_fn`. -/
def SuffixAutomaton.build (sam : SuffixAutomaton) (context : List Int) : Option DraftTree :=
  (sam.matchContext context p.maxTrieDepth).bind fun anchors =>
    match matchType with
    | .recency => sam.buildRecency budget fuel anchors scores.start scores.breadth scores.narrow
    | .frequency =>
        sam.buildFrequency budget fuel anchors p.maxBfsBreadth (scores.samShare sam) scores.queue
          scores.one

end Build

namespace NgramObj

section Batch

variable {β : Type} (scores : Scores β) (iter : List (Int × Nat) → List (Int × Nat))
variable (c : TrieConfig) (p : Param) (matchType : MatchType) (fuel : Nat)

/-- `fillResult` of a tree with room for `budget` tokens and the last token. -/
def fill (lastToken : Int) (budget : Nat) (tree : DraftTree) : Option Result :=
  fillResult (fun v => iter (tree.next v)) lastToken (budget + 1)

def combineSams (total perSamBudget : Nat) (context : List Int) (lastToken : Int) :
    List (String × SuffixAutomaton) → Result → Option Result
  | [], combined => some combined
  | (_, sam) :: sams, combined =>
      ((sam.build scores p matchType fuel perSamBudget context).bind fun tree =>
        (fill iter lastToken perSamBudget tree).bind fun samRes =>
          combineRootResults iter lastToken (total + 1) combined samRes).bind
        (combineSams total perSamBudget context lastToken sams)

def totalSamBudget (o : NgramObj) (p : Param) (total : Nat) : Nat :=
  if 0 < o.sams.length then min p.externalSamBudget total else 0

def perSamBudget (o : NgramObj) (p : Param) (total : Nat) : Nat :=
  if 0 < o.sams.length then o.totalSamBudget p total / o.sams.length else 0

def trieBudget (o : NgramObj) (p : Param) (total : Nat) : Nat :=
  total - o.perSamBudget p total * o.sams.length

/-- The result for a request whose anchors have been matched. -/
def answer (total : Nat) (o : NgramObj) (anchors : List (Nat × Nat)) (context : List Int)
    (lastToken : Int) : Option Result :=
  if o.totalSamBudget p total = 0 ∨ o.perSamBudget p total = 0 then
    (o.trie.build scores p matchType fuel total anchors).bind (fill iter lastToken total)
  else
    ((o.trie.build scores p matchType fuel (o.trieBudget p total) anchors).bind
      (fill iter lastToken (o.trieBudget p total))).bind
        (combineSams scores iter p matchType fuel total (o.perSamBudget p total) context lastToken
          o.sams)

def serve (total : Nat) (o : NgramObj) (id : Int) (context : List Int) (lastToken : Int)
    (totalLen : Nat) : Option (Result × NgramObj) :=
  let (anchors, state) := o.trie.matchContext c context (o.matchState id) totalLen
  (answer scores iter p matchType fuel total o anchors context lastToken).map fun res =>
    (res, { o with matchState := Function.update o.matchState id state })

/-- The loop over the requests. -/
def serveAll (total : Nat) : List (Int × List Int × Nat) → Merged → NgramObj →
    Option (Except NgramError Merged × NgramObj)
  | [], merged, o => some (.ok merged, o)
  | (id, context, totalLen) :: rest, merged, o =>
      match context.getLast? with
      | none => some (.error .emptyTail, o)
      | some lastToken =>
          (serve scores iter c p matchType fuel total o id context lastToken totalLen).bind
            fun (res, o) => serveAll total rest (merged.append res) o

/-- `batchMatch`; `none` when one of the loops of a builder needs more than `fuel` rounds. -/
def batchMatch (stateIds : List Int) (tokens : List (List Int)) (totalLens : List Nat)
    (o : NgramObj) : Option (Except NgramError Merged × NgramObj) :=
  if stateIds.length ≠ tokens.length ∨ stateIds.length ≠ totalLens.length then
    some (.error .sizes, o)
  else
    match p.parseMatchType with
    | none => some (.error (.matchType p.matchType), o)
    | some matchType =>
        serveAll scores iter c p matchType fuel (p.getDraftTokenNum tokens.length)
          (stateIds.zip (tokens.zip totalLens)) .new o

end Batch

/-- A new object. -/
def new (c : TrieConfig) : NgramObj := ⟨Trie.new c, [], fun _ => .new⟩

/-- The objects that the calls lead to. The corpora may be iterated in any order. -/
inductive Reachable (c : TrieConfig) (p : Param) : NgramObj → Prop where
  | new : Reachable c p (new c)
  | insert {o : NgramObj} {t : Trie} (h : Reachable c p o) (tokens : List Int)
      (hstep : (o.trie.step c (.insert tokens)).state = some t) :
      Reachable c p { o with trie := t }
  | reset {o : NgramObj} (h : Reachable c p o) :
      Reachable c p { o with trie := o.trie.reset c, matchState := fun _ => .new }
  | finishExternalCorpusLoad {o : NgramObj} {sam : SuffixAutomaton} (h : Reachable c p o)
      (corpusId : String) (chunks : List (List Int)) (sams : List (String × SuffixAutomaton))
      (hload : SuffixAutomaton.load chunks = some sam) (hsome : chunks.flatten ≠ [])
      (hnew : corpusId ∉ o.sams.map Prod.fst) (hsams : sams.Perm ((corpusId, sam) :: o.sams)) :
      Reachable c p { o with sams }
  | removeExternalCorpus {o : NgramObj} (h : Reachable c p o) (corpusId : String) :
      Reachable c p { o with sams := o.sams.filter fun entry => entry.1 ≠ corpusId }
  | clearExternalCorpus {o : NgramObj} (h : Reachable c p o) : Reachable c p { o with sams := [] }
  | batchMatch {o o' : NgramObj} {β : Type} (h : Reachable c p o) (scores : Scores β)
      (iter : List (Int × Nat) → List (Int × Nat)) (fuel : Nat) (stateIds : List Int)
      (tokens : List (List Int)) (totalLens : List Nat)
      {answer : Except NgramError Merged}
      (hmatch : o.batchMatch scores iter c p fuel stateIds tokens totalLens = some (answer, o')) :
      Reachable c p o'
  | eraseMatchState {o : NgramObj} (h : Reachable c p o) (id : Int) :
      Reachable c p { o with matchState := Function.update o.matchState id .new }

end NgramObj

end SpecDecode.Ngram
