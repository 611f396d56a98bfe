import SpecDecode.Lib.KeyedSum

/-!
# External corpora

The store of external corpora is split over three layers: `Ngram` holds one suffix
automaton per corpus and a staging slot for the one that is being built, `NgramCorpus` keeps
the token counts and the budget, and `ExternalCorpusManager` runs one load at a time in a
background thread and commits its result when the scheduler next polls it.

A load is a thread that is interrupted between any two of its calls. Of a suffix automaton
only the tokens it was built from matter here.
-/

namespace SpecDecode.ExternalCorpus

/-- Why a load fails. `raised` is any other exception, such as a chunk that does not convert
to 32-bit tokens. -/
inductive LoadError where
  | alreadyExists (corpusId : String)
  | overBudget (maxTokens : Int) (loadedTokenCount : Nat)
  | startedTwice
  | appendWithoutStart
  | finishWithoutStart
  | emptyCorpus
  | raised (message : String)
deriving Repr, DecidableEq

/-- A `SuffixAutomaton`, by the tokens that were appended to it. -/
structure SuffixAutomaton where
  tokens : List Int
deriving Repr, DecidableEq

namespace SuffixAutomaton

def appendTokens (sam : SuffixAutomaton) (tokens : List Int) : SuffixAutomaton :=
  ⟨sam.tokens ++ tokens⟩

def tokenCount (sam : SuffixAutomaton) : Nat := sam.tokens.length

/-- `empty` of a finalized automaton: no token was seen. -/
def empty (sam : SuffixAutomaton) : Bool := sam.tokens.isEmpty

end SuffixAutomaton

/-- The external corpora of the C++ `Ngram` object. -/
structure Ngram where
  sams : AList fun _ : String => SuffixAutomaton
  stagingSam : Option SuffixAutomaton

namespace Ngram

def startExternalCorpusLoad (o : Ngram) : Option LoadError × Ngram :=
  if o.stagingSam.isSome then (some .startedTwice, o)
  else (none, { o with stagingSam := some ⟨[]⟩ })

def appendExternalCorpusTokens (o : Ngram) (tokens : List Int) : Option LoadError × Ngram :=
  match o.stagingSam with
  | none => (some .appendWithoutStart, o)
  | some sam => (none, { o with stagingSam := some (sam.appendTokens tokens) })

def finishExternalCorpusLoad (o : Ngram) (corpusId : String) : Option LoadError × Ngram :=
  match o.stagingSam with
  | none => (some .finishWithoutStart, o)
  | some sam =>
      if sam.empty then (some .emptyCorpus, { o with stagingSam := none })
      else if corpusId ∈ o.sams then (some (.alreadyExists corpusId), o)
      else (none, ⟨o.sams.insert corpusId sam, none⟩)

def removeExternalCorpus (o : Ngram) (corpusId : String) : Ngram :=
  { o with sams := o.sams.erase corpusId }

def resetStagingSam (o : Ngram) : Ngram := { o with stagingSam := none }

/-- `listExternalCorpora`, which is also what the manager's `list` answers. -/
def listExternalCorpora (o : Ngram) : List (String × Nat) :=
  o.sams.entries.map fun e => (e.1, e.2.tokenCount)

/-- The tokens of all automata that are held. -/
def heldTokens (o : Ngram) : Nat := valueSum SuffixAutomaton.tokenCount o.sams

end Ngram

/-- The bookkeeping of the Python `NgramCorpus`. -/
structure NgramCorpus where
  obj : Ngram
  externalCorpusMaxTokens : Nat
  corpusTokenCounts : AList fun _ : String => Nat
  totalLoadedTokens : Int

namespace NgramCorpus

def init (externalCorpusMaxTokens : Nat) : NgramCorpus :=
  ⟨⟨∅, none⟩, externalCorpusMaxTokens, ∅, 0⟩

def remainingTokenBudget (c : NgramCorpus) : Int :=
  c.externalCorpusMaxTokens - c.totalLoadedTokens

def commitExternalCorpusLoad (c : NgramCorpus) (corpusId : String) (loadedTokenCount : Nat) :
    NgramCorpus :=
  { c with
    corpusTokenCounts := c.corpusTokenCounts.insert corpusId loadedTokenCount
    totalLoadedTokens := c.totalLoadedTokens + loadedTokenCount }

def removeExternalCorpus (c : NgramCorpus) (corpusId : String) : NgramCorpus :=
  let oldCount := (c.corpusTokenCounts.lookup corpusId).getD 0
  { c with
    obj := c.obj.removeExternalCorpus corpusId
    corpusTokenCounts := c.corpusTokenCounts.erase corpusId
    totalLoadedTokens := c.totalLoadedTokens - oldCount }

end NgramCorpus

structure AddReq where
  corpusId : String
  tokenChunks : List (List Int)

/-- Where the thread of a load stands in the two nested `load_external_corpus_named`. The
first one checks the id and reads the budget, the inner one starts the load, appends its
chunks and finishes it, or cancels it on an exception. -/
inductive Loader where
  | check
  | start (maxTokens : Int)
  | append (maxTokens : Int) (chunks : List (List Int)) (loadedTokenCount : Nat)
  | cancel (error : LoadError)
  | loaded (loadedTokenCount : Nat)
  | failed (error : LoadError)

/-- The next call of the thread of a load. An exception may strike it before it takes
effect; before the load is started nothing cancels it. -/
def Loader.step (req : AddReq) (exception : Option String) (c : NgramCorpus) :
    Loader → Loader × NgramCorpus
  | .check =>
      if req.corpusId ∈ c.corpusTokenCounts then (.failed (.alreadyExists req.corpusId), c)
      else (.start c.remainingTokenBudget, c)
  | .start maxTokens =>
      match exception with
      | some message => (.failed (.raised message), c)
      | none =>
          match c.obj.startExternalCorpusLoad with
          | (some error, obj) => (.failed error, { c with obj })
          | (none, obj) => (.append maxTokens req.tokenChunks 0, { c with obj })
  | .append maxTokens (chunk :: chunks) loadedTokenCount =>
      match exception with
      | some message => (.cancel (.raised message), c)
      | none =>
          if (loadedTokenCount + chunk.length : Int) > maxTokens then
            (.cancel (.overBudget maxTokens loadedTokenCount), c)
          else
            match c.obj.appendExternalCorpusTokens chunk with
            | (some error, obj) => (.cancel error, { c with obj })
            | (none, obj) =>
                (.append maxTokens chunks (loadedTokenCount + chunk.length), { c with obj })
  | .append _ [] loadedTokenCount =>
      match exception with
      | some message => (.cancel (.raised message), c)
      | none =>
          match c.obj.finishExternalCorpusLoad req.corpusId with
          | (some error, obj) => (.cancel error, { c with obj })
          | (none, obj) => (.loaded loadedTokenCount, { c with obj })
  | .cancel error => (.failed error, { c with obj := c.obj.resetStagingSam })
  | .loaded loadedTokenCount => (.loaded loadedTokenCount, c)
  | .failed error => (.failed error, c)

/-- `ExternalCorpusManager` with the corpus it manages and the thread of its load. -/
structure Manager where
  corpus : NgramCorpus
  pendingLoad : Option (AddReq × Loader)

inductive Action where
  /-- An `add` request; it is refused while another load is pending. -/
  | add (req : AddReq)
  | remove (corpusId : String)
  | list
  /-- The loading thread takes its next step. -/
  | load (exception : Option String)
  /-- `check_pending_load`. -/
  | checkPendingLoad

namespace Manager

def init (externalCorpusMaxTokens : Nat) : Manager := ⟨.init externalCorpusMaxTokens, none⟩

def add (m : Manager) (req : AddReq) : Manager :=
  match m.pendingLoad with
  | some _ => m
  | none => { m with pendingLoad := some (req, .check) }

def load (m : Manager) (exception : Option String) : Manager :=
  match m.pendingLoad with
  | none => m
  | some (req, loader) =>
      ⟨(loader.step req exception m.corpus).2, some (req, (loader.step req exception m.corpus).1)⟩

def checkPendingLoad (m : Manager) : Manager :=
  match m.pendingLoad with
  | some (req, .loaded loadedTokenCount) =>
      ⟨m.corpus.commitExternalCorpusLoad req.corpusId loadedTokenCount, none⟩
  | some (_, .failed _) => { m with pendingLoad := none }
  | _ => m

def step (m : Manager) : Action → Manager
  | .add req => m.add req
  | .remove corpusId => { m with corpus := m.corpus.removeExternalCorpus corpusId }
  | .list => m
  | .load exception => m.load exception
  | .checkPendingLoad => m.checkPendingLoad

def run (m : Manager) (acts : List Action) : Manager := acts.foldl step m

@[simp] theorem run_nil (m : Manager) : m.run [] = m := rfl

@[simp] theorem run_cons (m : Manager) (act : Action) (acts : List Action) :
    m.run (act :: acts) = (m.step act).run acts := rfl

/-- The load that has finished and is not committed yet. -/
def uncommitted (m : Manager) : Option (String × Nat) :=
  match m.pendingLoad with
  | some (req, .loaded loadedTokenCount) => some (req.corpusId, loadedTokenCount)
  | _ => none

end Manager

/-- The states of the runs whose steps are all admissible. -/
inductive Reach (admissible : Manager → Action → Prop) (externalCorpusMaxTokens : Nat) :
    Manager → Prop
  | init : Reach admissible externalCorpusMaxTokens (.init externalCorpusMaxTokens)
  | step {m : Manager} (act : Action) : Reach admissible externalCorpusMaxTokens m →
      admissible m act → Reach admissible externalCorpusMaxTokens (m.step act)

/-- The corpora that a sequence of actions removes. -/
def removals (acts : List Action) : List String :=
  acts.filterMap fun
    | .remove corpusId => some corpusId
    | _ => none

end SpecDecode.ExternalCorpus
