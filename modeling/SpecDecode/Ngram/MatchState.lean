import SpecDecode.Ngram.TrieRun
import Mathlib.Data.List.DropRight

/-!
# Cached matches

A request keeps a `MatchState` between its calls of `Trie::match`: for every depth
the node that the last tokens of its context spelled, as a pointer with the version
the node had. The next call advances these references by the new tokens, or rebuilds
them from the tail of the context.
-/

namespace SpecDecode.Ngram

structure NodeRef where
  ptr : Option Nat
  version : Nat
deriving DecidableEq, Repr

def NodeRef.null : NodeRef := ⟨none, 0⟩

structure MatchState where
  trieEpoch : Nat
  processedTotalLen : Nat
  anchors : List NodeRef

def MatchState.new : MatchState := ⟨0, 0, []⟩

namespace Trie

/-- `capture` of a node. -/
def capture (t : Trie) (node : Nat) : NodeRef := ⟨some node, (t.nodes node).version⟩

/-- `capture` of the child under `token`, null where there is none. -/
def captureChild (t : Trie) (node : Nat) (token : Int) : NodeRef :=
  match t.findChild node token with
  | some child => t.capture child
  | none => .null

/-- `Trie::resolve`. -/
def resolve (t : Trie) (state : MatchState) (ref : NodeRef) : Option Nat :=
  match ref.ptr with
  | none => none
  | some ptr =>
      if state.trieEpoch ≠ t.trieEpoch ∨ (t.nodes ptr).version ≠ ref.version then none
      else some ptr

def validateMatchState (t : Trie) (state : MatchState) : Bool :=
  state.trieEpoch = t.trieEpoch &&
    state.anchors.all fun ref => ref.ptr.isNone || (t.resolve state ref).isSome

/-- The inner loop of `rebuildMatchState_`: follow the tokens down from `cursor`. -/
def descend (t : Trie) : Nat → List Int → Option Nat
  | cursor, [] => some cursor
  | cursor, token :: rest =>
      match t.findChild cursor token with
      | some child => descend t child rest
      | none => none

def captureSuffix (t : Trie) (suffix : List Int) : NodeRef :=
  match t.descend t.root suffix with
  | some node => t.capture node
  | none => .null

def rebuildMatchState (c : TrieConfig) (t : Trie) (context : List Int) (totalLen : Nat) :
    MatchState where
  trieEpoch := t.trieEpoch
  processedTotalLen := totalLen
  anchors := (List.range (min context.length c.maxTrieDepth)).map fun i =>
    t.captureSuffix (context.drop (context.length - (i + 1)))

/-- One round of the inner loop of `advanceMatchState_`; `none` is its `return false`. -/
def advanceRef (t : Trie) (state : MatchState) (token : Int) (ref : NodeRef) : Option NodeRef :=
  match ref.ptr with
  | none => some .null
  | some _ => (t.resolve state ref).map fun node => t.captureChild node token

def advanceAnchors (c : TrieConfig) (t : Trie) (state : MatchState) (token : Int) :
    Option (List NodeRef) :=
  let nextDepth := min (state.anchors.length + 1) c.maxTrieDepth
  ((state.anchors.take (nextDepth - 1)).mapM (t.advanceRef state token)).map fun deeper =>
    (t.captureChild t.root token :: deeper).take nextDepth

def advanceLoop (c : TrieConfig) (t : Trie) : List Int → MatchState → Option MatchState
  | [], state => some state
  | token :: rest, state =>
      (t.advanceAnchors c state token).bind fun anchors =>
        advanceLoop c t rest { state with anchors := anchors }

/-- `Trie::advanceMatchState_`. Its caller rebuilds the state after a failure. -/
def advanceMatchState (c : TrieConfig) (t : Trie) (state : MatchState) (tokens : List Int)
    (totalLen : Nat) : Option MatchState :=
  if t.validateMatchState state then
    (t.advanceLoop c tokens state).map fun state => { state with processedTotalLen := totalLen }
  else none

/-- What one cached anchor adds to the result of `getExpandableAnchors_`. -/
def expandable (t : Trie) (state : MatchState) (i : Nat) : Option (Nat × Nat) :=
  match state.anchors[i]? with
  | none => none
  | some ref =>
      match t.resolve state ref with
      | none => none
      | some node => if (t.nodes node).child ≠ [] then some (node, i + 1) else none

/-- `Trie::getExpandableAnchors_`: the deepest anchor first. -/
def getExpandableAnchors (t : Trie) (state : MatchState) : List (Nat × Nat) :=
  (List.range state.anchors.length).reverse.filterMap (t.expandable state)

def canAdvance (c : TrieConfig) (t : Trie) (state : MatchState) (len totalLen : Nat) : Bool :=
  state.trieEpoch = t.trieEpoch && state.processedTotalLen ≤ totalLen &&
    totalLen - state.processedTotalLen ≤ len &&
    state.anchors.length = min state.processedTotalLen c.maxTrieDepth

/-- `Trie::match`: the expandable anchors and the state it leaves. -/
def matchContext (c : TrieConfig) (t : Trie) (context : List Int) (state : MatchState)
    (totalLen : Nat) : List (Nat × Nat) × MatchState :=
  let appendedLen := totalLen - state.processedTotalLen
  let advanced :=
    if t.canAdvance c state context.length totalLen then
      t.advanceMatchState c state (context.drop (context.length - appendedLen)) totalLen
    else none
  let state := advanced.getD (t.rebuildMatchState c context totalLen)
  (t.getExpandableAnchors state, state)

end Trie

/-- A request: its tokens so far and its entry in `match_state_`. -/
structure Request where
  context : List Int
  state : MatchState

/-- The trie and the requests served from it. -/
structure Corpus where
  trie : Trie
  requests : Nat → Request

namespace Corpus

/-- The calls the corpus serves. A match names the tokens its request has gained and
the length of the tail it passes. -/
inductive Op where
  | trie (op : Trie.TrieOp)
  | matchRequest (id : Nat) (appended : List Int) (len : Nat)
  | eraseMatchState (id : Nat)

def new (c : TrieConfig) : Corpus := ⟨Trie.new c, fun _ => ⟨[], .new⟩⟩

/-- Match the last `len` tokens of a request. -/
def matchRequest (c : TrieConfig) (s : Corpus) (id : Nat) (appended : List Int) (len : Nat) :
    List (Nat × Nat) × Corpus :=
  let context := (s.requests id).context ++ appended
  let (anchors, state) :=
    s.trie.matchContext c (context.rtake len) (s.requests id).state context.length
  (anchors, { s with requests := Function.update s.requests id ⟨context, state⟩ })

/-- One call; undefined behaviour has no next state. -/
def step (c : TrieConfig) (s : Corpus) : Op → Option Corpus
  | .trie op => (s.trie.step c op).state.map fun t => { s with trie := t }
  | .matchRequest id appended len => some (s.matchRequest c id appended len).2
  | .eraseMatchState id =>
      some { s with requests := Function.update s.requests id ⟨[], .new⟩ }

/-- Any number of calls lead from `s` to the second corpus. -/
inductive Runs (c : TrieConfig) (s : Corpus) : Corpus → Prop where
  | refl : Runs c s s
  | step {s₁ s₂ : Corpus} (h : Runs c s s₁) (op : Op) (hstep : s₁.step c op = some s₂) :
      Runs c s s₂

end Corpus

end SpecDecode.Ngram
