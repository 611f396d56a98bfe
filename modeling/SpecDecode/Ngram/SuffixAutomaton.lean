import SpecDecode.Lib.LinkSums
import SpecDecode.Lib.SuffixAutomaton
import Mathlib.Data.List.Sort
import Mathlib.Data.Prod.Lex

/-!
# The suffix automaton of an external corpus

States are pushed to a vector and named by their index. A link of `-1` is `none`. The map `next`
is an association list; `next[token]` inserts `0` for a token that is not there. The loops along
the links take fuel; `none` stands for a loop that does not end or a read outside of the vector.

The order that `std::sort` gives states of equal length is left open by the library; here it is
the order of the numbers.
-/

namespace SpecDecode.Ngram

open Function

/-- `kSeparatorToken`. -/
def separatorToken : Int := -(2 ^ 31)

structure SamState where
  link : Option Nat
  maxLen : Nat
  next : List (Int × Nat)
  occCount : Nat
  maxEndPos : Int
  childrenByFreq : List (Int × Nat)
  childrenByRecency : List (Int × Nat)

/-- A state as its constructor leaves it. -/
def SamState.new : SamState := ⟨none, 0, [], 0, -1, [], []⟩

structure SamAnchor where
  state : Nat
  matchedLen : Nat
deriving Repr, DecidableEq

structure SuffixAutomaton where
  states : Nat → SamState
  size : Nat
  last : Nat
  pos : Nat
  sawToken : Bool
  finalized : Bool
  loaded : Bool

def setNext (token : Int) (state : Nat) : List (Int × Nat) → List (Int × Nat)
  | [] => [(token, state)]
  | (token', state') :: rest =>
      if token' = token then (token, state) :: rest
      else (token', state') :: setNext token state rest

def touchNext (token : Int) (next : List (Int × Nat)) : List (Int × Nat) :=
  if next.lookup token = none then setNext token 0 next else next

namespace SuffixAutomaton

/-- `SuffixAutomaton::reset_`. -/
def new : SuffixAutomaton := ⟨fun _ => .new, 1, 0, 0, false, false, false⟩

/-- `states_[v].next[token] = state`. -/
def assign (token : Int) (state v : Nat) (states : Nat → SamState) : Nat → SamState :=
  update states v { states v with next := setNext token state (states v).next }

/-- The loop that links `token` to the new state, from `p` on: the state where it stops. -/
def linkLoop (token : Int) (cur : Nat) : (fuel : Nat) → Option Nat → (Nat → SamState) →
    Option (Option Nat × (Nat → SamState))
  | _, none, states => some (none, states)
  | 0, some _, _ => none
  | fuel + 1, some p, states =>
      if (states p).next.lookup token = none then
        linkLoop token cur fuel (states p).link (assign token cur p states)
      else some (some p, states)

def cloneLoop (token : Int) (q clone : Nat) : (fuel : Nat) → Option Nat → (Nat → SamState) →
    Option (Nat → SamState)
  | _, none, states => some states
  | 0, some _, _ => none
  | fuel + 1, some p, states =>
      let states := update states p
        { states p with next := touchNext token (states p).next }
      if (states p).next.lookup token = some q then
        cloneLoop token q clone fuel (states p).link (assign token clone p states)
      else some states

def newState (s : SuffixAutomaton) (pos : Nat) : SamState :=
  { SamState.new with maxLen := (s.states s.last).maxLen + 1, occCount := 1, maxEndPos := pos }

def cloneState (states : Nat → SamState) (p q : Nat) : SamState :=
  { states q with
    maxLen := (states p).maxLen + 1
    occCount := 0
    childrenByFreq := []
    childrenByRecency := [] }

def setLink (v link : Nat) (states : Nat → SamState) : Nat → SamState :=
  update states v { states v with link := some link }

/-- `SuffixAutomaton::extend_`. -/
def extend (token : Int) (pos : Nat) (s : SuffixAutomaton) : Option SuffixAutomaton :=
  let cur := s.size
  (linkLoop token cur (s.size + 1) (some s.last)
    (update s.states cur (s.newState pos))).bind fun (p, states) =>
      match p with
      | none => some { s with states := setLink cur 0 states, size := s.size + 1, last := cur }
      | some p =>
          let q := ((states p).next.lookup token).getD 0
          if (states p).maxLen + 1 = (states q).maxLen then
            some { s with states := setLink cur q states, size := s.size + 1, last := cur }
          else
            let clone := s.size + 1
            (cloneLoop token q clone (s.size + 1) (some p)
              (update states clone (cloneState states p q))).map fun states =>
                { s with
                  states := setLink cur clone (setLink q clone states)
                  size := s.size + 2
                  last := cur }

def appendTokens (tokens : List Int) (s : SuffixAutomaton) : Option SuffixAutomaton :=
  if s.finalized then none
  else tokens.foldlM (fun s token =>
    (s.extend token s.pos).map fun s' => { s' with pos := s.pos + 1, sawToken := true }) s

def byLength (s : SuffixAutomaton) : List Nat :=
  (List.range s.size).insertionSort fun v w => (s.states v).maxLen ≤ (s.states w).maxLen

/-- The children by a number that decreases, then by token and state. -/
def sortChildren (key : Nat → Int) (next : List (Int × Nat)) : List (Int × Nat) :=
  (next.filter fun entry => entry.1 ≠ separatorToken).insertionSort fun x y =>
    toLex (-key x.2, toLex (x.1, x.2)) ≤ toLex (-key y.2, toLex (y.1, y.2))

def propagate (s : SuffixAutomaton) : SuffixAutomaton :=
  let link := fun v => (s.states v).link
  let order := s.byLength.reverse
  let occ := order.foldl (LinkSums.absorb link (· + ·)) fun v => (s.states v).occCount
  let recency := order.foldl (LinkSums.absorb link max) fun v => (s.states v).maxEndPos
  { s with
    states := fun v =>
      { s.states v with
        occCount := occ v
        maxEndPos := recency v
        childrenByFreq := sortChildren (fun c => occ c) (s.states v).next
        childrenByRecency := sortChildren recency (s.states v).next } }

def finalize (s : SuffixAutomaton) : SuffixAutomaton :=
  if s.finalized then s
  else if s.sawToken then { s.propagate with finalized := true, loaded := true }
  else { s with finalized := true }

/-- The `while` loop along the links: the state and the matched length. -/
def failLoop (s : SuffixAutomaton) (token : Int) : (fuel : Nat) → Nat → Nat → Option (Nat × Nat)
  | fuel, state, matchedLen =>
      if state ≠ 0 ∧ (s.states state).next.lookup token = none then
        match fuel with
        | 0 => none
        | fuel + 1 =>
            (s.states state).link.bind fun link =>
              failLoop s token fuel link (min matchedLen (s.states link).maxLen)
      else some (state, matchedLen)

def matchToken (s : SuffixAutomaton) (cursor : Nat × Nat) (token : Int) : Option (Nat × Nat) :=
  (s.failLoop token s.size cursor.1 cursor.2).map fun (state, matchedLen) =>
    match (s.states state).next.lookup token with
    | some next => (next, matchedLen + 1)
    | none =>
        match (s.states 0).next.lookup token with
        | some next => (next, 1)
        | none => (0, 0)

def anchorLoop (s : SuffixAutomaton) : (fuel : Nat) → Nat → Nat → Option (List SamAnchor)
  | fuel, state, matchedLen =>
      if 0 < state ∧ 0 < matchedLen then
        let here := if (s.states state).childrenByFreq ≠ [] then [⟨state, matchedLen⟩] else []
        match (s.states state).link with
        | none => some here
        | some link =>
            if link = 0 then some here
            else
              match fuel with
              | 0 => none
              | fuel + 1 =>
                  (anchorLoop s fuel link (min matchedLen (s.states link).maxLen)).map (here ++ ·)
      else some []

/-- `SuffixAutomaton::match`. -/
def matchContext (s : SuffixAutomaton) (context : List Int) (maxDepth : Nat) :
    Option (List SamAnchor) :=
  if !s.loaded || context = [] then some []
  else ((context.drop (context.length - maxDepth)).foldlM s.matchToken (0, 0)).bind
    fun (state, matchedLen) => s.anchorLoop s.size state matchedLen

end SuffixAutomaton

end SpecDecode.Ngram
