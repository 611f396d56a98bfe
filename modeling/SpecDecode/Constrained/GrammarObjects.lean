import SpecDecode.Constrained.ReasonerGrammar
import Mathlib.Algebra.Order.Ring.Int

/-!
# Grammar objects

The grammar backend hands out references to objects, and copies of them. The memory is the list
of the objects, in the order of their creation; an address is a position in it. A
`ReasonerGrammarObject` refers to its inner grammar, so a token that it accepts changes two
objects. The compiler of the inner backend is a function of the key.
-/

namespace SpecDecode.Constrained

abbrev GrammarKey := String × String

structure Compilation (Q M : Type) where
  ctx : CompiledGrammar Q M
  start : Q

inductive Dispatched (Q M : Type) where
  | compiled (c : Compilation Q M)
  | invalid (errorMessage : String)
  | raises (error : String)

structure ThinkFilter (M : Type) where
  thinkEndId : Nat
  thinkExcludedTokenIds : Option (List Nat)
  maxThinkTokens : Int
  enableTokenFilter : Bool
  tokenFilterFn : Option (M → Option (List Nat) → Nat → Bool → M)

/-- `ReasonerGrammarBackend`. -/
structure Backend (Q M : Type) where
  dispatch : GrammarKey → Dispatched Q M
  filter : ThinkFilter M
  enableStrictThinking : Bool

inductive GrammarObject (Q M : Type) where
  | xgrammar (c : Compilation Q M) (g : XGrammarGrammar Q)
  | reasoner (grammar : Option Nat) (phase : Phase) (filter : ThinkFilter M)
  | invalid (errorMessage : String)

abbrev Heap (Q M : Type) := List (GrammarObject Q M)

def Compilation.matcher {Q M : Type} (c : Compilation Q M) : XGrammarGrammar Q :=
  ⟨⟨c.start, []⟩, []⟩

/-- The constructor sets both counters to `-1`. -/
def Phase.new : Phase := ⟨-1, -1⟩

/-- `maybe_init_reasoning` on the counters of an object. -/
def Phase.reinit (p : Phase) (reasoning : Bool) : Phase :=
  if reasoning then { p with tokensInThink := 0 } else ⟨-1, 0⟩

/-- The configuration of a reasoner, apart from its inner grammar. -/
def ThinkFilter.config {Q M : Type} (f : ThinkFilter M) (ctx : CompiledGrammar Q M) :
    Config Q M where
  ctx := ctx
  thinkEndId := f.thinkEndId
  thinkExcludedTokenIds := f.thinkExcludedTokenIds
  maxThinkTokens := f.maxThinkTokens
  enableTokenFilter := f.enableTokenFilter
  tokenFilterFn := f.tokenFilterFn

def ReasonerGrammarObject.isTerminated {Q M : Type} (c : Config Q M) (s : ReasonerGrammarObject Q) :
    Bool :=
  match s.grammar with
  | some g => g.isTerminated c.ctx
  | none => false

/-- There is nothing to ask without an inner grammar. -/
def CompiledGrammar.absent (Q M : Type) : CompiledGrammar Q M :=
  ⟨fun _ _ => none, fun _ => false, fun _ mask _ => mask⟩

namespace Heap

variable {Q M : Type}

def new (h : Heap Q M) (o : GrammarObject Q M) : Heap Q M × Nat := (h ++ [o], h.length)

/-- The fields of a reasoner and of its inner grammar. -/
def load (h : Heap Q M) (a : Nat) : Option (Config Q M × ReasonerGrammarObject Q) :=
  match h[a]? with
  | some (.reasoner none phase f) => some (f.config (.absent Q M), ⟨none, phase⟩)
  | some (.reasoner (some i) phase f) =>
      match h[i]? with
      | some (.xgrammar c g) => some (f.config c.ctx, ⟨some g, phase⟩)
      | _ => none
  | _ => none

def storeGrammar (h : Heap Q M) (i : Nat) (g : XGrammarGrammar Q) : Heap Q M :=
  match h[i]? with
  | some (.xgrammar c _) => h.set i (.xgrammar c g)
  | _ => h

/-- Change the fields of a reasoner and of its inner grammar. -/
def store (h : Heap Q M) (a : Nat) (s : ReasonerGrammarObject Q) : Heap Q M :=
  match h[a]? with
  | some (.reasoner (some i) _ f) =>
      match s.grammar with
      | some g => (h.storeGrammar i g).set a (.reasoner (some i) s.phase f)
      | none => h.set a (.reasoner (some i) s.phase f)
  | some (.reasoner none _ f) => h.set a (.reasoner none s.phase f)
  | _ => h

/-- `accept_token`; nothing has changed when it raises. -/
def acceptToken (h : Heap Q M) (a token : Nat) : Option (Heap Q M) :=
  (h.load a).bind fun (c, s) => (s.acceptToken c token).map (h.store a)

/-- `rollback`. -/
def rollback (h : Heap Q M) (a k : Nat) : Option (Heap Q M) :=
  (h.load a).bind fun (_, s) => (s.rollback k).map (h.store a)

def setMaxThinkTokens (h : Heap Q M) (a : Nat) (n : Int) : Heap Q M :=
  match h[a]? with
  | some (.reasoner i phase f) => h.set a (.reasoner i phase { f with maxThinkTokens := n })
  | _ => h

def maybeInitReasoning (h : Heap Q M) (a : Nat) (reasoning : Bool) : Heap Q M :=
  match h[a]? with
  | some (.reasoner i phase f) => h.set a (.reasoner i (phase.reinit reasoning) f)
  | _ => h

def copyGrammar (h : Heap Q M) (i : Nat) : Heap Q M × Nat :=
  match h[i]? with
  | some (.xgrammar c _) => h.new (.xgrammar c c.matcher)
  | _ => (h, i)

/-- `copy`. An `InvalidGrammarObject` is its own copy. -/
def copy (h : Heap Q M) (a : Nat) : Heap Q M × Nat :=
  match h[a]? with
  | some (.reasoner none phase f) => h.new (.reasoner none phase f)
  | some (.reasoner (some i) phase f) =>
      let (h, i) := h.copyGrammar i
      h.new (.reasoner (some i) phase f)
  | _ => h.copyGrammar a

def makeGrammarObject (b : Backend Q M) (h : Heap Q M) (grammar : Option Nat) (reasoning : Bool) :
    Heap Q M × Nat :=
  let (h, a) := h.new (.reasoner grammar .new b.filter)
  (h.maybeInitReasoning a reasoning, a)

/-- `_init_value_dispatch`, or the error that it raises. -/
def initValueDispatch (b : Backend Q M) (h : Heap Q M) (key : GrammarKey) (reasoning : Bool) :
    Except String (Heap Q M × Nat) :=
  match b.dispatch key with
  | .compiled c =>
      let (h, i) := h.new (.xgrammar c c.matcher)
      .ok (h.makeGrammarObject b (some i) reasoning)
  | .invalid errorMessage => .ok (h.new (.invalid errorMessage))
  | .raises error => .error error

def initStrictReasoningGrammar (b : Backend Q M) (h : Heap Q M) (reasoning : Bool) :
    Option (Heap Q M × Nat) :=
  if b.enableStrictThinking then some (h.makeGrammarObject b none reasoning) else none

end Heap

end SpecDecode.Constrained
