import SpecDecode.Constrained.GrammarObjects
import Mathlib.Logic.Function.Basic

/-!
# The grammar manager

A request whose grammar is not in the cache waits in the queue for a future. The ranks agree on
the indices of the queue that are ready and on those that have failed; the same step then takes
these requests out on every rank, and fills the cache. A step that raises is `none`.

Requests are numbered in the order in which they arrive; the server has a grammar backend. In the
message of a timeout the texts of the key are not escaped.
-/

namespace SpecDecode.Constrained

structure SamplingParams where
  jsonSchema : Option String
  regex : Option String
  ebnf : Option String
  structuralTag : Option String
  /-- What `_get_request_thinking_budget` finds in `custom_params`. -/
  thinkingBudget : Option Int

inductive GrammarRef where
  | none
  | future (key : GrammarKey) (requireReasoning : Bool)
  | object (a : Nat)
deriving DecidableEq

structure Req where
  rid : String
  samplingParams : SamplingParams
  requireReasoning : Bool
  grammar : GrammarRef
  grammarKey : Option GrammarKey
  grammarWaitCt : Nat
  finished : Bool
  /-- The message of the abort that ends the request. -/
  toFinish : Option String

namespace Req

/-- A request as it arrives. -/
def new (rid : String) (params : SamplingParams) (requireReasoning : Bool) : Req where
  rid := rid
  samplingParams := params
  requireReasoning := requireReasoning
  grammar := .none
  grammarKey := none
  grammarWaitCt := 0
  finished := false
  toFinish := none

def setFinishWithAbort (r : Req) (errorMsg : String) : Req :=
  { r with grammar := .none, toFinish := some errorMsg }

end Req

/-- The key of a request: `none` without a grammar, `some none` when no branch sets it. -/
def SamplingParams.key (p : SamplingParams) : Option (Option GrammarKey) :=
  match p.jsonSchema, p.regex, p.ebnf, p.structuralTag with
  | some s, _, _, _ => some (some ("json", s))
  | none, some s, _, _ => some (some ("regex", s))
  | none, none, some s, _ => some (some ("ebnf", s))
  | none, none, none, some s => some (if s = "" then none else some ("structural_tag", s))
  | none, none, none, none => none

structure GrammarManager (Q M : Type) where
  heap : Heap Q M
  cache : GrammarKey → Option Nat
  reqs : List Req
  grammarQueue : List Nat

namespace GrammarManager

variable {Q M : Type} (b : Backend Q M)

def init : GrammarManager Q M := ⟨[], fun _ => none, [], []⟩

/-- `get_cached_or_future_value`. -/
def getCachedOrFutureValue (s : GrammarManager Q M) (key : GrammarKey) (requireReasoning : Bool) :
    GrammarManager Q M × GrammarRef × Bool :=
  match s.cache key with
  | some value =>
      let (h, copied) := s.heap.copy value
      ({ s with heap := h.maybeInitReasoning copied requireReasoning }, .object copied, true)
  | none => (s, .future key requireReasoning, false)

def setCache (s : GrammarManager Q M) (key : GrammarKey) (value : Nat) : GrammarManager Q M :=
  { s with cache := Function.update s.cache key (some value) }

/-- The message of an `InvalidGrammarObject`. -/
def errorMessage (h : Heap Q M) (a : Nat) : Option String :=
  match h[a]? with
  | some (.invalid msg) => some msg
  | _ => none

def applyReasoningBudget (h : Heap Q M) (r : Req) : Heap Q M :=
  match r.samplingParams.thinkingBudget, r.grammar with
  | some n, .object a => h.setMaxThinkTokens a n
  | _, _ => h

def processKey (s : GrammarManager Q M) (r : Req) (key : GrammarKey) : GrammarManager Q M :=
  match s.getCachedOrFutureValue key r.requireReasoning with
  | (s, value, false) =>
      { s with
        reqs := s.reqs ++ [{ r with grammar := value, grammarKey := some key }]
        grammarQueue := s.grammarQueue ++ [s.reqs.length] }
  | (s, value, true) =>
      let r := { r with grammar := value }
      match value with
      | .object a =>
          match errorMessage s.heap a with
          | some msg =>
              { s with
                reqs := s.reqs ++
                  [r.setFinishWithAbort s!"Failed to compile {key.1} grammar: {msg}"] }
          | none => { s with heap := applyReasoningBudget s.heap r, reqs := s.reqs ++ [r] }
      | _ => { s with reqs := s.reqs ++ [r] }

def processReqWithGrammar (s : GrammarManager Q M) (r : Req) : Option (GrammarManager Q M) :=
  match r.samplingParams.key with
  | some (some key) => some (s.processKey r key)
  | some none => none
  | none =>
      match s.heap.initStrictReasoningGrammar b r.requireReasoning with
      | some (h, a) =>
          let r := { r with grammar := .object a }
          some { s with heap := applyReasoningBudget h r, reqs := s.reqs ++ [r] }
      | none => some { s with reqs := s.reqs ++ [r] }

def modifyReq (s : GrammarManager Q M) (id : Nat) (f : Req → Req) : GrammarManager Q M :=
  { s with reqs := s.reqs.modify id f }

def abortRequests (s : GrammarManager Q M) (abortAll : Bool) (rid : String) : GrammarManager Q M :=
  s.grammarQueue.foldl (fun s id => s.modifyReq id fun r =>
    if abortAll || rid.toList.isPrefixOf r.rid.toList then
      r.setFinishWithAbort "Aborted by AbortReq."
    else r) s

def resultOf (h : Heap Q M) (key : GrammarKey) (requireReasoning : Bool) : Heap Q M × Nat :=
  match h.initValueDispatch b key requireReasoning with
  | .ok result => result
  | .error e => h.new (.invalid s!"Grammar compilation failed: {e}")

/-- The step of `get_ready_grammar_requests` for a request that is ready. -/
def returnReady (s : GrammarManager Q M) (i : Nat) : Option (GrammarManager Q M) := do
  let id ← s.grammarQueue[i]?
  let r ← s.reqs[id]?
  if r.finished || r.grammar = .none then some s
  else
    match r.grammar, r.grammarKey with
    | .future key requireReasoning, some grammarKey =>
        let (h, a) := resultOf b s.heap key requireReasoning
        let (h, cached) := h.copy a
        let s := { s with heap := h }.setCache grammarKey cached
        let s := { s with heap := applyReasoningBudget s.heap { r with grammar := .object a } }
        match errorMessage s.heap a with
        | some msg =>
            some (s.modifyReq id
              (·.setFinishWithAbort s!"Failed to compile {grammarKey.1} grammar: {msg}"))
        | none => some (s.modifyReq id fun r => { r with grammar := .object a })
    | _, _ => none

def returnFailed (s : GrammarManager Q M) (i : Nat) : Option (GrammarManager Q M) := do
  let id ← s.grammarQueue[i]?
  let r ← s.reqs[id]?
  match r.grammar, r.grammarKey with
  | .future _ _, some grammarKey =>
      let (h, a) := s.heap.new (.invalid "Grammar preprocessing timed out")
      let s := { s with heap := h }.setCache grammarKey a
      some (s.modifyReq id (·.setFinishWithAbort
        s!"Grammar preprocessing timed out: req.grammar_key=('{grammarKey.1}', '{grammarKey.2}')"))
  | _, _ => none

def getReadyGrammarRequests (s : GrammarManager Q M) (ready failed : List Nat) :
    Option (GrammarManager Q M × List Nat) := do
  let s ← ready.foldlM (returnReady b) s
  let s ← failed.foldlM returnFailed s
  let left := (List.range s.grammarQueue.length).filter fun i => i ∉ ready ∧ i ∉ failed
  some ({ s with grammarQueue := left.filterMap (s.grammarQueue[·]?) },
    (ready ++ failed).filterMap (s.grammarQueue[·]?))

def clear (s : GrammarManager Q M) : GrammarManager Q M := { s with cache := fun _ => none }

end GrammarManager

inductive ObjectCall where
  | acceptToken (token : Nat)
  | rollback (k : Nat)

inductive GrammarEvent where
  | process (rid : String) (params : SamplingParams) (requireReasoning : Bool)
  | getReady (ready failed : List Nat)
  | abort (abortAll : Bool) (rid : String)
  | call (id : Nat) (c : ObjectCall)
  | clear

namespace GrammarManager

variable {Q M : Type} (b : Backend Q M)

def callObject (h : Heap Q M) (a : Nat) : ObjectCall → Option (Heap Q M)
  | .acceptToken token => h.acceptToken a token
  | .rollback k => h.rollback a k

/-- A request calls a method of its object; nothing has changed when that raises. -/
def call (s : GrammarManager Q M) (id : Nat) (c : ObjectCall) : GrammarManager Q M :=
  match s.reqs[id]? with
  | some r =>
      match r.grammar with
      | .object a => { s with heap := (callObject s.heap a c).getD s.heap }
      | _ => s
  | none => s

def step (s : GrammarManager Q M) : GrammarEvent → Option (GrammarManager Q M)
  | .process rid params requireReasoning =>
      s.processReqWithGrammar b (.new rid params requireReasoning)
  | .getReady ready failed => (s.getReadyGrammarRequests b ready failed).map Prod.fst
  | .abort abortAll rid => some (s.abortRequests abortAll rid)
  | .call id c => some (s.call id c)
  | .clear => some s.clear

def run (events : List GrammarEvent) : Option (GrammarManager Q M) := events.foldlM (step b) init

end GrammarManager

end SpecDecode.Constrained
