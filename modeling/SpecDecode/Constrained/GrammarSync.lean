import SpecDecode.Constrained.GrammarManager
import Mathlib.Data.List.Nodup
import Mathlib.Data.List.Perm.Basic
import Mathlib.Logic.Relation

/-!
# The rounds of the ranks

Every rank has a manager of its own, and all of them receive the same requests and aborts. In a
round each rank polls its futures, the ranks exchange the indices that are ready and those that
have failed, and every rank returns the requests of the synchronised sets. All ranks load the
same sets, so they go through them in the same order; which order that is depends on the hash
table. A rank polls at least once in a round, and it never forgets that a future is done.
-/

namespace SpecDecode.Constrained

namespace GrammarManager

variable {Q M : Type}

/-- Whether the request at index `i` is ready, where `done` are the futures seen to be done. -/
def pollOne (s : GrammarManager Q M) (done : Nat → Bool) (i : Nat) : Option Bool := do
  let id ← s.grammarQueue[i]?
  let r ← s.reqs[id]?
  if r.finished || r.grammar = .none then some true
  else
    match r.grammar with
    | .future _ _ => some (done id)
    | _ => none

def pollReady (s : GrammarManager Q M) (done : Nat → Bool) : Option (List Nat) :=
  if ∀ i ∈ List.range s.grammarQueue.length, (s.pollOne done i).isSome then
    some ((List.range s.grammarQueue.length).filter fun i => s.pollOne done i = some true)
  else none

/-- A request that is not ready has waited for one more round. -/
def countWait (maxPollIterations : Nat) (ready : List Nat) (acc : GrammarManager Q M × List Nat)
    (i : Nat) : GrammarManager Q M × List Nat :=
  if i ∈ ready then acc
  else
    match acc.1.grammarQueue[i]? with
    | some id =>
        let s := acc.1.modifyReq id fun r => { r with grammarWaitCt := r.grammarWaitCt + 1 }
        match s.reqs[id]? with
        | some r => (s, if maxPollIterations ≤ r.grammarWaitCt then acc.2 ++ [i] else acc.2)
        | none => (s, acc.2)
    | none => acc

def pollFailed (maxPollIterations : Nat) (s : GrammarManager Q M) (ready : List Nat) :
    GrammarManager Q M × List Nat :=
  (List.range s.grammarQueue.length).foldl (countWait maxPollIterations ready) (s, [])

/-- `get_ready_grammar_requests` up to the exchange: the manager and both sets. -/
def poll (maxPollIterations : Nat) (s : GrammarManager Q M) (done : Nat → Bool) :
    Option (GrammarManager Q M × List Nat × List Nat) :=
  (s.pollReady done).map fun ready =>
    let (s, failed) := s.pollFailed maxPollIterations ready
    (s, ready, failed)

end GrammarManager

structure Rank (Q M : Type) where
  manager : GrammarManager Q M
  /-- The futures that this rank has seen to be done. -/
  done : Nat → Bool
  /-- What its rounds have returned. -/
  returned : List (List Nat)

/-- `ready` goes through the intersection of the ready sets, `failed` through the union of the
failed ones. -/
structure Synced {n : Nat} (readyIdxs failedIdxs : Fin n → List Nat) (ready failed : List Nat) :
    Prop where
  readyNodup : ready.Nodup
  failedNodup : failed.Nodup
  mem_ready : ∀ i, i ∈ ready ↔ ∀ r, i ∈ readyIdxs r
  mem_failed : ∀ i, i ∈ failed ↔ ∃ r, i ∈ failedIdxs r

namespace GrammarSync

variable {Q M : Type} (b : Backend Q M) (maxPollIterations : Nat) {n : Nat}

def init : Fin n → Rank Q M := fun _ => ⟨.init, fun _ => false, []⟩

/-- A step of all ranks. -/
inductive Step (W : Fin n → Rank Q M) : (Fin n → Rank Q M) → Prop where
  | process (rid : String) (params : SamplingParams) (requireReasoning : Bool)
      (managers : Fin n → GrammarManager Q M)
      (processed : ∀ r, (W r).manager.processReqWithGrammar b (.new rid params requireReasoning) =
        some (managers r)) :
      Step W fun r => { W r with manager := managers r }
  | abort (abortAll : Bool) (rid : String) :
      Step W fun r => { W r with manager := (W r).manager.abortRequests abortAll rid }
  | round (done : Fin n → Nat → Bool) (hdone : ∀ r id, (W r).done id = true → done r id = true)
      (polled : Fin n → GrammarManager Q M × List Nat × List Nat)
      (hpoll : ∀ r, (W r).manager.poll maxPollIterations (done r) = some (polled r))
      (ready failed : List Nat)
      (synced : Synced (fun r => (polled r).2.1) (fun r => (polled r).2.2) ready failed)
      (result : Fin n → GrammarManager Q M × List Nat)
      (returned : ∀ r, (polled r).1.getReadyGrammarRequests b ready failed = some (result r)) :
      Step W fun r => ⟨(result r).1, done r, (W r).returned ++ [(result r).2]⟩

def Reachable (W : Fin n → Rank Q M) : Prop :=
  Relation.ReflTransGen (Step b maxPollIterations) init W

end GrammarSync

def Req.shared (r : Req) : Req := { r with grammarWaitCt := 0 }

namespace GrammarManager

variable {Q M : Type} {b : Backend Q M} {maxPollIterations : Nat} {s s' : GrammarManager Q M}

def shared (s : GrammarManager Q M) : GrammarManager Q M := { s with reqs := s.reqs.map Req.shared }

theorem shared_getElem? (s : GrammarManager Q M) (id : Nat) :
    s.shared.reqs[id]? = s.reqs[id]?.map Req.shared := List.getElem?_map

theorem modifyReq_shared {id : Nat} {f g : Req → Req} (hf : ∀ r, (f r).shared = g r.shared) :
    (s.modifyReq id f).shared = s.shared.modifyReq id g := by
  have hreqs : (s.reqs.modify id f).map Req.shared = (s.reqs.map Req.shared).modify id g := by
    refine List.ext_getElem? fun i => ?_
    simp only [List.getElem?_map, List.getElem?_modify]
    cases s.reqs[i]? with
    | none => rfl
    | some r =>
        simp only [Option.map_some, Option.map_eq_map, Option.some.injEq]
        split
        · exact hf r
        · rfl
  exact congrArg (fun reqs => { s with reqs := reqs }) hreqs

theorem getCachedOrFutureValue_cases (s : GrammarManager Q M) (key : GrammarKey)
    (requireReasoning : Bool) :
    (s.getCachedOrFutureValue key requireReasoning = (s, .future key requireReasoning, false) ∧
      s.shared.getCachedOrFutureValue key requireReasoning =
        (s.shared, .future key requireReasoning, false)) ∨
    ∃ heap a, s.getCachedOrFutureValue key requireReasoning =
        ({ s with heap := heap }, .object a, true) ∧
      s.shared.getCachedOrFutureValue key requireReasoning =
        ({ s.shared with heap := heap }, .object a, true) := by
  rw [getCachedOrFutureValue, getCachedOrFutureValue, show s.shared.cache = s.cache from rfl]
  cases s.cache key with
  | none => exact .inl ⟨rfl, rfl⟩
  | some value => exact .inr ⟨_, _, rfl, rfl⟩

theorem shared_addReq (heap : Heap Q M) (cache : GrammarKey → Option Nat) (reqs : List Req)
    (queue : List Nat) {r : Req} (hr : r.grammarWaitCt = 0) :
    shared ⟨heap, cache, reqs ++ [r], queue⟩ =
    ⟨heap, cache, reqs.map Req.shared ++ [r], queue⟩ := by
  have hsame : r.shared = r := by rw [Req.shared, ← hr]
  rw [shared, List.map_append, List.map_singleton, hsame]

private theorem processKey_shared (s : GrammarManager Q M) {r : Req} (hr : r.grammarWaitCt = 0)
    (key : GrammarKey) : (s.processKey r key).shared = s.shared.processKey r key := by
  have hlen : s.shared.reqs.length = s.reqs.length := List.length_map _
  rcases getCachedOrFutureValue_cases s key r.requireReasoning with
    ⟨heq, heq'⟩ | ⟨heap, a, heq, heq'⟩
  · simp only [processKey, heq, heq', hlen]
    exact shared_addReq _ _ _ _ hr
  · simp only [processKey, heq, heq']
    cases errorMessage heap a with
    | some msg => exact shared_addReq _ _ _ _ hr
    | none => exact shared_addReq _ _ _ _ hr

theorem processReqWithGrammar_shared (s : GrammarManager Q M) {r : Req}
    (hr : r.grammarWaitCt = 0) : (s.processReqWithGrammar b r).map shared =
      s.shared.processReqWithGrammar b r := by
  rw [processReqWithGrammar, processReqWithGrammar]
  split
  · rw [Option.map_some, processKey_shared s hr]
  · rfl
  · rw [show s.shared.heap = s.heap from rfl]
    split
    · exact congrArg some (shared_addReq _ _ _ _ hr)
    · exact congrArg some (shared_addReq _ _ _ _ hr)

@[simp] theorem abortRequests_shared (s : GrammarManager Q M) (abortAll : Bool) (rid : String) :
    (s.abortRequests abortAll rid).shared = s.shared.abortRequests abortAll rid := by
  have hfold : ∀ (queue : List Nat) (s : GrammarManager Q M) (f : Req → Req),
      (∀ r, (f r).shared = f r.shared) →
      (queue.foldl (fun s id => s.modifyReq id f) s).shared =
        queue.foldl (fun s id => s.modifyReq id f) s.shared := by
    intro queue
    induction queue with
    | nil => exact fun _ _ _ => rfl
    | cons id queue ih =>
        intro s f hf
        rw [List.foldl_cons, List.foldl_cons, ih _ _ hf, modifyReq_shared hf]
  refine hfold s.grammarQueue s _ fun r => ?_
  rw [show r.shared.rid = r.rid from rfl]
  split <;> rfl

theorem returnReady_shared (s : GrammarManager Q M) (i : Nat) :
    (s.returnReady b i).map shared = s.shared.returnReady b i := by
  rw [returnReady, returnReady, show s.shared.grammarQueue = s.grammarQueue from rfl]
  cases s.grammarQueue[i]? with
  | none => rfl
  | some id =>
      simp only [Option.bind_eq_bind, Option.bind_some, shared_getElem?]
      cases s.reqs[id]? with
      | none => rfl
      | some r =>
          have hbudget : ∀ h a, applyReasoningBudget (Q := Q) (M := M) h
              { r.shared with grammar := .object a } =
                applyReasoningBudget h { r with grammar := .object a } := fun _ _ => rfl
          simp only [Option.map_some, Option.bind_some, hbudget, setCache,
            show s.shared.heap = s.heap from rfl]
          rw [show r.shared.finished = r.finished from rfl,
            show r.shared.grammar = r.grammar from rfl,
            show r.shared.grammarKey = r.grammarKey from rfl]
          split
          · rfl
          · split
            · split
              · exact congrArg some (modifyReq_shared fun _ => rfl)
              · exact congrArg some (modifyReq_shared fun _ => rfl)
            · rfl

theorem returnFailed_shared (s : GrammarManager Q M) (i : Nat) :
    (s.returnFailed i).map shared = s.shared.returnFailed i := by
  rw [returnFailed, returnFailed, show s.shared.grammarQueue = s.grammarQueue from rfl]
  cases s.grammarQueue[i]? with
  | none => rfl
  | some id =>
      simp only [Option.bind_eq_bind, Option.bind_some, shared_getElem?]
      cases s.reqs[id]? with
      | none => rfl
      | some r =>
          simp only [Option.map_some, Option.bind_some]
          rw [show r.shared.grammar = r.grammar from rfl,
            show r.shared.grammarKey = r.grammarKey from rfl]
          split
          · exact congrArg some (modifyReq_shared fun _ => rfl)
          · rfl

end GrammarManager

end SpecDecode.Constrained
