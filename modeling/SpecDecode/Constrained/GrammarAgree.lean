import SpecDecode.Constrained.GrammarSync
import SpecDecode.Lib.Ranges
import Mathlib.Data.List.Perm.Subperm

/-!
# The ranks agree

The ranks differ in their counters only, and the step after the exchange does not read them. A
request in the queue waits for a future or has been aborted (`Tidy`), so no assertion fails, and a
round moves the requests that it returns out of the queue.
-/

namespace SpecDecode.Constrained

open Ranges

namespace GrammarManager

variable {Q M : Type} {b : Backend Q M} {maxPollIterations : Nat} {s s' : GrammarManager Q M}

private theorem foldlM_shared {f : GrammarManager Q M → Nat → Option (GrammarManager Q M)}
    (hf : ∀ s i, (f s i).map shared = f s.shared i) (is : List Nat) (s : GrammarManager Q M) :
    (is.foldlM f s).map shared = is.foldlM f s.shared := by
  induction is generalizing s with
  | nil => rfl
  | cons i is ih =>
      rw [List.foldlM_cons, List.foldlM_cons, ← hf]
      cases f s i with
      | none => rfl
      | some s₁ => exact ih s₁

theorem getReadyGrammarRequests_shared (s : GrammarManager Q M) (ready failed : List Nat) :
    (s.getReadyGrammarRequests b ready failed).map (fun p => (p.1.shared, p.2)) =
      s.shared.getReadyGrammarRequests b ready failed := by
  rw [getReadyGrammarRequests, getReadyGrammarRequests, ← foldlM_shared returnReady_shared]
  cases ready.foldlM (returnReady b) s with
  | none => rfl
  | some s₁ =>
      simp only [Option.bind_eq_bind, Option.bind_some, Option.map_some]
      rw [← foldlM_shared returnFailed_shared]
      cases failed.foldlM returnFailed s₁ with
      | none => rfl
      | some s₂ => rfl

def Waiting (r : Req) : Prop :=
  r.finished = false ∧ (r.grammar = .none ∨
    ∃ key requireReasoning grammarKey, r.grammar = .future key requireReasoning ∧
      r.grammarKey = some grammarKey)

structure Tidy (s : GrammarManager Q M) : Prop where
  nodup : s.grammarQueue.Nodup
  waiting : ∀ id ∈ s.grammarQueue, ∃ r, s.reqs[id]? = some r ∧ Waiting r

theorem Tidy.of_shared (h : Tidy s) (heq : s'.shared = s.shared) : Tidy s' := by
  have hqueue : s'.grammarQueue = s.grammarQueue := by
    change s'.shared.grammarQueue = s.shared.grammarQueue
    rw [heq]
  refine ⟨hqueue ▸ h.nodup, fun id hid => ?_⟩
  obtain ⟨r, hr, hwaiting⟩ := h.waiting id (hqueue ▸ hid)
  have hsame := congrArg (·.reqs[id]?) heq
  simp only [shared_getElem?, hr, Option.map_some] at hsame
  obtain ⟨r', hr', hshared⟩ := Option.map_eq_some_iff.mp hsame
  refine ⟨r', hr', ?_⟩
  have hwaiting' : Waiting r.shared := hwaiting
  rw [← hshared] at hwaiting'
  exact hwaiting'

variable {i id : Nat} {r : Req} {ready : List Nat}

theorem Tidy.getElem?_queue (h : Tidy s) (hi : i < s.grammarQueue.length) :
    ∃ id r, s.grammarQueue[i]? = some id ∧ s.reqs[id]? = some r ∧ Waiting r := by
  obtain ⟨r, hr, hwaiting⟩ := h.waiting _ (List.getElem_mem hi)
  exact ⟨_, r, List.getElem?_eq_getElem hi, hr, hwaiting⟩

theorem lt_length_reqs (h : Tidy s) (hid : id ∈ s.grammarQueue) : id < s.reqs.length := by
  obtain ⟨r, hr, -⟩ := h.waiting id hid
  exact (List.getElem?_eq_some_iff.mp hr).1

private theorem pollOne_waiting {done : Nat → Bool}
    (hid : s.grammarQueue[i]? = some id) (hr : s.reqs[id]? = some r) (hwaiting : Waiting r) :
    s.pollOne done i = some (r.grammar = .none || done id) := by
  simp only [pollOne, hid, hr, Option.bind_eq_bind, Option.bind_some, hwaiting.1, Bool.false_or]
  rcases hwaiting.2 with hnone | ⟨key, requireReasoning, grammarKey, hfuture, -⟩
  · simp [hnone]
  · simp [hfuture]

theorem Tidy.pollReady (h : Tidy s) (done : Nat → Bool) :
    ∃ ready, s.pollReady done = some ready ∧ ∀ i, i ∈ ready ↔ ∃ id r,
      s.grammarQueue[i]? = some id ∧ s.reqs[id]? = some r ∧
      (r.grammar = .none ∨ done id = true) := by
  have hall : ∀ i ∈ List.range s.grammarQueue.length, (s.pollOne done i).isSome := by
    intro i hi
    obtain ⟨id, r, hid, hr, hwaiting⟩ := h.getElem?_queue (List.mem_range.mp hi)
    rw [pollOne_waiting hid hr hwaiting]
    rfl
  refine ⟨_, if_pos hall, fun i => ?_⟩
  rw [List.mem_filter, List.mem_range, decide_eq_true_iff]
  constructor
  · rintro ⟨hi, hpoll⟩
    obtain ⟨id, r, hid, hr, hwaiting⟩ := h.getElem?_queue hi
    rw [pollOne_waiting hid hr hwaiting] at hpoll
    exact ⟨id, r, hid, hr, by simpa using hpoll⟩
  · rintro ⟨id, r, hid, hr, hready⟩
    have hi := (List.getElem?_eq_some_iff.mp hid).1
    obtain ⟨id', r', hid', hr', hwaiting⟩ := h.getElem?_queue hi
    obtain rfl := Option.some.inj (hid.symm.trans hid')
    obtain rfl := Option.some.inj (hr.symm.trans hr')
    refine ⟨hi, ?_⟩
    rw [pollOne_waiting hid hr hwaiting]
    simpa using hready

def waitCt (s : GrammarManager Q M) (id : Nat) : Nat := (s.reqs[id]?.map Req.grammarWaitCt).getD 0

structure Counted (maxPollIterations : Nat) (ready is : List Nat) (s : GrammarManager Q M)
    (acc : GrammarManager Q M × List Nat) : Prop where
  shared : acc.1.shared = s.shared
  mono : ∀ id, s.waitCt id ≤ acc.1.waitCt id
  waited : ∀ i ∈ is, i ∉ ready → ∀ id r, s.grammarQueue[i]? = some id → s.reqs[id]? = some r →
    s.waitCt id < acc.1.waitCt id
  timedOut : ∀ i ∈ is, i ∉ ready → ∀ id r, s.grammarQueue[i]? = some id → s.reqs[id]? = some r →
    maxPollIterations ≤ s.waitCt id + 1 → i ∈ acc.2
  mem : ∀ i ∈ acc.2, i ∈ is ∧ i ∉ ready

def tick (s : GrammarManager Q M) (id : Nat) : GrammarManager Q M :=
  s.modifyReq id fun r => { r with grammarWaitCt := r.grammarWaitCt + 1 }

@[simp]
theorem tick_shared (s : GrammarManager Q M) (id : Nat) : (s.tick id).shared = s.shared := by
  have hsame : (s.tick id).shared = s.shared.modifyReq id fun r => r :=
    modifyReq_shared fun _ => rfl
  rw [hsame]
  exact congrArg (fun reqs => { s.shared with reqs := reqs }) (List.modify_id id _)

theorem tick_getElem?_self (hr : s.reqs[id]? = some r) :
    (s.tick id).reqs[id]? = some { r with grammarWaitCt := r.grammarWaitCt + 1 } := by
  rw [tick, modifyReq, List.getElem?_modify_eq, hr]
  rfl

theorem waitCt_of_some (hr : s.reqs[id]? = some r) : s.waitCt id = r.grammarWaitCt := by
  rw [waitCt, hr]
  rfl

theorem waitCt_tick_self (hr : s.reqs[id]? = some r) : (s.tick id).waitCt id = s.waitCt id + 1 := by
  rw [waitCt_of_some (tick_getElem?_self hr), waitCt_of_some hr]

theorem waitCt_le_tick (s : GrammarManager Q M) (id id' : Nat) :
    s.waitCt id' ≤ (s.tick id).waitCt id' := by
  by_cases hid : id = id'
  · subst hid
    cases hr : s.reqs[id]? with
    | none =>
        rw [waitCt, hr]
        exact Nat.zero_le _
    | some r => exact waitCt_tick_self hr ▸ Nat.le_succ _
  · have hother : (s.tick id).reqs[id']? = s.reqs[id']? := List.getElem?_modify_ne _ _ hid
    rw [waitCt, waitCt, hother]

private theorem countWait_of_notMem {acc : GrammarManager Q M × List Nat}
    (hi : i ∉ ready) (hid : acc.1.grammarQueue[i]? = some id)
    (hr : acc.1.reqs[id]? = some r) : countWait maxPollIterations ready acc i =
      (acc.1.tick id,
        if maxPollIterations ≤ r.grammarWaitCt + 1 then acc.2 ++ [i] else acc.2) := by
  have htick := tick_getElem?_self hr
  rw [tick] at htick
  simp only [countWait, if_neg hi, hid, htick]
  rfl

theorem countWait_counted (h : Tidy s) {is : List Nat} {acc : GrammarManager Q M × List Nat}
    (hacc : Counted maxPollIterations ready is s acc) (hi : i < s.grammarQueue.length) :
    Counted maxPollIterations ready (is ++ [i]) s (countWait maxPollIterations ready acc i) := by
  by_cases hready : i ∈ ready
  · have hsame : countWait maxPollIterations ready acc i = acc := if_pos hready
    rw [hsame]
    have hin : ∀ j ∈ is ++ [i], j ∉ ready → j ∈ is := fun j hj hnot => by
      rcases List.mem_append.mp hj with hj | hj
      · exact hj
      · exact absurd (List.mem_singleton.mp hj ▸ hready) hnot
    exact ⟨hacc.shared, hacc.mono, fun j hj hnot => hacc.waited j (hin j hj hnot) hnot,
      fun j hj hnot => hacc.timedOut j (hin j hj hnot) hnot,
      fun j hj => ⟨List.mem_append_left _ (hacc.mem j hj).1, (hacc.mem j hj).2⟩⟩
  · have htidy := h.of_shared hacc.shared
    have hqueue : acc.1.grammarQueue = s.grammarQueue := by
      change acc.1.shared.grammarQueue = s.shared.grammarQueue
      rw [hacc.shared]
    obtain ⟨id, r, hid, hr, -⟩ := htidy.getElem?_queue (hqueue ▸ hi)
    have hmono : ∀ id', s.waitCt id' ≤ (acc.1.tick id).waitCt id' := fun id' =>
      Nat.le_trans (hacc.mono id') (waitCt_le_tick _ id id')
    have hself := waitCt_tick_self hr
    rw [countWait_of_notMem hready hid hr]
    refine ⟨(tick_shared _ id).trans hacc.shared, hmono, fun j hj hnot id' r' hid' hr' => ?_,
      fun j hj hnot id' r' hid' hr' hmax => ?_, fun j hj => ?_⟩
    · rcases List.mem_append.mp hj with hj | hj
      · exact Nat.lt_of_lt_of_le (hacc.waited j hj hnot id' r' hid' hr') (waitCt_le_tick _ id id')
      · obtain rfl := List.mem_singleton.mp hj
        obtain rfl : id = id' := Option.some.inj (hid.symm.trans (hqueue ▸ hid'))
        have := hacc.mono id
        dsimp only
        omega
    · rcases List.mem_append.mp hj with hj | hj
      · have := hacc.timedOut j hj hnot id' r' hid' hr' hmax
        dsimp only
        split
        · exact List.mem_append_left _ this
        · exact this
      · obtain rfl := List.mem_singleton.mp hj
        obtain rfl : id = id' := Option.some.inj (hid.symm.trans (hqueue ▸ hid'))
        have hle := hacc.mono id
        rw [waitCt_of_some hr] at hle
        dsimp only
        rw [if_pos (by omega)]
        exact List.mem_append_right _ List.mem_cons_self
    · dsimp only at hj
      have hcases : j ∈ acc.2 ∨ j = i := by
        split at hj
        · simpa using hj
        · exact .inl hj
      rcases hcases with hj | rfl
      · exact ⟨List.mem_append_left _ (hacc.mem j hj).1, (hacc.mem j hj).2⟩
      · exact ⟨List.mem_append_right _ List.mem_cons_self, hready⟩

theorem pollFailed_counted (h : Tidy s) (maxPollIterations : Nat) (ready : List Nat) :
    Counted maxPollIterations ready (List.range s.grammarQueue.length) s
      (s.pollFailed maxPollIterations ready) := by
  have hfold : ∀ is : List Nat, (∀ i ∈ is, i < s.grammarQueue.length) →
      Counted maxPollIterations ready is s
        (is.foldl (countWait maxPollIterations ready) (s, [])) := by
    intro is
    induction is using List.reverseRecOn with
    | nil => exact fun _ => ⟨rfl, fun _ => Nat.le_refl _, nofun, nofun, nofun⟩
    | append_singleton is i ih =>
        intro hall
        rw [List.foldl_concat]
        exact countWait_counted h (ih fun j hj => hall j (List.mem_append_left _ hj))
          (hall i (List.mem_append_right _ List.mem_cons_self))
  exact hfold _ fun i hi => List.mem_range.mp hi

structure Returned (ids : List Nat) (s s' : GrammarManager Q M) : Prop where
  queue : s'.grammarQueue = s.grammarQueue
  length : s'.reqs.length = s.reqs.length
  others : ∀ id, id ∉ ids → s'.reqs[id]? = s.reqs[id]?

theorem Returned.refl (s : GrammarManager Q M) : Returned [] s s := ⟨rfl, rfl, fun _ _ => rfl⟩

theorem returned_modifyReq (s : GrammarManager Q M) (heap : Heap Q M)
    (cache : GrammarKey → Option Nat) (id : Nat) (f : Req → Req) :
    Returned [id] s ⟨heap, cache, s.reqs.modify id f, s.grammarQueue⟩ where
  queue := rfl
  length := List.length_modify _ _ _
  others _ hid' := List.getElem?_modify_ne _ _ fun heq => hid' (List.mem_singleton.mpr heq.symm)

theorem returnReady_waiting (hid : s.grammarQueue[i]? = some id)
    (hr : s.reqs[id]? = some r) (hwaiting : Waiting r) :
    ∃ s', s.returnReady b i = some s' ∧ Returned [id] s s' := by
  simp only [returnReady, hid, hr, Option.bind_eq_bind, Option.bind_some, hwaiting.1,
    Bool.false_or]
  rcases hwaiting.2 with hnone | ⟨key, requireReasoning, grammarKey, hfuture, hkey⟩
  · simp only [hnone, decide_true, if_true]
    exact ⟨s, rfl, rfl, rfl, fun _ _ => rfl⟩
  · simp only [hfuture, hkey, reduceCtorEq, decide_false, Bool.false_eq_true, if_false]
    split
    · exact ⟨_, rfl, returned_modifyReq s _ _ id _⟩
    · exact ⟨_, rfl, returned_modifyReq s _ _ id _⟩

theorem returnFailed_future (hid : s.grammarQueue[i]? = some id)
    (hr : s.reqs[id]? = some r) (hwaiting : Waiting r) (hfuture : r.grammar ≠ .none) :
    ∃ s', s.returnFailed i = some s' ∧ Returned [id] s s' := by
  obtain ⟨key, requireReasoning, grammarKey, hgrammar, hkey⟩ := hwaiting.2.resolve_left hfuture
  simp only [returnFailed, hid, hr, Option.bind_eq_bind, Option.bind_some, hgrammar, hkey]
  exact ⟨_, rfl, returned_modifyReq s _ _ id _⟩

/-- A loop over distinct indices of the queue returns their requests. -/
theorem foldlM_returned {f : GrammarManager Q M → Nat → Option (GrammarManager Q M)}
    {P : Req → Prop} (hf : ∀ (s : GrammarManager Q M) (i id : Nat) (r : Req),
      s.grammarQueue[i]? = some id → s.reqs[id]? = some r → P r →
        ∃ s', f s i = some s' ∧ Returned [id] s s')
    {is : List Nat} (his : is.Nodup) (hnodup : s.grammarQueue.Nodup)
    (hall : ∀ i ∈ is, ∃ id r, s.grammarQueue[i]? = some id ∧ s.reqs[id]? = some r ∧ P r) :
    ∃ s', is.foldlM f s = some s' ∧ Returned (is.filterMap (s.grammarQueue[·]?)) s s' := by
  induction is generalizing s with
  | nil => exact ⟨s, rfl, .refl s⟩
  | cons i is ih =>
      obtain ⟨id, r, hid, hr, hP⟩ := hall i List.mem_cons_self
      obtain ⟨s₁, hs₁, hreturned₁⟩ := hf s i id r hid hr hP
      rw [List.nodup_cons] at his
      obtain ⟨s', hs', hreturned⟩ := ih (s := s₁) his.2 (hreturned₁.queue ▸ hnodup) fun j hj => by
        obtain ⟨id', r', hid', hr', hP'⟩ := hall j (List.mem_cons_of_mem _ hj)
        refine ⟨id', r', hreturned₁.queue ▸ hid', ?_, hP'⟩
        rw [hreturned₁.others id', hr']
        rw [List.mem_singleton]
        rintro rfl
        have hlt := (List.getElem?_eq_some_iff.mp hid).1
        have heq := (List.getElem?_inj hlt hnodup).mp (hid.trans hid'.symm)
        exact his.1 (heq ▸ hj)
      refine ⟨s', ?_, hreturned.queue.trans hreturned₁.queue,
        hreturned.length.trans hreturned₁.length, fun id' hnot => ?_⟩
      · rw [List.foldlM_cons, hs₁]
        exact hs'
      · rw [List.filterMap_cons, hid] at hnot
        rw [List.mem_cons, not_or] at hnot
        rw [hreturned.others id' (hreturned₁.queue ▸ hnot.2),
          hreturned₁.others id' (fun hmem => hnot.1 (List.mem_singleton.mp hmem))]

/-- What a round returns, together with what it leaves in the queue, was in the queue. -/
theorem returned_perm {queue failed : List Nat} (hready : ready.Nodup)
    (hfailed : failed.Nodup) (hdisjoint : ∀ i ∈ ready, i ∉ failed)
    (hlt : ∀ i ∈ ready ++ failed, i < queue.length) :
    ((ready ++ failed).filterMap (queue[·]?) ++
      ((List.range queue.length).filter fun i => i ∉ ready ∧ i ∉ failed).filterMap
        (queue[·]?)).Perm queue := by
  have hnodup : (ready ++ failed).Nodup :=
    List.nodup_append.mpr ⟨hready, hfailed, fun i hi j hj heq => hdisjoint i hi (heq ▸ hj)⟩
  have hall : ((ready ++ failed) ++
      (List.range queue.length).filter fun i => i ∉ ready ∧ i ∉ failed).Perm
        (List.range queue.length) := by
    refine (List.perm_ext_iff_of_nodup ?_ List.nodup_range).mpr fun i => ?_
    · refine List.nodup_append.mpr ⟨hnodup, List.nodup_range.filter _, fun i hi j hj heq => ?_⟩
      have hout := (List.mem_filter.mp hj).2
      rw [decide_eq_true_iff, ← not_or, ← List.mem_append] at hout
      exact hout (heq ▸ hi)
    · rw [List.mem_append, List.mem_filter, List.mem_range, decide_eq_true_iff, ← not_or,
        ← List.mem_append]
      constructor
      · rintro (hi | hi)
        · exact hlt i hi
        · exact hi.1
      · intro hi
        by_cases hmem : i ∈ ready ++ failed
        · exact .inl hmem
        · exact .inr ⟨hi, hmem⟩
  have hperm := hall.filterMap (queue[·]?)
  rwa [List.filterMap_append, filterMap_range_getElem?] at hperm

theorem Tidy.getReady (h : Tidy s) {failed : List Nat} (hready : ready.Nodup)
    (hfailed : failed.Nodup) (hdisjoint : ∀ i ∈ ready, i ∉ failed)
    (hlt : ∀ i ∈ ready ++ failed, i < s.grammarQueue.length)
    (hfuture : ∀ i ∈ failed, ∀ id r, s.grammarQueue[i]? = some id → s.reqs[id]? = some r →
      r.grammar ≠ .none) :
    ∃ s' returned, s.getReadyGrammarRequests b ready failed = some (s', returned) ∧
      (returned ++ s'.grammarQueue).Perm s.grammarQueue ∧
      s'.grammarQueue.Sublist s.grammarQueue ∧ s'.reqs.length = s.reqs.length ∧
      (∀ id ∈ s'.grammarQueue, s'.reqs[id]? = s.reqs[id]?) ∧
      ∀ i ∈ ready ++ failed, ∀ id, s.grammarQueue[i]? = some id → id ∉ s'.grammarQueue := by
  obtain ⟨s₁, hs₁, hreturned₁⟩ := foldlM_returned (f := returnReady b)
    (fun s i id r => returnReady_waiting) hready h.nodup fun i hi =>
      h.getElem?_queue (hlt i (List.mem_append_left _ hi))
  have hsame : ∀ i ∈ failed, ∃ id r, s₁.grammarQueue[i]? = some id ∧ s₁.reqs[id]? = some r ∧
      Waiting r ∧ r.grammar ≠ .none := by
    intro i hi
    obtain ⟨id, r, hid, hr, hwaiting⟩ := h.getElem?_queue (hlt i (List.mem_append_right _ hi))
    refine ⟨id, r, hreturned₁.queue ▸ hid, ?_, hwaiting, hfuture i hi id r hid hr⟩
    rw [hreturned₁.others id, hr]
    intro hmem
    obtain ⟨j, hj, hid'⟩ := List.mem_filterMap.mp hmem
    have hlt' := (List.getElem?_eq_some_iff.mp hid').1
    have heq := (List.getElem?_inj hlt' h.nodup).mp (hid'.trans hid.symm)
    exact hdisjoint j hj (heq ▸ hi)
  obtain ⟨s₂, hs₂, hreturned₂⟩ := foldlM_returned (f := returnFailed)
    (P := fun r => Waiting r ∧ r.grammar ≠ .none)
    (fun s i id r hid hr hP => returnFailed_future hid hr hP.1 hP.2) hfailed
    (hreturned₁.queue ▸ h.nodup) hsame
  have hqueue : s₂.grammarQueue = s.grammarQueue := hreturned₂.queue.trans hreturned₁.queue
  have hperm := returned_perm hready hfailed hdisjoint hlt
  have hnodup := hperm.nodup_iff.mpr h.nodup
  refine ⟨{ s₂ with grammarQueue := ((List.range s.grammarQueue.length).filter fun i =>
    i ∉ ready ∧ i ∉ failed).filterMap (s.grammarQueue[·]?) },
    (ready ++ failed).filterMap (s.grammarQueue[·]?), ?_, hperm, ?_,
    hreturned₂.length.trans hreturned₁.length, fun id hid => ?_, fun i hi id hid hmem => ?_⟩
  · simp only [getReadyGrammarRequests, hs₁, Option.bind_eq_bind, Option.bind_some, hs₂, hqueue]
  · have hsub := (List.filter_sublist (l := List.range s.grammarQueue.length)
      (p := fun i => i ∉ ready ∧ i ∉ failed)).filterMap (s.grammarQueue[·]?)
    rwa [filterMap_range_getElem?] at hsub
  · have hout : id ∉ (ready ++ failed).filterMap (s.grammarQueue[·]?) := fun hmem =>
      (List.nodup_append.mp hnodup).2.2 id hmem id hid rfl
    rw [List.filterMap_append, List.mem_append, not_or] at hout
    dsimp only
    rw [hreturned₂.others id (hreturned₁.queue ▸ hout.2), hreturned₁.others id hout.1]
  · have hreturned := List.mem_filterMap.mpr ⟨i, hi, hid⟩
    exact (List.nodup_append.mp hnodup).2.2 id hreturned id hmem rfl

theorem processReqWithGrammar_adds (hfinished : r.finished = false)
    (hstep : s.processReqWithGrammar b r = some s') : ∃ r', s'.reqs = s.reqs ++ [r'] ∧
      (s'.grammarQueue = s.grammarQueue ∨
        s'.grammarQueue = s.grammarQueue ++ [s.reqs.length] ∧ Waiting r') := by
  rw [processReqWithGrammar] at hstep
  split at hstep
  · next key _ =>
      rw [← Option.some.inj hstep]
      rcases getCachedOrFutureValue_cases s key r.requireReasoning with
        ⟨heq, -⟩ | ⟨heap, a, heq, -⟩
      · rw [processKey, heq]
        exact ⟨_, rfl, .inr ⟨rfl, hfinished, .inr ⟨key, _, key, rfl, rfl⟩⟩⟩
      · rw [processKey, heq]
        dsimp only
        split
        · exact ⟨_, rfl, .inl rfl⟩
        · exact ⟨_, rfl, .inl rfl⟩
  · cases hstep
  · split at hstep
    · rw [← Option.some.inj hstep]
      exact ⟨_, rfl, .inl rfl⟩
    · rw [← Option.some.inj hstep]
      exact ⟨_, rfl, .inl rfl⟩

theorem Tidy.processReqWithGrammar (h : Tidy s) (hfinished : r.finished = false)
    (hstep : s.processReqWithGrammar b r = some s') : Tidy s' := by
  obtain ⟨r', hreqs, hqueue⟩ := processReqWithGrammar_adds hfinished hstep
  have hold : ∀ id ∈ s.grammarQueue, ∃ r, s'.reqs[id]? = some r ∧ Waiting r := fun id hid => by
    obtain ⟨r, hr, hwaiting⟩ := h.waiting id hid
    exact ⟨r, by rw [hreqs, List.getElem?_append_left (lt_length_reqs h hid), hr], hwaiting⟩
  rcases hqueue with hqueue | ⟨hqueue, hwaiting⟩
  · exact ⟨hqueue ▸ h.nodup, hqueue ▸ hold⟩
  · refine ⟨?_, fun id hid => ?_⟩
    · rw [hqueue]
      refine List.nodup_append.mpr ⟨h.nodup, List.nodup_singleton _, fun id hid id' hid' heq => ?_⟩
      have := lt_length_reqs h hid
      rw [List.mem_singleton] at hid'
      omega
    · rw [hqueue] at hid
      rcases List.mem_append.mp hid with hid | hid
      · exact hold id hid
      · obtain rfl := List.mem_singleton.mp hid
        exact ⟨r', by rw [hreqs, List.getElem?_concat_length], hwaiting⟩

def KeepsWaiting (r r' : Req) : Prop :=
  r'.grammarWaitCt = r.grammarWaitCt ∧ (r.grammar = .none → r'.grammar = .none) ∧
    (Waiting r → Waiting r')

theorem abort_keepsWaiting (abortAll : Bool) (rid : String) (r : Req) :
    KeepsWaiting r (if abortAll || rid.toList.isPrefixOf r.rid.toList then
      r.setFinishWithAbort "Aborted by AbortReq." else r) := by
  split
  · exact ⟨rfl, fun _ => rfl, fun hwaiting => ⟨hwaiting.1, .inl rfl⟩⟩
  · exact ⟨rfl, id, id⟩

theorem KeepsWaiting.trans {r' r'' : Req} (h : KeepsWaiting r r') (h' : KeepsWaiting r' r'') :
    KeepsWaiting r r'' := ⟨h'.1.trans h.1, h'.2.1 ∘ h.2.1, h'.2.2 ∘ h.2.2⟩

theorem foldl_modifyReq {f : Req → Req} (hf : ∀ r, KeepsWaiting r (f r)) (ids : List Nat)
    (s : GrammarManager Q M) :
    (ids.foldl (fun s id => s.modifyReq id f) s).grammarQueue = s.grammarQueue ∧
      (ids.foldl (fun s id => s.modifyReq id f) s).reqs.length = s.reqs.length ∧
      ∀ (id : Nat) (r : Req), s.reqs[id]? = some r → ∃ r',
        (ids.foldl (fun s id => s.modifyReq id f) s).reqs[id]? = some r' ∧ KeepsWaiting r r' := by
  induction ids generalizing s with
  | nil => exact ⟨rfl, rfl, fun id r hr => ⟨r, hr, rfl, fun h => h, fun h => h⟩⟩
  | cons id ids ih =>
      obtain ⟨hqueue, hlength, hreqs⟩ := ih (s.modifyReq id f)
      refine ⟨hqueue, hlength.trans (List.length_modify _ _ _), fun id' r hr => ?_⟩
      have hone : ∃ r', (s.modifyReq id f).reqs[id']? = some r' ∧ KeepsWaiting r r' := by
        rw [modifyReq, List.getElem?_modify, hr]
        by_cases hid : id = id'
        · exact ⟨f r, by simp [hid], hf r⟩
        · exact ⟨r, by simp [hid], rfl, fun h => h, fun h => h⟩
      obtain ⟨r₁, hr₁, hkeeps₁⟩ := hone
      obtain ⟨r', hr', hkeeps⟩ := hreqs id' r₁ hr₁
      exact ⟨r', hr', hkeeps₁.trans hkeeps⟩

theorem Tidy.abortRequests (h : Tidy s) (abortAll : Bool) (rid : String) :
    Tidy (s.abortRequests abortAll rid) := by
  obtain ⟨hqueue, -, hreqs⟩ := foldl_modifyReq (abort_keepsWaiting abortAll rid) s.grammarQueue s
  refine ⟨hqueue ▸ h.nodup, fun id hid => ?_⟩
  obtain ⟨r, hr, hwaiting⟩ := h.waiting id (hqueue ▸ hid)
  obtain ⟨r', hr', hkeeps⟩ := hreqs id r hr
  exact ⟨r', hr', hkeeps.2.2 hwaiting⟩

theorem tidy_init : Tidy (init : GrammarManager Q M) := ⟨List.nodup_nil, nofun⟩

/-- What the poll of a rank finds, with the requests that are not ready counted. -/
theorem Tidy.poll (h : Tidy s) (maxPollIterations : Nat) (done : Nat → Bool) :
    ∃ s' ready failed, s.poll maxPollIterations done = some (s', ready, failed) ∧
      Counted maxPollIterations ready (List.range s.grammarQueue.length) s (s', failed) ∧
      ∀ i, i ∈ ready ↔ ∃ id r, s.grammarQueue[i]? = some id ∧ s.reqs[id]? = some r ∧
        (r.grammar = .none ∨ done id = true) := by
  obtain ⟨ready, hpoll, hready⟩ := h.pollReady done
  refine ⟨(s.pollFailed maxPollIterations ready).1, ready, (s.pollFailed maxPollIterations ready).2,
    ?_, pollFailed_counted h maxPollIterations ready, hready⟩
  rw [GrammarManager.poll, hpoll, Option.map_some]

end GrammarManager

end SpecDecode.Constrained
