import SpecDecode.Constrained.GrammarAgree

/-!
# Runs of the ranks

A request that is in the queue is returned once, by all ranks in the same round: as ready when the
last rank has seen its future done, or as failed when some rank has waited for too long.
-/

namespace SpecDecode.Constrained

open GrammarManager

namespace GrammarSync

variable {Q M : Type} {b : Backend Q M} {maxPollIterations n : Nat} {W W' : Fin n → Rank Q M}

/-- The ranks differ in their counters only, and every request comes back at most once. -/
structure Inv (W : Fin n → Rank Q M) : Prop where
  shared : ∀ r r', (W r).manager.shared = (W r').manager.shared
  returned : ∀ r r', (W r).returned = (W r').returned
  tidy : ∀ r, (W r).manager.Tidy
  once : ∀ r, ((W r).returned.flatten ++ (W r).manager.grammarQueue).Nodup
  bound : ∀ r, ∀ id ∈ (W r).returned.flatten, id < (W r).manager.reqs.length

theorem inv_init : Inv (init : Fin n → Rank Q M) :=
  ⟨fun _ _ => rfl, fun _ _ => rfl, fun _ => tidy_init, fun _ => List.nodup_nil,
    fun _ _ h => by cases h⟩

theorem poll_facts {s : GrammarManager Q M} (h : Tidy s) {done : Nat → Bool}
    {p : GrammarManager Q M × List Nat × List Nat}
    (hpoll : s.poll maxPollIterations done = some p) :
    Counted maxPollIterations p.2.1 (List.range s.grammarQueue.length) s (p.1, p.2.2) ∧
      ∀ i, i ∈ p.2.1 ↔ ∃ id q, s.grammarQueue[i]? = some id ∧ s.reqs[id]? = some q ∧
        (q.grammar = .none ∨ done id = true) := by
  obtain ⟨s', ready, failed, hpoll', hcounted, hready⟩ := h.poll maxPollIterations done
  obtain rfl := Option.some.inj (hpoll'.symm.trans hpoll)
  exact ⟨hcounted, hready⟩

theorem queue_of_shared {s s' : GrammarManager Q M} (h : s.shared = s'.shared) :
    s.grammarQueue = s'.grammarQueue := by
  change s.shared.grammarQueue = s'.shared.grammarQueue
  rw [h]

theorem length_of_shared {s s' : GrammarManager Q M} (h : s.shared = s'.shared) :
    s.reqs.length = s'.reqs.length := by
  have hlen := congrArg (·.reqs.length) h
  simpa [GrammarManager.shared] using hlen

theorem grammar_of_shared {s s' : GrammarManager Q M} (h : s.shared = s'.shared)
    {id : Nat} {q : Req}
    (hq : s.reqs[id]? = some q) : ∃ q', s'.reqs[id]? = some q' ∧ q'.grammar = q.grammar := by
  have hsame := congrArg (·.reqs[id]?) h
  simp only [shared_getElem?, hq, Option.map_some] at hsame
  obtain ⟨q', hq', hshared⟩ := Option.map_eq_some_iff.mp hsame.symm
  refine ⟨q', hq', ?_⟩
  change q'.shared.grammar = q.shared.grammar
  rw [hshared]

section Round

variable {done : Fin n → Nat → Bool} {polled : Fin n → GrammarManager Q M × List Nat × List Nat}
  {ready failed : List Nat}

theorem Inv.disjoint (h : Inv W)
    (hpoll : ∀ r, (W r).manager.poll maxPollIterations (done r) = some (polled r))
    (synced : Synced (fun r => (polled r).2.1) (fun r => (polled r).2.2) ready failed) :
    ∀ i ∈ ready, i ∉ failed := by
  intro i hi hi'
  obtain ⟨r, hr⟩ := (synced.mem_failed i).mp hi'
  exact ((poll_facts (h.tidy r) (hpoll r)).1.mem i hr).2 ((synced.mem_ready i).mp hi r)

theorem Inv.lt_length (h : Inv W)
    (hpoll : ∀ r, (W r).manager.poll maxPollIterations (done r) = some (polled r))
    (synced : Synced (fun r => (polled r).2.1) (fun r => (polled r).2.2) ready failed)
    (r : Fin n) : ∀ i ∈ ready ++ failed, i < (W r).manager.grammarQueue.length := by
  intro i hi
  rcases List.mem_append.mp hi with hi | hi
  · obtain ⟨id, q, hid, -⟩ :=
      ((poll_facts (h.tidy r) (hpoll r)).2 i).mp ((synced.mem_ready i).mp hi r)
    exact (List.getElem?_eq_some_iff.mp hid).1
  · obtain ⟨r', hr'⟩ := (synced.mem_failed i).mp hi
    have hlt := List.mem_range.mp ((poll_facts (h.tidy r') (hpoll r')).1.mem i hr').1
    rwa [queue_of_shared (h.shared r' r)] at hlt

/-- A request that has failed on some rank waits for a future on all of them. -/
theorem Inv.future (h : Inv W)
    (hpoll : ∀ r, (W r).manager.poll maxPollIterations (done r) = some (polled r))
    (synced : Synced (fun r => (polled r).2.1) (fun r => (polled r).2.2) ready failed)
    (r : Fin n) {i id : Nat} {q : Req} (hi : i ∈ failed)
    (hid : (polled r).1.grammarQueue[i]? = some id) (hq : (polled r).1.reqs[id]? = some q) :
    q.grammar ≠ .none := by
  intro hnone
  obtain ⟨r', hr'⟩ := (synced.mem_failed i).mp hi
  obtain ⟨hcounted, -⟩ := poll_facts (h.tidy r) (hpoll r)
  obtain ⟨hcounted', hready'⟩ := poll_facts (h.tidy r') (hpoll r')
  have hshared : (polled r).1.shared = (W r').manager.shared :=
    hcounted.shared.trans (h.shared r r')
  obtain ⟨q', hq', hgrammar⟩ := grammar_of_shared hshared hq
  rw [queue_of_shared hshared] at hid
  refine (hcounted'.mem i hr').2 ((hready' i).mpr ⟨id, q', hid, hq', .inl ?_⟩)
  rw [hgrammar, hnone]

theorem Inv.round_runs (h : Inv W) (b : Backend Q M)
    (hpoll : ∀ r, (W r).manager.poll maxPollIterations (done r) = some (polled r))
    (synced : Synced (fun r => (polled r).2.1) (fun r => (polled r).2.2) ready failed) (r : Fin n) :
    ∃ s' returned, (polled r).1.getReadyGrammarRequests b ready failed = some (s', returned) ∧
      (returned ++ s'.grammarQueue).Perm (W r).manager.grammarQueue ∧
      s'.grammarQueue.Sublist (W r).manager.grammarQueue ∧
      s'.reqs.length = (W r).manager.reqs.length ∧
      (∀ id ∈ s'.grammarQueue, s'.reqs[id]? = (polled r).1.reqs[id]?) ∧
      ∀ i ∈ ready ++ failed, ∀ id, (W r).manager.grammarQueue[i]? = some id →
        id ∉ s'.grammarQueue := by
  obtain ⟨hcounted, -⟩ := poll_facts (h.tidy r) (hpoll r)
  have hqueue := queue_of_shared hcounted.shared
  have htidy := (h.tidy r).of_shared hcounted.shared
  obtain ⟨s', returned, hrun, hperm, hsub, hlength, hsame, hgone⟩ := htidy.getReady (b := b)
    synced.readyNodup synced.failedNodup (h.disjoint hpoll synced)
    (hqueue ▸ h.lt_length hpoll synced r) fun i hi id q hid hq => h.future hpoll synced r hi hid hq
  exact ⟨s', returned, hrun, hqueue ▸ hperm, hqueue ▸ hsub,
    hlength.trans (length_of_shared hcounted.shared), hsame, hqueue ▸ hgone⟩

theorem Inv.round_facts (h : Inv W)
    (hpoll : ∀ r, (W r).manager.poll maxPollIterations (done r) = some (polled r))
    (synced : Synced (fun r => (polled r).2.1) (fun r => (polled r).2.2) ready failed)
    {r : Fin n} {p : GrammarManager Q M × List Nat}
    (hrun : (polled r).1.getReadyGrammarRequests b ready failed = some p) :
    (p.2 ++ p.1.grammarQueue).Perm (W r).manager.grammarQueue ∧
      p.1.grammarQueue.Sublist (W r).manager.grammarQueue ∧
      p.1.reqs.length = (W r).manager.reqs.length ∧
      (∀ id ∈ p.1.grammarQueue, p.1.reqs[id]? = (polled r).1.reqs[id]?) ∧
      ∀ i ∈ ready ++ failed, ∀ id, (W r).manager.grammarQueue[i]? = some id →
        id ∉ p.1.grammarQueue := by
  obtain ⟨s', ids, hrun', hfacts⟩ := h.round_runs b hpoll synced r
  have heq : (s', ids) = p := Option.some.inj (hrun'.symm.trans hrun)
  rw [← heq]
  exact hfacts

end Round

theorem Inv.step (h : Inv W) (hstep : Step b maxPollIterations W W') : Inv W' := by
  cases hstep with
  | process rid params requireReasoning managers processed =>
      have hshared : ∀ r, some (managers r).shared =
          (W r).manager.shared.processReqWithGrammar b (.new rid params requireReasoning) :=
            fun r => by
        rw [← processReqWithGrammar_shared _ rfl, processed r, Option.map_some]
      refine ⟨fun r r' => ?_, h.returned, fun r =>
        (h.tidy r).processReqWithGrammar rfl (processed r), fun r => ?_, fun r id hid => ?_⟩
      · exact Option.some.inj (by rw [hshared r, hshared r', h.shared r r'])
      · obtain ⟨q, hreqs, hqueue⟩ := processReqWithGrammar_adds rfl (processed r)
        rcases hqueue with hqueue | ⟨hqueue, -⟩
        · dsimp only
          rw [hqueue]
          exact h.once r
        · dsimp only
          rw [hqueue, ← List.append_assoc]
          refine List.nodup_append.mpr
            ⟨h.once r, List.nodup_singleton _, fun id hid id' hid' heq => ?_⟩
          rw [List.mem_singleton] at hid'
          have hlt : id < (W r).manager.reqs.length := by
            rcases List.mem_append.mp hid with hid | hid
            · exact h.bound r id hid
            · exact lt_length_reqs (h.tidy r) hid
          omega
      · obtain ⟨q, hreqs, -⟩ := processReqWithGrammar_adds rfl (processed r)
        dsimp only
        rw [hreqs, List.length_append]
        exact Nat.lt_add_right _ (h.bound r id hid)
  | abort abortAll rid =>
      have hspec := fun r => foldl_modifyReq (abort_keepsWaiting abortAll rid)
        (W r).manager.grammarQueue (W r).manager
      refine ⟨fun r r' => ?_, h.returned, fun r => (h.tidy r).abortRequests abortAll rid,
        fun r => ?_, fun r id hid => ?_⟩
      · dsimp only
        rw [abortRequests_shared, abortRequests_shared, h.shared r r']
      · exact (hspec r).1.symm ▸ h.once r
      · exact (hspec r).2.1.symm ▸ h.bound r id hid
  | round done hdone polled hpoll ready failed synced result returned =>
      have hshared : ∀ r, some ((result r).1.shared, (result r).2) =
          (W r).manager.shared.getReadyGrammarRequests b ready failed := fun r => by
        rw [← (poll_facts (h.tidy r) (hpoll r)).1.shared, ← getReadyGrammarRequests_shared,
          returned r, Option.map_some]
      have hsame : ∀ r r', ((result r).1.shared, (result r).2) =
          ((result r').1.shared, (result r').2) := fun r r' =>
        Option.some.inj (by rw [hshared r, hshared r', h.shared r r'])
      have hruns := fun r => h.round_facts hpoll synced (returned r)
      refine ⟨fun r r' => (Prod.mk.inj (hsame r r')).1, fun r r' => ?_, fun r => ?_, fun r => ?_,
        fun r id hid => ?_⟩
      · dsimp only
        rw [h.returned r r', (Prod.mk.inj (hsame r r')).2]
      · obtain ⟨-, hsub, -, hreqs, -⟩ := hruns r
        refine ⟨hsub.nodup (h.tidy r).nodup, fun id hid => ?_⟩
        have hpolled := (h.tidy r).of_shared (poll_facts (h.tidy r) (hpoll r)).1.shared
        obtain ⟨q, hq, hwaiting⟩ := hpolled.waiting id (by
          rw [queue_of_shared (poll_facts (h.tidy r) (hpoll r)).1.shared]
          exact hsub.subset hid)
        exact ⟨q, (hreqs id hid).trans hq, hwaiting⟩
      · dsimp only
        rw [List.flatten_append, List.append_assoc, List.flatten_singleton]
        exact ((hruns r).1.append_left _).nodup_iff.mpr (h.once r)
      · obtain ⟨hperm, -, hlength, -⟩ := hruns r
        dsimp only at hid ⊢
        rw [List.flatten_append, List.flatten_singleton] at hid
        rw [hlength]
        rcases List.mem_append.mp hid with hid | hid
        · exact h.bound r id hid
        · exact lt_length_reqs (h.tidy r) (hperm.subset (List.mem_append_left _ hid))

theorem reachable_inv (h : Reachable b maxPollIterations W) : Inv W := by
  have hrun : Relation.ReflTransGen (Step b maxPollIterations) init W := h
  clear h
  induction hrun with
  | refl => exact inv_init
  | tail _ hstep ih => exact ih.step hstep

theorem Inv.mem_step (h : Inv W) (hstep : Step b maxPollIterations W W') {r : Fin n} {id : Nat}
    (hid : id ∈ (W r).returned.flatten ++ (W r).manager.grammarQueue) :
    id ∈ (W' r).returned.flatten ++ (W' r).manager.grammarQueue := by
  cases hstep with
  | process rid params requireReasoning managers processed =>
      obtain ⟨q, -, hqueue⟩ := processReqWithGrammar_adds rfl (processed r)
      rcases hqueue with hqueue | ⟨hqueue, -⟩
      · dsimp only
        rwa [hqueue]
      · dsimp only
        rw [hqueue, ← List.append_assoc]
        exact List.mem_append_left _ hid
  | abort abortAll rid =>
      have hspec := foldl_modifyReq (abort_keepsWaiting abortAll rid)
        (W r).manager.grammarQueue (W r).manager
      exact hspec.1.symm ▸ hid
  | round done hdone polled hpoll ready failed synced result returned =>
      obtain ⟨hperm, -⟩ := h.round_facts hpoll synced (returned r)
      dsimp only
      rw [List.flatten_append, List.append_assoc, List.flatten_singleton]
      exact (hperm.append_left _).mem_iff.mpr hid

/-- A rank that has not returned the request after `k` rounds is ready for it or has counted them
all. -/
structure Delayed (maxPollIterations k id : Nat) (W : Fin n → Rank Q M) : Prop where
  lt : ∀ r, id < (W r).manager.reqs.length
  few : ∀ r, id ∈ (W r).manager.grammarQueue → k = 0 ∨ k < maxPollIterations
  counted : ∀ r, id ∈ (W r).manager.grammarQueue →
    (∃ q, (W r).manager.reqs[id]? = some q ∧ q.grammar = .none) ∨ (W r).done id = true ∨
      k ≤ (W r).manager.waitCt id

theorem Delayed.process {k id : Nat} (hdelayed : Delayed maxPollIterations k id W) {rid : String}
    {params : SamplingParams} {requireReasoning : Bool} {managers : Fin n → GrammarManager Q M}
    (processed : ∀ r, (W r).manager.processReqWithGrammar b (.new rid params requireReasoning) =
      some (managers r)) :
    Delayed maxPollIterations k id fun r => { W r with manager := managers r } := by
  have hspec := fun r => processReqWithGrammar_adds rfl (processed r)
  have hold : ∀ r, id ∈ (managers r).grammarQueue → id ∈ (W r).manager.grammarQueue := by
    intro r hid
    obtain ⟨q, -, hqueue⟩ := hspec r
    rcases hqueue with hqueue | ⟨hqueue, -⟩
    · rwa [hqueue] at hid
    · rw [hqueue] at hid
      rcases List.mem_append.mp hid with hid | hid
      · exact hid
      · exact absurd (List.mem_singleton.mp hid) (Nat.ne_of_lt (hdelayed.lt r))
  refine ⟨fun r => ?_, fun r hid => hdelayed.few r (hold r hid), fun r hid => ?_⟩
  · obtain ⟨q, hreqs, -⟩ := hspec r
    dsimp only
    rw [hreqs, List.length_append]
    exact Nat.lt_add_right _ (hdelayed.lt r)
  · obtain ⟨q, hreqs, -⟩ := hspec r
    have hsame : (managers r).reqs[id]? = (W r).manager.reqs[id]? := by
      rw [hreqs, List.getElem?_append_left (hdelayed.lt r)]
    have hcounted := hdelayed.counted r (hold r hid)
    rw [waitCt, ← hsame] at hcounted
    exact hcounted

theorem Delayed.abort (h : Inv W) {k id : Nat} (hdelayed : Delayed maxPollIterations k id W)
    (abortAll : Bool) (rid : String) : Delayed maxPollIterations k id fun r =>
      { W r with manager := (W r).manager.abortRequests abortAll rid } := by
  have hspec := fun r => foldl_modifyReq (abort_keepsWaiting abortAll rid)
    (W r).manager.grammarQueue (W r).manager
  have hold : ∀ r, id ∈ ((W r).manager.abortRequests abortAll rid).grammarQueue →
      id ∈ (W r).manager.grammarQueue := fun r hid => (hspec r).1 ▸ hid
  refine ⟨fun r => (hspec r).2.1.symm ▸ hdelayed.lt r, fun r hid => hdelayed.few r (hold r hid),
    fun r hid => ?_⟩
  obtain ⟨q, hq, -⟩ := (h.tidy r).waiting id (hold r hid)
  obtain ⟨q', hq', hkeeps⟩ := (hspec r).2.2 id q hq
  rcases hdelayed.counted r (hold r hid) with ⟨q₁, hq₁, hnone⟩ | hdone | hcounted
  · obtain rfl := Option.some.inj (hq.symm.trans hq₁)
    exact .inl ⟨q', hq', hkeeps.2.1 hnone⟩
  · exact .inr (.inl hdone)
  · refine .inr (.inr ?_)
    have hct : ((W r).manager.abortRequests abortAll rid).waitCt id = q'.grammarWaitCt :=
      waitCt_of_some hq'
    dsimp only
    rw [hct, hkeeps.1, ← waitCt_of_some hq]
    exact hcounted

section Round

variable {done : Fin n → Nat → Bool} {polled : Fin n → GrammarManager Q M × List Nat × List Nat}
  {result : Fin n → GrammarManager Q M × List Nat} {ready failed : List Nat}

/-- A rank that does not count the request as ready has counted every round before. -/
theorem Delayed.le_waitCt (h : Inv W) {k id : Nat} (hdelayed : Delayed maxPollIterations k id W)
    (hdone : ∀ r id, (W r).done id = true → done r id = true)
    (hpoll : ∀ r, (W r).manager.poll maxPollIterations (done r) = some (polled r)) {r : Fin n}
    {i : Nat} (hi : (W r).manager.grammarQueue[i]? = some id) (hnot : i ∉ (polled r).2.1) :
    k ≤ (W r).manager.waitCt id := by
  obtain ⟨-, hready⟩ := poll_facts (h.tidy r) (hpoll r)
  rcases hdelayed.counted r (List.mem_of_getElem? hi) with ⟨q, hq, hnone⟩ | hold | hcounted
  · exact absurd ((hready i).mpr ⟨id, q, hi, hq, .inl hnone⟩) hnot
  · obtain ⟨q, hq, -⟩ := (h.tidy r).waiting id (List.mem_of_getElem? hi)
    exact absurd ((hready i).mpr ⟨id, q, hi, hq, .inr (hdone r id hold)⟩) hnot
  · exact hcounted

/-- A request that stays in the queue is not ready on some rank, and no rank has waited for too
long. -/
theorem Delayed.succ_lt (h : Inv W) {k id : Nat} (hdelayed : Delayed maxPollIterations k id W)
    (hdone : ∀ r id, (W r).done id = true → done r id = true)
    (hpoll : ∀ r, (W r).manager.poll maxPollIterations (done r) = some (polled r))
    (synced : Synced (fun r => (polled r).2.1) (fun r => (polled r).2.2) ready failed) {r : Fin n}
    {i : Nat} (hi : (W r).manager.grammarQueue[i]? = some id) (hnot : i ∉ ready ++ failed) :
    k + 1 < maxPollIterations := by
  rw [List.mem_append, not_or, synced.mem_ready, synced.mem_failed, not_forall] at hnot
  obtain ⟨⟨r', hready⟩, hfailed⟩ := hnot
  obtain ⟨hcounted, -⟩ := poll_facts (h.tidy r') (hpoll r')
  have hi' := queue_of_shared (h.shared r r') ▸ hi
  obtain ⟨q, hq, -⟩ := (h.tidy r').waiting id (List.mem_of_getElem? hi')
  have hle := hdelayed.le_waitCt h hdone hpoll hi' hready
  by_contra hmax
  refine hfailed ⟨r', hcounted.timedOut i ?_ hready id q hi' hq (by omega)⟩
  exact List.mem_range.mpr (List.getElem?_eq_some_iff.mp hi').1

theorem Delayed.round (h : Inv W) {k id : Nat} (hdelayed : Delayed maxPollIterations k id W)
    (hdone : ∀ r id, (W r).done id = true → done r id = true)
    (hpoll : ∀ r, (W r).manager.poll maxPollIterations (done r) = some (polled r))
    (synced : Synced (fun r => (polled r).2.1) (fun r => (polled r).2.2) ready failed)
    (returned : ∀ r, (polled r).1.getReadyGrammarRequests b ready failed = some (result r)) :
    Delayed maxPollIterations (k + 1) id fun r =>
      ⟨(result r).1, done r, (W r).returned ++ [(result r).2]⟩ := by
  have hruns := fun r => h.round_facts hpoll synced (returned r)
  refine ⟨fun r => (hruns r).2.2.1.symm ▸ hdelayed.lt r, fun r hid => .inr ?_, fun r hid => ?_⟩
  · obtain ⟨i, hi⟩ := List.mem_iff_getElem?.mp ((hruns r).2.1.subset hid)
    exact hdelayed.succ_lt h hdone hpoll synced hi fun hmem => (hruns r).2.2.2.2 i hmem id hi hid
  · obtain ⟨hcounted, hready⟩ := poll_facts (h.tidy r) (hpoll r)
    obtain ⟨i, hi⟩ := List.mem_iff_getElem?.mp ((hruns r).2.1.subset hid)
    have hsame := (hruns r).2.2.2.1 id hid
    by_cases hmem : i ∈ (polled r).2.1
    · obtain ⟨id', q, hi', hq, hcases⟩ := (hready i).mp hmem
      obtain rfl : id = id' := Option.some.inj (hi.symm.trans hi')
      rcases hcases with hnone | hold
      · obtain ⟨q', hq', hgrammar⟩ := grammar_of_shared hcounted.shared.symm hq
        exact .inl ⟨q', hsame.trans hq', hgrammar.trans hnone⟩
      · exact .inr (.inl hold)
    · obtain ⟨q, hq, -⟩ := (h.tidy r).waiting id (List.mem_of_getElem? hi)
      have hlt := hcounted.waited i
        (List.mem_range.mpr (List.getElem?_eq_some_iff.mp hi).1) hmem id q hi hq
      have hle := hdelayed.le_waitCt h hdone hpoll hi hmem
      refine .inr (.inr ?_)
      dsimp only at hlt ⊢
      rw [waitCt, hsame, ← waitCt]
      omega

end Round

theorem Delayed.step (h : Inv W) {k id : Nat} (hdelayed : Delayed maxPollIterations k id W)
    (hstep : Step b maxPollIterations W W') :
    (∀ r, (W' r).returned = (W r).returned) ∧ Delayed maxPollIterations k id W' ∨
      (∀ r, (W' r).returned.length = (W r).returned.length + 1) ∧
        Delayed maxPollIterations (k + 1) id W' := by
  cases hstep with
  | process rid params requireReasoning managers processed =>
      exact .inl ⟨fun _ => rfl, hdelayed.process processed⟩
  | abort abortAll rid => exact .inl ⟨fun _ => rfl, hdelayed.abort h abortAll rid⟩
  | round done hdone polled hpoll ready failed synced result returned =>
      exact .inr ⟨fun r => List.length_append, hdelayed.round h hdone hpoll synced returned⟩

/-- What all ranks have in common. -/
structure Agreed (W : Fin n → Rank Q M) : Prop where
  grammarQueue : ∀ r r', (W r).manager.grammarQueue = (W r').manager.grammarQueue
  cache : ∀ r r', (W r).manager.cache = (W r').manager.cache
  heap : ∀ r r', (W r).manager.heap = (W r').manager.heap
  returned : ∀ r r', (W r).returned = (W r').returned
  status : ∀ r r', (W r).manager.reqs.map (fun q => (q.rid, q.grammar, q.toFinish)) =
    (W r').manager.reqs.map fun q => (q.rid, q.grammar, q.toFinish)

theorem Inv.agreed (h : Inv W) : Agreed W where
  grammarQueue r r' := queue_of_shared (h.shared r r')
  cache r r' := by
    change (W r).manager.shared.cache = (W r').manager.shared.cache
    rw [h.shared r r']
  heap r r' := by
    change (W r).manager.shared.heap = (W r').manager.shared.heap
    rw [h.shared r r']
  returned := h.returned
  status r r' := by
    have hreqs := congrArg (fun s => s.reqs.map fun q => (q.rid, q.grammar, q.toFinish))
      (h.shared r r')
    simpa [GrammarManager.shared, Function.comp_def, Req.shared] using hreqs

/-- A round gets through on all ranks, and returns no request as both ready and failed. -/
def RoundsRun (b : Backend Q M) (maxPollIterations : Nat) (W : Fin n → Rank Q M) : Prop :=
  ∀ done : Fin n → Nat → Bool, ∃ polled : Fin n → GrammarManager Q M × List Nat × List Nat,
    (∀ r, (W r).manager.poll maxPollIterations (done r) = some (polled r)) ∧
    ∀ ready failed, Synced (fun r => (polled r).2.1) (fun r => (polled r).2.2) ready failed →
      (∀ i ∈ ready, i ∉ failed) ∧
      ∀ r, ((polled r).1.getReadyGrammarRequests b ready failed).isSome

theorem Inv.roundsRun (h : Inv W) (b : Backend Q M) (maxPollIterations : Nat) :
    RoundsRun b maxPollIterations W := by
  intro done
  have hpoll : ∀ r, ∃ p, (W r).manager.poll maxPollIterations (done r) = some p := fun r => by
    obtain ⟨s', ready, failed, hpoll, -⟩ := (h.tidy r).poll maxPollIterations (done r)
    exact ⟨_, hpoll⟩
  choose polled hpoll using hpoll
  refine ⟨polled, hpoll, fun ready failed synced => ⟨h.disjoint hpoll synced, fun r => ?_⟩⟩
  obtain ⟨s', ids, hrun, -⟩ := h.round_runs b hpoll synced r
  rw [hrun]
  rfl

/-- Whatever the ranks see of their compilations, they agree, no assertion fails, and a request of
the queue is returned exactly once, at the latest after the maximal number of rounds. -/
theorem ranks_agree (b : Backend Q M) (maxPollIterations : Nat) {W₀ W : Fin n → Rank Q M}
    (h₀ : Reachable b maxPollIterations W₀)
    (hrun : Relation.ReflTransGen (Step b maxPollIterations) W₀ W) :
    Agreed W ∧ RoundsRun b maxPollIterations W ∧
      ∀ r id, id ∈ (W₀ r).manager.grammarQueue →
        ((W r).returned.flatten ++ (W r).manager.grammarQueue).count id = 1 ∧
        ((W₀ r).returned.length < (W r).returned.length →
          (W₀ r).returned.length + maxPollIterations ≤ (W r).returned.length →
            (W r).returned.flatten.count id = 1) := by
  have hinv₀ := reachable_inv h₀
  have hinv : Inv W := reachable_inv (Relation.ReflTransGen.trans h₀ hrun)
  refine ⟨hinv.agreed, hinv.roundsRun b maxPollIterations, fun r id hid => ?_⟩
  have hkeeps : id ∈ (W r).returned.flatten ++ (W r).manager.grammarQueue ∧
      ∃ k, (∀ r, (W r).returned.length = (W₀ r).returned.length + k) ∧
        Delayed maxPollIterations k id W := by
    clear hinv
    induction hrun with
    | refl =>
        refine ⟨List.mem_append_right _ hid, 0, fun _ => rfl, fun r' => ?_, fun _ _ => .inl rfl,
          fun _ _ => .inr (.inr (Nat.zero_le _))⟩
        rw [length_of_shared (hinv₀.shared r' r)]
        exact lt_length_reqs (hinv₀.tidy r) hid
    | tail hpre hstep ih =>
        obtain ⟨hmem, k, hlength, hdelayed⟩ := ih
        have hinv := reachable_inv (Relation.ReflTransGen.trans h₀ hpre)
        refine ⟨hinv.mem_step hstep hmem, ?_⟩
        rcases hdelayed.step hinv hstep with ⟨hsame, hdelayed'⟩ | ⟨hmore, hdelayed'⟩
        · exact ⟨k, fun r => by rw [hsame r, hlength r], hdelayed'⟩
        · exact ⟨k + 1, fun r => by rw [hmore r, hlength r, Nat.add_assoc], hdelayed'⟩
  obtain ⟨hmem, k, hlength, hdelayed⟩ := hkeeps
  have honce : ((W r).returned.flatten ++ (W r).manager.grammarQueue).count id = 1 :=
    List.count_eq_one_of_mem (hinv.once r) hmem
  refine ⟨honce, fun hsome hall => ?_⟩
  have hout : id ∉ (W r).manager.grammarQueue := fun hqueue => by
    have hk := hlength r
    rcases hdelayed.few r hqueue with hzero | hlt
    · omega
    · omega
  rwa [List.count_append, List.count_eq_zero_of_not_mem hout] at honce

def emptyBackend : Backend Unit Unit where
  dispatch _ := .invalid "empty"
  filter := ⟨0, none, -1, false, none⟩
  enableStrictThinking := false

def jsonParams : SamplingParams := ⟨some "x", none, none, none, none⟩

def oneWaiting (waitCt : Nat) : GrammarManager Unit Unit where
  heap := []
  cache := fun _ => none
  reqs := [{ Req.new "first" jsonParams false with
    grammar := .future ("json", "x") false, grammarKey := some ("json", "x"),
    grammarWaitCt := waitCt }]
  grammarQueue := [0]

/-- Only the first of two ranks sees the future done: the request has failed on the other one, and
both ranks return it. -/
theorem ranks_agree_slowRank : ∃ W : Fin 2 → Rank Unit Unit, ∀ r,
    (W r).returned.length = 1 ∧ (W r).returned.flatten.count 0 = 1 := by
  let W₁ : Fin 2 → Rank Unit Unit := fun _ => ⟨oneWaiting 0, fun _ => false, []⟩
  have hprocess : Step emptyBackend 1 (init : Fin 2 → Rank Unit Unit) W₁ :=
    .process "first" jsonParams false (fun _ => oneWaiting 0) fun _ => rfl
  have h₀ := Relation.ReflTransGen.single hprocess
  have hinv := reachable_inv h₀
  let polled : Fin 2 → GrammarManager Unit Unit × List Nat × List Nat := fun r =>
    if r = 0 then (oneWaiting 0, [0], []) else (oneWaiting 1, [], [0])
  have hpoll : ∀ r : Fin 2, (oneWaiting 0).poll 1 (fun _ => r == 0) = some (polled r) :=
    Fin.forall_fin_two.mpr ⟨rfl, rfl⟩
  have hsynced : Synced (fun r => (polled r).2.1) (fun r => (polled r).2.2) [] [0] :=
    ⟨List.nodup_nil, List.nodup_singleton 0, by simp [Fin.forall_fin_two, polled],
      by simp [Fin.exists_fin_two, polled]⟩
  have hresult : ∀ r, ∃ p, (polled r).1.getReadyGrammarRequests emptyBackend [] [0] = some p :=
    fun r => by
      obtain ⟨s', ids, hrun, -⟩ := hinv.round_runs emptyBackend hpoll hsynced r
      exact ⟨_, hrun⟩
  choose result hresult using hresult
  have hround : Step emptyBackend 1 W₁ _ :=
    .round (fun r _ => r == 0) (fun _ _ h => by cases h) polled hpoll [] [0] hsynced result hresult
  have hagree := ranks_agree emptyBackend 1 h₀ (.single hround)
  exact ⟨_, fun r => ⟨rfl, (hagree.2.2 r 0 List.mem_cons_self).2 (Nat.lt_succ_self 0)
    (Nat.le_refl 1)⟩⟩

end GrammarSync

end SpecDecode.Constrained
