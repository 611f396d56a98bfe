import SpecDecode.Overlap.KvSteps

/-!
# Allocation stays ahead of the device

`Inv` is what every state of the overlapped loop satisfies. For a request that holds a row
(`Kept`) the committed length counts the prepared steps whose result is not yet processed,
the device is ahead of the processed results by the accept lengths in the queue, and the
row is assigned position by position up to the allocated length.

The allocation for a step asks for twice the length of a step beyond the committed length.
The loop prepares a step with at most one result in the queue, so the first half covers
what that result may add and the second half the step itself.
-/

namespace SpecDecode.Overlap

open Buffer

/-- The tokens of a request that the device has accepted ahead of the processed results. -/
def inFlight (queue : List Result) (i : Nat) : Nat := (queue.map (Result.acceptLen i)).sum

def Phase.prepared (i : Nat) : Phase → Nat
  | .chosen (some (.decode reqs)) _ => if i ∈ reqs then 1 else 0
  | _ => 0

theorem Phase.prepared_popped (i : Nat) (batch : Option Batch) (popped popped' : Bool) :
    (Phase.chosen batch popped).prepared i = (Phase.chosen batch popped').prepared i := by
  rcases batch with _ | ⟨reqs⟩ | ⟨reqs⟩ <;> rfl

/-- The number of prepared decode steps of a request whose results are not processed. -/
def State.unresolved (s : State) (i : Nat) : Nat :=
  s.queue.countP (fun r => 0 < r.acceptLen i) + s.phase.prepared i

/-- A request that holds `row`, with `pending` steps to be resolved and `flight` tokens that
the device is ahead. -/
structure Kept (poolLen allocLen row pending flight : Nat) (r : Req) : Prop where
  unfinished : r.finished = false
  present : r.isRetracted = false
  committed : r.kvCommittedLen = r.resolvedLen + pending
  seqLen : r.seqLen = r.resolvedLen + flight
  room : r.kvAllocatedLen ≤ r.kvCommittedLen + (allocLen + allocLen)
  assigned : r.assigned.map Prod.fst = (List.range r.kvAllocatedLen).map (row * poolLen + ·)

def Held (reqs : Nat → Req) (i : Nat) : Prop :=
  (reqs i).reqPoolIdx ≠ none ∨ (reqs i).finished = true

/-- The results in the queue, phase by phase: at most one when a step is prepared, and none
of a request that may enter again. -/
def PhaseOk (a : ServerArgs) (allocLen : Nat) (s : State) : Prop :=
  match s.phase with
  | .schedule => s.queue.length ≤ s.lastBatch.toNat ∧ ∀ r ∈ s.queue, ∀ i ∈ r.reqs, Held s.reqs i
  | .chosen batch popped =>
      s.queue.length ≤ (!popped && s.lastBatch).toNat ∧
        (∀ b, batch = some b → b.reqs.Nodup ∧ ∀ i ∈ b.reqs, Held s.reqs i) ∧
        ∀ reqs, batch = some (.decode reqs) → a.speculativeAlgorithm = true ∧
          ∀ i ∈ reqs, (s.reqs i).reqPoolIdx ≠ none →
            (s.reqs i).seqLen + allocLen ≤ (s.reqs i).kvAllocatedLen
  | .launched batch popped => ∃ old new, s.queue = old ++ new ∧
      old.length ≤ (!popped && s.lastBatch).toNat ∧ new.length = batch.toNat ∧
      ∀ r ∈ new, ∀ i ∈ r.reqs, Held s.reqs i

structure Inv (a : ServerArgs) (poolLen allocLen : Nat) (s : State) : Prop where
  kept {i row : Nat} : (s.reqs i).reqPoolIdx = some row →
    Kept poolLen allocLen row (s.unresolved i) (inFlight s.queue i) (s.reqs i)
  rows : Rows s.reqs s.freeSlots
  running_nodup : s.running.Nodup
  running_held {i : Nat} : i ∈ s.running → Held s.reqs i
  results {r : Result} : r ∈ s.queue → r.Ok allocLen
  phase : PhaseOk a allocLen s

variable {a : ServerArgs} {poolLen allocLen : Nat} {s s' : State}

theorem Inv.init (a : ServerArgs) (poolLen allocLen size : Nat) :
    Inv a poolLen allocLen (State.init size) where
  kept := nofun
  rows := ⟨List.nodup_range', nofun, nofun⟩
  running_nodup := List.nodup_nil
  running_held := nofun
  results := nofun
  phase := ⟨Nat.zero_le _, nofun⟩

variable {i : Nat} {reqs : Nat → Req} {queue : List Result} {acceptLens batch : List Nat}

theorem Processed.held {n : Nat} {reqs' : Nat → Req} (h : Processed n (reqs i) (reqs' i))
    (hheld : Held reqs i) : Held reqs' i := by
  rcases h.row with ⟨-, hfin⟩ | ⟨hrow, hfin⟩
  · exact .inr hfin
  · unfold Held
    rw [hrow, hfin]
    exact hheld

theorem Processed.kept {row pending flight n : Nat} {r r' : Req} (h : Processed n r r')
    (hrow : r'.reqPoolIdx = some row) (hkept : r.reqPoolIdx = some row →
      Kept poolLen allocLen row (pending + if 0 < n then 1 else 0) (n + flight) r) :
    Kept poolLen allocLen row pending flight r' := by
  rcases h.row with ⟨hnone, -⟩ | ⟨hold, hfin⟩
  · rw [hnone] at hrow
    cases hrow
  have hk := hkept (by rw [← hold, hrow])
  have hresolved := h.resolved hk.unfinished hk.present
  have hcommitted := h.committed
  have hroom := hk.room
  refine ⟨by rw [hfin, hk.unfinished], by rw [h.retracted, hk.present], ?_, ?_, ?_, ?_⟩
  · rw [hcommitted, hk.committed, hresolved]
    split <;> omega
  · rw [h.seqLen, hk.seqLen, hresolved, Nat.add_assoc]
  · rw [h.allocated, hcommitted]
    omega
  · rw [h.assigned, h.allocated, hk.assigned]

private theorem unresolved_cons {r : Result} (hqueue : s.queue = r :: queue) (i : Nat) :
    s.unresolved i =
      (queue.countP (fun r => 0 < r.acceptLen i) + s.phase.prepared i) +
        if 0 < r.acceptLen i then 1 else 0 := by
  unfold State.unresolved
  rw [hqueue, List.countP_cons]
  simp only [decide_eq_true_eq]
  omega

theorem Inv.process (h : Inv a poolLen allocLen s) (done : List Nat) {result : Result}
    (hqueue : s.queue = result :: queue) (phase : Phase)
    (hprepared : ∀ i, phase.prepared i = s.phase.prepared i) (lastBatch : Bool) :
    ∃ reqs freeSlots, processBatchResult done { s with queue := queue } result =
        { s with reqs := reqs, freeSlots := freeSlots, queue := queue } ∧
      (∀ i, Processed (result.acceptLen i) (s.reqs i) (reqs i)) ∧
      (PhaseOk a allocLen ⟨reqs, freeSlots, s.running, queue, lastBatch, phase⟩ →
        Inv a poolLen allocLen ⟨reqs, freeSlots, s.running, queue, lastBatch, phase⟩) := by
  have hok : result.Ok allocLen := h.results (by rw [hqueue]; exact List.mem_cons_self)
  obtain ⟨reqs, free, heq, hrows, hall⟩ :=
    processBatchResult_eq done { s with queue := queue } hok.1
  refine ⟨reqs, free, heq, hall, fun hphase => ?_⟩
  refine ⟨fun {i row} hrow => ?_, hrows h.rows, h.running_nodup, fun hi => ?_, fun hr => ?_, hphase⟩
  · refine (hall i).kept hrow fun hold => ?_
    have hkept := h.kept hold
    rw [unresolved_cons hqueue, hqueue] at hkept
    unfold State.unresolved
    rw [hprepared]
    exact hkept
  · exact (hall _).held (h.running_held hi)
  · exact h.results (by rw [hqueue]; exact List.mem_cons_of_mem _ hr)

theorem Inv.move (h : Inv a poolLen allocLen s) (phase : Phase)
    (hprepared : ∀ i, phase.prepared i = s.phase.prepared i) {lastBatch : Bool}
    (hphase : PhaseOk a allocLen { s with lastBatch := lastBatch, phase := phase }) :
    Inv a poolLen allocLen { s with lastBatch := lastBatch, phase := phase } := by
  refine ⟨fun {i row} hrow => ?_, h.rows, h.running_nodup, h.running_held, h.results, hphase⟩
  have hkept := h.kept hrow
  unfold State.unresolved at hkept ⊢
  rw [hprepared]
  exact hkept

/-- No request that keeps its row loses slots. -/
def Grows (reqs reqs' : Nat → Req) : Prop :=
  ∀ i, (reqs i).reqPoolIdx ≠ none → (reqs' i).reqPoolIdx ≠ none →
    (reqs i).kvAllocatedLen ≤ (reqs' i).kvAllocatedLen

theorem Grows.refl (reqs : Nat → Req) : Grows reqs reqs := fun _ _ _ => Nat.le_refl _

theorem Grows.of_eq {reqs' : Nat → Req}
    (h : ∀ i, (reqs' i).kvAllocatedLen = (reqs i).kvAllocatedLen) : Grows reqs reqs' :=
  fun i _ _ => Nat.le_of_eq (h i).symm

theorem Inv.idle (h : Inv a poolLen allocLen s) (hstep : step a poolLen s .idle = some s') :
    Inv a poolLen allocLen s' ∧ Grows s.reqs s'.reqs := by
  simp only [step] at hstep
  split at hstep
  · next hphase =>
      cases hstep
      have hok := h.phase
      unfold PhaseOk at hok
      rw [hphase] at hok
      refine ⟨h.move (.chosen none false) (fun i => by rw [hphase]; rfl) ?_, .refl _⟩
      exact ⟨hok.1, nofun, nofun⟩
  · cases hstep

theorem Inv.noPop (h : Inv a poolLen allocLen s) (hstep : step a poolLen s .noPop = some s') :
    Inv a poolLen allocLen s' ∧ Grows s.reqs s'.reqs := by
  simp only [step] at hstep
  split at hstep
  · next batch popped hphase =>
      split at hstep
      · next hcond =>
          cases hstep
          have hok := h.phase
          unfold PhaseOk at hok
          rw [hphase] at hok
          obtain ⟨old, new, hqueue, hold, hnew, hheld⟩ := hok
          have hzero : (!popped && s.lastBatch).toNat = 0 := by
            cases popped <;> cases hlast : s.lastBatch <;> simp_all
          rw [hzero, Nat.le_zero, List.length_eq_zero_iff] at hold
          rw [hold, List.nil_append] at hqueue
          refine ⟨h.move .schedule (fun i => by rw [hphase]; rfl) ⟨?_, ?_⟩, .refl _⟩
          · show s.queue.length ≤ batch.toNat
            exact hqueue ▸ Nat.le_of_eq hnew
          · show ∀ r ∈ s.queue, _
            rw [hqueue]
            exact hheld
      · cases hstep
  · cases hstep

theorem Inv.popEarly {done : List Nat} (h : Inv a poolLen allocLen s)
    (hstep : step a poolLen s (.popEarly done) = some s') :
    Inv a poolLen allocLen s' ∧ Grows s.reqs s'.reqs := by
  simp only [step] at hstep
  split at hstep
  · next batch result queue hphase hqueue =>
      cases hstep
      have hok := h.phase
      unfold PhaseOk at hok
      rw [hphase, hqueue] at hok
      obtain ⟨hlen, hheld, hroom⟩ := hok
      obtain ⟨reqs, free, heq, hall, hinv⟩ := h.process done hqueue (.chosen batch true)
        (fun i => by rw [hphase, Phase.prepared_popped]) s.lastBatch
      rw [heq]
      refine ⟨hinv ⟨?_, fun b hb => ⟨(hheld b hb).1, fun i hi => ?_⟩, fun ids hids => ?_⟩,
        .of_eq fun i => (hall i).allocated⟩
      · have hone : (result :: queue).length ≤ 1 := Nat.le_trans hlen (Bool.toNat_le _)
        simpa using hone
      · exact (hall i).held ((hheld b hb).2 i hi)
      · refine ⟨(hroom ids hids).1, fun i hi hrow => ?_⟩
        dsimp only at hrow ⊢
        rw [(hall i).seqLen, (hall i).allocated]
        refine (hroom ids hids).2 i hi fun hnone => hrow ?_
        rcases (hall i).row with ⟨hnone', -⟩ | ⟨hsame, -⟩
        · exact hnone'
        · rw [hsame, hnone]
  · cases hstep

theorem Inv.popLate {done : List Nat} (h : Inv a poolLen allocLen s)
    (hstep : step a poolLen s (.popLate done) = some s') :
    Inv a poolLen allocLen s' ∧ Grows s.reqs s'.reqs := by
  simp only [step] at hstep
  split at hstep
  · next batch result queue hphase hqueue =>
      split at hstep
      · cases hstep
        have hok := h.phase
        unfold PhaseOk at hok
        rw [hphase, hqueue] at hok
        obtain ⟨old, new, hsplit, hold, hnew, hheld⟩ := hok
        obtain ⟨reqs, free, heq, hall, hinv⟩ := h.process done hqueue .schedule
          (fun i => by rw [hphase]; rfl) batch
        rw [heq]
        -- what is left of the queue was launched in this iteration
        have hleft : queue.Sublist new := by
          cases old with
          | nil =>
              rw [List.nil_append] at hsplit
              rw [← hsplit]
              exact List.sublist_cons_self result queue
          | cons r old =>
              have hnil : old = [] := by
                have hone : (r :: old).length ≤ 1 := Nat.le_trans hold (Bool.toNat_le _)
                simpa using hone
              rw [hnil] at hsplit
              obtain ⟨-, rfl⟩ := List.cons.inj hsplit
              exact List.Sublist.refl _
        refine ⟨hinv ⟨?_, fun r hr i hi => ?_⟩, .of_eq fun i => (hall i).allocated⟩
        · exact hnew ▸ hleft.length_le
        · exact (hall i).held (hheld r (hleft.subset hr) i hi)
      · cases hstep
  · cases hstep

theorem map_fst_zip {reqs : List Nat} (hlen : acceptLens.length = reqs.length) :
    (reqs.zip acceptLens).map Prod.fst = reqs := List.map_fst_zip (Nat.le_of_eq hlen.symm)

/-- `get_alloc_len_per_decode` covers what a step may accept. -/
theorem numDraftTokens_le (hspec : a.speculativeAlgorithm = true)
    (halloc : getAllocLenPerDecode a = some allocLen) : a.speculativeNumDraftTokens ≤ allocLen := by
  simp only [getAllocLenPerDecode, hspec, Bool.not_true, Bool.false_eq_true, if_false] at halloc
  split at halloc
  · exact Option.some.inj halloc ▸ Nat.le_max_right _ _
  · cases halloc

/-- A launched batch is in the queue for exactly the requests it was prepared for. -/
private theorem prepared_decode {reqs : List Nat} (hnodup : reqs.Nodup)
    (hlen : acceptLens.length = reqs.length) (hpos : ∀ n ∈ acceptLens, 1 ≤ n) (popped : Bool)
    (i : Nat) : (Phase.chosen (some (.decode reqs)) popped).prepared i =
      if 0 < (Result.decode (reqs.zip acceptLens)).acceptLen i then 1 else 0 := by
  have hfst := map_fst_zip hlen
  by_cases hi : i ∈ (reqs.zip acceptLens).map Prod.fst
  · obtain ⟨p, hp, rfl⟩ := List.mem_map.mp hi
    have hp0 : 0 < p.2 := hpos p.2 (List.of_mem_zip hp).2
    rw [acceptLen_mem (by rwa [hfst]) hp, if_pos hp0]
    exact if_pos (hfst ▸ hi)
  · rw [acceptLen_notMem hi, if_neg (Nat.lt_irrefl 0)]
    exact if_neg (hfst ▸ hi)

theorem Inv.verify (h : Inv a poolLen allocLen s) (halloc : getAllocLenPerDecode a = some allocLen)
    {reqs : List Nat} {popped : Bool} (hphase : s.phase = .chosen (some (.decode reqs)) popped)
    (hlen : acceptLens.length = reqs.length)
    (haccept : ∀ n ∈ acceptLens, 1 ≤ n ∧ n ≤ a.speculativeNumDraftTokens) :
    Inv a poolLen allocLen
      { s with
        reqs := Overlap.verify (reqs.zip acceptLens) s.reqs
        queue := s.queue ++ [.decode (reqs.zip acceptLens)]
        phase := .launched true popped } := by
  have hok := h.phase
  unfold PhaseOk at hok
  rw [hphase] at hok
  obtain ⟨hqueue, hheld, hroom⟩ := hok
  obtain ⟨hnodup, hheld⟩ : reqs.Nodup ∧ ∀ i ∈ reqs, Held s.reqs i := hheld _ rfl
  have hspec := (hroom _ rfl).1
  have hfst : (Result.decode (reqs.zip acceptLens)).reqs = reqs := map_fst_zip hlen
  have hkeys : ((reqs.zip acceptLens).map Prod.fst).Nodup := by rwa [map_fst_zip hlen]
  have happly := verify_apply hkeys s.reqs
  have hsame : ∀ i, (Overlap.verify (reqs.zip acceptLens) s.reqs i).reqPoolIdx =
      (s.reqs i).reqPoolIdx := fun i => by rw [happly]
  have hheld' : ∀ {i}, Held s.reqs i → Held (Overlap.verify (reqs.zip acceptLens) s.reqs) i := by
    intro i hi
    unfold Held
    rw [happly]
    exact hi
  refine ⟨fun {i row} hrow => ?_, h.rows.congr hsame, h.running_nodup, fun hi =>
    hheld' (h.running_held hi), fun {r} hr => ?_, ?_⟩
  · have hkept := @h.kept i row (by rwa [← hsame])
    unfold State.unresolved at hkept
    rw [hphase, prepared_decode hnodup hlen (fun n hn => (haccept n hn).1)] at hkept
    dsimp only [State.unresolved]
    rw [happly]
    refine ⟨hkept.unfinished, hkept.present, ?_, ?_, hkept.room, hkept.assigned⟩
    · rw [List.countP_append, List.countP_singleton]
      simpa [Phase.prepared] using hkept.committed
    · show (s.reqs i).seqLen + _ = (s.reqs i).resolvedLen + _
      rw [hkept.seqLen, Nat.add_assoc]
      simp [inFlight]
  · rcases List.mem_append.mp hr with hr | hr
    · exact h.results hr
    · obtain rfl := List.mem_singleton.mp hr
      refine ⟨hkeys, ?_⟩
      rintro _ ⟨⟩ p hp
      have hp := haccept p.2 (List.of_mem_zip hp).2
      exact ⟨hp.1, Nat.le_trans hp.2 (numDraftTokens_le hspec halloc)⟩
  · refine ⟨s.queue, _, rfl, hqueue, rfl, fun r hr i hi => ?_⟩
    obtain rfl := List.mem_singleton.mp hr
    exact hheld' (hheld i (hfst ▸ hi))

theorem Inv.launchExtend (h : Inv a poolLen allocLen s) {reqs : List Nat} {popped : Bool}
    (hphase : s.phase = .chosen (some (.extend reqs)) popped) :
    Inv a poolLen allocLen
      { s with queue := s.queue ++ [.extend reqs], phase := .launched true popped } := by
  have hok := h.phase
  unfold PhaseOk at hok
  rw [hphase] at hok
  obtain ⟨hqueue, hheld, -⟩ := hok
  obtain ⟨hnodup, hheld⟩ := hheld _ rfl
  refine ⟨fun {i row} hrow => ?_, h.rows, h.running_nodup, h.running_held, fun {r} hr => ?_, ?_⟩
  · have hkept := h.kept hrow
    unfold State.unresolved at hkept ⊢
    rw [hphase] at hkept
    simpa [inFlight, Result.acceptLen, Phase.prepared] using hkept
  · rcases List.mem_append.mp hr with hr | hr
    · exact h.results hr
    · obtain rfl := List.mem_singleton.mp hr
      exact ⟨hnodup, nofun⟩
  · refine ⟨s.queue, _, rfl, hqueue, rfl, fun r hr i hi => ?_⟩
    obtain rfl := List.mem_singleton.mp hr
    exact hheld i hi

theorem Inv.run (h : Inv a poolLen allocLen s) (halloc : getAllocLenPerDecode a = some allocLen)
    (hstep : step a poolLen s (.run acceptLens) = some s') :
    Inv a poolLen allocLen s' ∧ Grows s.reqs s'.reqs := by
  simp only [step] at hstep
  split at hstep
  · next popped hphase =>
      cases hstep
      have hok := h.phase
      unfold PhaseOk at hok
      rw [hphase] at hok
      refine ⟨h.move (.launched false popped) (fun i => by rw [hphase]; rfl) ?_, .refl _⟩
      exact ⟨s.queue, [], (List.append_nil _).symm, hok.1, rfl, nofun⟩
  · next reqs popped hphase =>
      cases hstep
      exact ⟨h.launchExtend hphase, .refl _⟩
  · next reqs popped hphase =>
      split at hstep
      · next hcond =>
          cases hstep
          have hkeys : ((reqs.zip acceptLens).map Prod.fst).Nodup := by
            have hok := h.phase
            unfold PhaseOk at hok
            rw [hphase] at hok
            rw [map_fst_zip hcond.1]
            exact (hok.2.1 _ rfl).1
          refine ⟨h.verify halloc hphase hcond.1 hcond.2, .of_eq fun i => ?_⟩
          show (Overlap.verify _ s.reqs i).kvAllocatedLen = _
          rw [verify_apply hkeys]
      · cases hstep
  · cases hstep

private theorem acceptLen_eq_zero {r : Result} (hi : i ∉ r.reqs) : r.acceptLen i = 0 := by
  cases r with
  | extend ids => rfl
  | decode ls => exact acceptLen_notMem hi

theorem settled_of_notMem (hphase : s.phase = .schedule)
    (hnot : ∀ r ∈ s.queue, i ∉ r.reqs) : s.unresolved i = 0 ∧ inFlight s.queue i = 0 := by
  have hzero : ∀ r ∈ s.queue, r.acceptLen i = 0 := fun r hr => acceptLen_eq_zero (hnot r hr)
  constructor
  · unfold State.unresolved
    rw [hphase, List.countP_eq_zero.mpr fun r hr => by simp [hzero r hr]]
    rfl
  · unfold inFlight
    rw [List.map_congr_left hzero]
    simp

private theorem kept_extend (poolLen allocLen row : Nat) (slots : List Nat) {r : Req}
    (hfin : r.finished = false) : Kept poolLen allocLen row 0 0 (r.extend poolLen row slots) := by
  refine ⟨hfin, rfl, rfl, rfl, Nat.le_add_right _ _, ?_⟩
  simp only [Req.extend, List.map_map]
  rfl

theorem Inv.extend {batch : List (Nat × List Nat)} (h : Inv a poolLen allocLen s)
    (hstep : step a poolLen s (.extend batch) = some s') :
    Inv a poolLen allocLen s' ∧ Grows s.reqs s'.reqs := by
  simp only [step] at hstep
  split at hstep
  · next hphase =>
      split at hstep
      · next hcond =>
          obtain ⟨hnodup, hwaiting⟩ := hcond
          have hok := h.phase
          unfold PhaseOk at hok
          rw [hphase] at hok
          obtain ⟨s₁, hfold, rfl⟩ := Option.map_eq_some_iff.mp hstep
          obtain ⟨reqs, free, rfl, hrows, hother, hmem⟩ := foldlM_extendReq hnodup hfold h.rows
          have hheld : ∀ {i}, i ∈ batch.map Prod.fst → Held reqs i := by
            intro i hi
            obtain ⟨p, hp, rfl⟩ := List.mem_map.mp hi
            obtain ⟨row, hrow⟩ := hmem p hp
            rw [Held, hrow]
            exact .inl nofun
          have hnot : ∀ {i}, Held s.reqs i → i ∉ batch.map Prod.fst := by
            intro i hi hmem
            obtain ⟨p, hp, rfl⟩ := List.mem_map.mp hmem
            obtain ⟨hnone, hfin⟩ := hwaiting p hp
            rw [Held, hnone, hfin] at hi
            simp at hi
          refine ⟨⟨fun {i row} hrow => ?_, hrows, ?_, fun {i} hi => ?_, h.results, ?_⟩,
            fun i hlive _ => ?_⟩
          · have hprepared : State.unresolved
                { s with
                  reqs := reqs
                  freeSlots := free
                  running := s.running ++ batch.map Prod.fst
                  phase := .chosen (some (.extend (batch.map Prod.fst))) false } i =
                s.unresolved i := by
              unfold State.unresolved
              rw [hphase]
              rfl
            rw [hprepared]
            dsimp only at hrow ⊢
            by_cases hi : i ∈ batch.map Prod.fst
            · -- no result in the queue is about a request that waits
              obtain ⟨hunresolved, hflight⟩ := settled_of_notMem hphase fun r hr hin =>
                hnot (hok.2 r hr i hin) hi
              obtain ⟨p, hp, rfl⟩ := List.mem_map.mp hi
              obtain ⟨row', hrow'⟩ := hmem p hp
              rw [hrow'] at hrow ⊢
              obtain rfl : row' = row := Option.some.inj hrow
              rw [hflight, hunresolved]
              exact kept_extend poolLen allocLen row' p.2 (hwaiting p hp).2
            · rw [hother i hi] at hrow ⊢
              exact h.kept hrow
          · refine List.nodup_append'.mpr ⟨h.running_nodup, hnodup, fun i hi hmem => ?_⟩
            exact hnot (h.running_held hi) hmem
          · rcases List.mem_append.mp hi with hi | hi
            · have hold := h.running_held hi
              show Held reqs i
              rw [Held, hother i (hnot hold)]
              exact hold
            · exact hheld hi
          · refine ⟨hok.1, ?_, nofun⟩
            rintro _ ⟨⟩
            exact ⟨hnodup, fun i hi => hheld hi⟩
          · have hsame := hother i (hnot (.inl hlive))
            exact Nat.le_of_eq (congrArg Req.kvAllocatedLen hsame.symm)
      · cases hstep
  · cases hstep

private theorem acceptLen_le {r : Result} (hok : r.Ok allocLen) (i : Nat) :
    r.acceptLen i ≤ allocLen := by
  cases r with
  | extend ids => exact Nat.zero_le _
  | decode ls =>
      by_cases hi : i ∈ ls.map Prod.fst
      · obtain ⟨p, hp, rfl⟩ := List.mem_map.mp hi
        rw [acceptLen_mem hok.1 hp]
        exact (hok.2 ls rfl p hp).2
      · rw [acceptLen_notMem hi]
        exact Nat.zero_le _

/-- The device is at most one step ahead when the next one is prepared. -/
theorem inFlight_le (hlen : queue.length ≤ 1)
    (hok : ∀ r ∈ queue, r.Ok allocLen) (i : Nat) : inFlight queue i ≤ allocLen := by
  match queue, hlen with
  | [], _ => exact Nat.zero_le _
  | [r], _ =>
      have hle := acceptLen_le (hok r List.mem_cons_self) i
      simpa [inFlight] using hle

/-- The allocation of a prepared step: nothing is taken back, the new positions follow the
old ones, and the step fits in front of what is allocated. -/
theorem Kept.claim {row pending flight : Nat} {r : Req}
    (h : Kept poolLen allocLen row pending flight r) {stores : List (Nat × Nat)}
    (hstores : stores.map Prod.fst =
      (List.range (r.kvCommittedLen + (allocLen + allocLen) - r.kvAllocatedLen)).map
        fun k => row * poolLen + (r.kvAllocatedLen + k)) :
    Kept poolLen allocLen row (pending + 1) flight
      { r.claim (allocLen + allocLen) with assigned := r.assigned ++ stores } := by
  refine ⟨h.unfinished, h.present, ?_, h.seqLen, ?_, ?_⟩
  · show r.kvCommittedLen + 1 = r.resolvedLen + (pending + 1)
    rw [h.committed, Nat.add_assoc]
  · show r.kvCommittedLen + (allocLen + allocLen) ≤ r.kvCommittedLen + 1 + (allocLen + allocLen)
    omega
  · show (r.assigned ++ stores).map Prod.fst =
      (List.range (r.kvCommittedLen + (allocLen + allocLen))).map (row * poolLen + ·)
    have hsplit : r.kvCommittedLen + (allocLen + allocLen) =
        r.kvAllocatedLen + (r.kvCommittedLen + (allocLen + allocLen) - r.kvAllocatedLen) :=
      (Nat.add_sub_cancel' h.room).symm
    rw [hsplit, List.range_add, List.map_append, List.map_append, List.map_map, h.assigned,
      hstores]
    rfl

theorem Inv.running_row (h : Inv a poolLen allocLen s) (hi : i ∈ s.unfinished) :
    ∃ row, (s.reqs i).reqPoolIdx = some row := by
  obtain ⟨hrun, hfin⟩ := List.mem_filter.mp hi
  rcases h.running_held hrun with hrow | hdone
  · exact Option.ne_none_iff_exists'.mp hrow
  · rw [hdone] at hfin
    cases hfin

/-- What the preparation of `batch` leaves of the requests of `s`: those of the batch hold their row
and have claimed their slots, the others are as before or retracted. -/
structure Prepared (poolLen allocLen : Nat) (s : State) (batch : List Nat) (reqs : Nat → Req) :
    Prop where
  claimed {i : Nat} : i ∈ batch → ∃ row stores, (s.reqs i).reqPoolIdx = some row ∧
    reqs i = { (s.reqs i).claim (allocLen + allocLen) with
      assigned := (s.reqs i).assigned ++ stores } ∧
    Kept poolLen allocLen row (s.unresolved i) (inFlight s.queue i) (s.reqs i) ∧
    Kept poolLen allocLen row (s.unresolved i + 1) (inFlight s.queue i) (reqs i)
  other {i : Nat} : i ∉ batch → reqs i = s.reqs i ∨ (reqs i).reqPoolIdx = none

theorem Prepared.held
    (h : Prepared poolLen allocLen s batch reqs) (hi : i ∈ batch) : Held reqs i := by
  obtain ⟨row, stores, hrow, heq, -⟩ := h.claimed hi
  rw [Held, heq]
  exact .inl (Option.ne_none_iff_exists'.mpr ⟨row, hrow⟩)

theorem Prepared.grows
    (h : Prepared poolLen allocLen s batch reqs) : Grows s.reqs reqs := by
  intro i _ hlive
  by_cases hi : i ∈ batch
  · obtain ⟨row, stores, -, heq, hkept, -⟩ := h.claimed hi
    rw [heq]
    exact hkept.room
  · rcases h.other hi with hsame | hnone
    · exact Nat.le_of_eq (congrArg Req.kvAllocatedLen hsame.symm)
    · exact absurd hnone hlive

/-- The claim fits in front of what is allocated, also while the last step is in flight. -/
theorem Prepared.fits
    (h : Prepared poolLen allocLen s batch reqs) (hlen : s.queue.length ≤ 1)
    (hresults : ∀ r ∈ s.queue, r.Ok allocLen) (hi : i ∈ batch) :
    (reqs i).seqLen + allocLen ≤ (reqs i).kvAllocatedLen := by
  obtain ⟨row, stores, -, heq, hkept, -⟩ := h.claimed hi
  have hahead := inFlight_le hlen hresults i
  rw [heq]
  show (s.reqs i).seqLen + allocLen ≤ (s.reqs i).kvCommittedLen + (allocLen + allocLen)
  rw [hkept.seqLen, hkept.committed]
  omega

theorem Inv.prepared (h : Inv a poolLen allocLen s) (keep : Nat) (outCacheLoc : List Nat) :
    ∃ free, s.retract keep = { s with
        reqs := (s.retract keep).reqs, freeSlots := free, running := s.unfinished.take keep } ∧
      Rows (assign poolLen (s.claim allocLen keep) (s.unfinished.take keep) outCacheLoc) free ∧
      Prepared poolLen allocLen s (s.unfinished.take keep)
        (assign poolLen (s.claim allocLen keep) (s.unfinished.take keep) outCacheLoc) := by
  obtain ⟨reqs, free, hretract, hrows, hkeep, hcase⟩ := retract_eq s h.running_nodup keep
  have hnodup : (s.unfinished.take keep).Nodup :=
    (h.running_nodup.filter _).sublist (List.take_sublist _ _)
  unfold State.claim
  rw [hretract]
  generalize hbatch : s.unfinished.take keep = batch at hkeep hnodup
  have hprepared : Prepared poolLen allocLen s batch
      (assign poolLen (Overlap.claim (allocLen + allocLen) reqs batch) batch outCacheLoc) := by
    refine ⟨fun {i} hi => ?_, fun {i} hi => ?_⟩
    · obtain ⟨row, hrow⟩ := h.running_row (List.mem_of_mem_take (hbatch ▸ hi))
      have hrow' : (reqs i).reqPoolIdx = some row := by rwa [hkeep i hi]
      obtain ⟨stores, heq, hstores⟩ := assign_mem (d := allocLen + allocLen) hnodup hi hrow' poolLen
        outCacheLoc
      rw [hkeep i hi] at heq hstores
      rw [heq]
      exact ⟨row, stores, hrow, rfl, h.kept hrow, (h.kept hrow).claim hstores⟩
    · rw [assign_notMem hi]
      exact hcase i
  refine ⟨free, rfl, (hrows h.rows).congr fun i => ?_, hprepared⟩
  by_cases hi : i ∈ batch
  · obtain ⟨row, stores, -, heq, -⟩ := hprepared.claimed hi
    rw [heq, hkeep i hi]
    rfl
  · rw [assign_notMem hi]

theorem Inv.prepare (h : Inv a poolLen allocLen s) (hphase : s.phase = .schedule)
    (hspec : a.speculativeAlgorithm = true) (keep : Nat) (outCacheLoc : List Nat) :
    Inv a poolLen allocLen
      { s.retract keep with
        reqs := assign poolLen (s.claim allocLen keep) (s.unfinished.take keep) outCacheLoc
        phase := .chosen (some (.decode (s.unfinished.take keep))) false } ∧
      Grows s.reqs
        (assign poolLen (s.claim allocLen keep) (s.unfinished.take keep) outCacheLoc) := by
  have hok := h.phase
  unfold PhaseOk at hok
  rw [hphase] at hok
  have hnodup : (s.unfinished.take keep).Nodup :=
    (h.running_nodup.filter _).sublist (List.take_sublist _ _)
  have hcount : ∀ i, s.unresolved i = s.queue.countP fun r => 0 < r.acceptLen i := by
    intro i
    unfold State.unresolved
    rw [hphase]
    rfl
  obtain ⟨free, hretract, hrows, hprepared⟩ := h.prepared keep outCacheLoc
  generalize assign poolLen (s.claim allocLen keep) (s.unfinished.take keep) outCacheLoc = reqs at *
  rw [hretract]
  generalize s.unfinished.take keep = batch at *
  refine ⟨⟨fun {i row} hrow => ?_, hrows, hnodup, fun hi => hprepared.held hi, h.results, hok.1, ?_,
    ?_⟩, hprepared.grows⟩
  · dsimp only at hrow
    by_cases hi : i ∈ batch
    · obtain ⟨row', stores, hrow', heq, -, hkept⟩ := hprepared.claimed hi
      obtain rfl : row' = row := by
        rw [heq] at hrow
        exact Option.some.inj (hrow'.symm.trans hrow)
      rw [hcount] at hkept
      dsimp only [State.unresolved, Phase.prepared]
      rw [if_pos hi]
      exact hkept
    · dsimp only [State.unresolved, Phase.prepared]
      rw [if_neg hi]
      rcases hprepared.other hi with hsame | hnone
      · rw [hsame] at hrow ⊢
        exact hcount i ▸ h.kept hrow
      · rw [hnone] at hrow
        cases hrow
  · rintro _ ⟨⟩
    exact ⟨hnodup, fun i hi => hprepared.held hi⟩
  · rintro _ ⟨⟩
    exact ⟨hspec, fun i hi _ => hprepared.fits (Nat.le_trans hok.1 (Bool.toNat_le _))
      (fun r hr => h.results hr) hi⟩

theorem Inv.decode {keep : Nat} {outCacheLoc : List Nat} (h : Inv a poolLen allocLen s)
    (halloc : getAllocLenPerDecode a = some allocLen)
    (hstep : step a poolLen s (.decode keep outCacheLoc) = some s') :
    Inv a poolLen allocLen s' ∧ Grows s.reqs s'.reqs := by
  simp only [step, halloc, Option.bind_some] at hstep
  split at hstep
  · next hphase =>
      split at hstep
      · next hspec =>
          split at hstep
          · cases hstep
            exact h.prepare hphase hspec keep outCacheLoc
          · cases hstep
      · cases hstep
  · cases hstep

theorem Inv.step {act : Action} (h : Inv a poolLen allocLen s)
    (halloc : getAllocLenPerDecode a = some allocLen)
    (hstep : Overlap.step a poolLen s act = some s') :
    Inv a poolLen allocLen s' ∧ Grows s.reqs s'.reqs := by
  cases act with
  | extend batch => exact h.extend hstep
  | decode keep outCacheLoc => exact h.decode halloc hstep
  | idle => exact h.idle hstep
  | popEarly done => exact h.popEarly hstep
  | run acceptLens => exact h.run halloc hstep
  | popLate done => exact h.popLate hstep
  | noPop => exact h.noPop hstep

theorem Reachable.inv (h : Reachable a poolLen s)
    (halloc : getAllocLenPerDecode a = some allocLen) : Inv a poolLen allocLen s := by
  induction h with
  | init size => exact .init a poolLen allocLen size
  | step act _ hstep ih => exact (ih.step halloc hstep).1

end SpecDecode.Overlap
