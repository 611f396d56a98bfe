import SpecDecode.Overlap.KvInvariant
import Mathlib.Logic.Relation

/-!
# KV accounting over whole runs

`Accounted` is what a state of the overlapped loop shows of its KV lengths; it holds in
every state the loop reaches.
-/

namespace SpecDecode.Overlap

open Buffer

variable {a : ServerArgs} {poolLen allocLen : Nat} {s s' : State}

def KeepsRow (a : ServerArgs) (poolLen i : Nat) (s s' : State) : Prop :=
  (∃ act, step a poolLen s act = some s') ∧ (s'.reqs i).reqPoolIdx ≠ none

theorem Reachable.allocated_le (h : Reachable a poolLen s)
    (halloc : getAllocLenPerDecode a = some allocLen) {i : Nat}
    (hrow : (s.reqs i).reqPoolIdx ≠ none)
    (hrun : Relation.ReflTransGen (KeepsRow a poolLen i) s s') :
    (s.reqs i).kvAllocatedLen ≤ (s'.reqs i).kvAllocatedLen := by
  have hall : Reachable a poolLen s' ∧ (s'.reqs i).reqPoolIdx ≠ none ∧
      (s.reqs i).kvAllocatedLen ≤ (s'.reqs i).kvAllocatedLen := by
    induction hrun with
    | refl => exact ⟨h, hrow, Nat.le_refl _⟩
    | tail _ hkeeps ih =>
        obtain ⟨hreach, hlive, hle⟩ := ih
        obtain ⟨⟨act, hstep⟩, hlive'⟩ := hkeeps
        have hgrows := ((hreach.inv halloc).step halloc hstep).2 i hlive hlive'
        exact ⟨.step act hreach hstep, hlive', Nat.le_trans hle hgrows⟩
  exact hall.2.2

/-- The cells of `req_to_token` that were stored for a request since it entered. -/
def Req.cells (r : Req) : List Nat := r.assigned.map Prod.fst

/-- The KV accounting of a state. -/
structure Accounted (a : ServerArgs) (poolLen allocLen : Nat) (s : State) : Prop where
  /-- The committed length is the resolved one and one token for every prepared step whose
  result is not processed yet. -/
  committed {i row : Nat} : (s.reqs i).reqPoolIdx = some row →
    (s.reqs i).kvCommittedLen = (s.reqs i).resolvedLen + s.unresolved i
  /-- The device is ahead by the results in the queue. -/
  seqLen {i row : Nat} : (s.reqs i).reqPoolIdx = some row →
    (s.reqs i).seqLen = (s.reqs i).resolvedLen + inFlight s.queue i
  /-- The step that is about to be launched writes below the allocated length. -/
  writes {i row : Nat} {reqs : List Nat} {popped : Bool} : (s.reqs i).reqPoolIdx = some row →
    s.phase = .chosen (some (.decode reqs)) popped → i ∈ reqs →
      ∀ p, (s.reqs i).seqLen ≤ p → p < (s.reqs i).seqLen + allocLen → p < (s.reqs i).kvAllocatedLen
  /-- The next step allocates no negative range. -/
  ranges (keep : Nat) : s.phase = .schedule →
    List.Forall₂ (· ≤ ·) (s.claim allocLen keep).curKvLens (s.claim allocLen keep).nxtKvLens
  /-- Every position below the allocated length is assigned once, and no other. -/
  assigned {i row : Nat} : (s.reqs i).reqPoolIdx = some row →
    (s.reqs i).cells = (List.range (s.reqs i).kvAllocatedLen).map (row * poolLen + ·)
  /-- As long as the rows are wide enough, no cell is assigned to two requests. -/
  disjoint {i j row row' : Nat} : i ≠ j → (s.reqs i).reqPoolIdx = some row →
    (s.reqs j).reqPoolIdx = some row' → (s.reqs i).kvAllocatedLen ≤ poolLen →
      (s.reqs j).kvAllocatedLen ≤ poolLen → (s.reqs i).cells.Disjoint (s.reqs j).cells
  /-- The allocated length grows as long as the row is held. -/
  grows {i row : Nat} {s' : State} : (s.reqs i).reqPoolIdx = some row →
    Relation.ReflTransGen (KeepsRow a poolLen i) s s' →
      (s.reqs i).kvAllocatedLen ≤ (s'.reqs i).kvAllocatedLen

theorem Inv.ranges (h : Inv a poolLen allocLen s) (keep : Nat) :
    List.Forall₂ (· ≤ ·) (s.claim allocLen keep).curKvLens (s.claim allocLen keep).nxtKvLens := by
  obtain ⟨reqs, free, hretract, -, hkeep, -⟩ := retract_eq s h.running_nodup keep
  have hnodup : (s.unfinished.take keep).Nodup :=
    (h.running_nodup.filter _).sublist (List.take_sublist _ _)
  unfold State.claim
  rw [hretract, curKvLens_claim hnodup, nxtKvLens_claim hnodup, List.forall₂_map_left_iff,
    List.forall₂_map_right_iff, List.forall₂_same]
  intro i hi
  obtain ⟨row, hrow⟩ := h.running_row (List.mem_of_mem_take hi)
  dsimp only
  rw [hkeep i hi]
  exact (h.kept hrow).room

/-- The accounting holds in every state that the overlapped loop reaches, whatever is scheduled,
accepted and finished in between. The length of a step is what the server arguments give. -/
theorem Reachable.accounted (h : Reachable a poolLen s)
    (halloc : getAllocLenPerDecode a = some allocLen) : Accounted a poolLen allocLen s := by
  have hinv := h.inv halloc
  refine ⟨fun hrow => (hinv.kept hrow).committed, fun hrow => (hinv.kept hrow).seqLen,
    fun {i row reqs popped} hrow hphase hi p _ hp => ?_, fun keep _ => hinv.ranges keep,
    fun hrow => (hinv.kept hrow).assigned, fun {i j row row'} hne hi hj hfit hfit' => ?_,
    fun hrow hrun => h.allocated_le halloc (by rw [hrow]; exact nofun) hrun⟩
  · have hok := hinv.phase
    unfold PhaseOk at hok
    rw [hphase] at hok
    have hroom := (hok.2.2 reqs rfl).2 i hi (by rw [hrow]; exact nofun)
    exact Nat.lt_of_lt_of_le hp hroom
  · have hrows : row ≠ row' := fun heq => hne (hinv.rows.inj hi (heq ▸ hj))
    intro cell hcell hcell'
    unfold Req.cells at hcell hcell'
    rw [(hinv.kept hi).assigned, List.mem_map] at hcell
    rw [(hinv.kept hj).assigned, List.mem_map] at hcell'
    obtain ⟨k, hk, rfl⟩ := hcell
    obtain ⟨k', hk', heq⟩ := hcell'
    have hk : k < poolLen := Nat.lt_of_lt_of_le (List.mem_range.mp hk) hfit
    have hk' : k' < poolLen := Nat.lt_of_lt_of_le (List.mem_range.mp hk') hfit'
    rcases window_outside hk hrows.symm with hlt | hle <;> omega

theorem Reachable.foldlM {acts : List Action} (h : Reachable a poolLen s)
    (hrun : acts.foldlM (Overlap.step a poolLen) s = some s') : Reachable a poolLen s' := by
  induction acts generalizing s with
  | nil =>
      obtain rfl : s = s' := Option.some.inj hrun
      exact h
  | cons act acts ih =>
      rw [List.foldlM_cons] at hrun
      obtain ⟨s₁, hstep, hrest⟩ := Option.bind_eq_some_iff.mp hrun
      exact ih (.step act h hstep) hrest

/-- A chain of one draft token. -/
def chainArgs : ServerArgs where
  speculativeAlgorithm := true
  speculativeNumSteps := some 1
  speculativeEagleTopk := some 1
  speculativeNumDraftTokens := 2
  pageSize := 1

/-- A prompt of three tokens, and its first two decode steps up to the second launch. -/
def twoSteps : List Action :=
  [.extend [(0, [5, 6, 7])], .run [], .noPop, .decode 1 [8, 9, 10, 11], .run [2], .popLate [],
    .decode 1 [12]]

theorem accounted_twoSteps : ∃ s, twoSteps.foldlM (step chainArgs 64) (State.init 1) = some s ∧
    (s.reqs 0).kvCommittedLen = 5 ∧ Accounted chainArgs 64 2 s := by
  obtain ⟨s, hrun, hcommitted⟩ : ∃ s,
      twoSteps.foldlM (step chainArgs 64) (State.init 1) = some s ∧
        (s.reqs 0).kvCommittedLen = 5 := ⟨_, rfl, rfl⟩
  exact ⟨s, hrun, hcommitted, Reachable.accounted (.foldlM (.init 1) hrun) rfl⟩

/-- A prepared step has claimed the slot of its bonus token before its result is there. -/
theorem committed_ahead_of_resolved : ¬ ∀ (a : ServerArgs) (poolLen : Nat) (s : State),
    Reachable a poolLen s → ∀ i row, (s.reqs i).reqPoolIdx = some row →
      (s.reqs i).kvCommittedLen = (s.reqs i).resolvedLen := by
  intro h
  obtain ⟨s, hrun, hrow, hcommitted, hresolved⟩ : ∃ s,
      (twoSteps.take 4).foldlM (step chainArgs 64) (State.init 1) = some s ∧
        (s.reqs 0).reqPoolIdx = some 1 ∧ (s.reqs 0).kvCommittedLen = 4 ∧
        (s.reqs 0).resolvedLen = 3 := ⟨_, rfl, rfl, rfl, rfl⟩
  have heq := h chainArgs 64 s (.foldlM (.init 1) hrun) 0 1 hrow
  rw [hcommitted, hresolved] at heq
  exact absurd heq (by decide)

end SpecDecode.Overlap
