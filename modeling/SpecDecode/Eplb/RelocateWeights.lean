import SpecDecode.Eplb.RelocationSpec

/-!
# Relocated weights

Every write of a relocation, of a copy to a buffer, of an arrival or of a copy to a weight, puts
the expert into the slot that the new map wants there. A slot that holds its expert therefore keeps
it whatever is written later, and it is enough that the slots that are read have been written.
-/

namespace SpecDecode.Eplb

open SortedKeys

variable {ω : Type}

/-- A slot is right after writes that are all right, if it was right or is written. -/
theorem writeAll_holds {P : Nat → Nat → ω → Prop} {writes : List (Nat × Nat × ω)}
    {tensors : Nat → Nat → ω} {i j : Nat} (hright : ∀ w ∈ writes, P w.1 w.2.1 w.2.2)
    (h : P i j (tensors i j) ∨ ∃ w ∈ writes, w.1 = i ∧ w.2.1 = j) :
    P i j (writeAll writes tensors i j) := by
  induction writes generalizing tensors with
  | nil =>
      rcases h with h | ⟨w, hw, _⟩
      · exact h
      · cases hw
  | cons w writes ih =>
      refine ih (fun v hv => hright v (List.mem_cons_of_mem _ hv)) ?_
      obtain ⟨i', j', value⟩ := w
      have hvalue : P i' j' value := hright _ List.mem_cons_self
      by_cases hhere : i = i' ∧ j = j'
      · obtain ⟨rfl, rfl⟩ := hhere
        left
        simpa [setTensor] using hvalue
      · rcases h with h | ⟨v, hv, hi, hj⟩
        · left
          simpa [setTensor, hhere] using h
        · rcases List.mem_cons.mp hv with rfl | hv
          · exact absurd ⟨hi.symm, hj.symm⟩ hhere
          · exact Or.inr ⟨v, hv, hi, hj⟩

theorem exists_mem_zip {α β : Type} {l : List α} {l' : List β} (hlen : l.length = l'.length) {b : β}
    (hb : b ∈ l') : ∃ a, (a, b) ∈ l.zip l' := by
  obtain ⟨k, hk, rfl⟩ := List.mem_iff_getElem.mp hb
  have hl : k < l.length := hlen ▸ hk
  have hzip : k < (l.zip l').length := by simp [hlen, hk]
  have hpair : (l.zip l')[k] = (l[k], l'[k]) := List.getElem_zip
  exact ⟨l[k], hpair ▸ List.getElem_mem hzip⟩

namespace Layer

variable {ly : Layer}

def copyWrites (ly : Layer) (copies : List (Nat × Nat)) (source : Nat → Nat → ω) :
    List (Nat × Nat × ω) :=
  copies.flatMap fun (src, dst) => (List.range ly.numTensors).map fun i =>
    (i, ly.slotOf dst, source i (ly.slotOf src))

theorem copyAll_eq (copies : List (Nat × Nat)) (source into : Nat → Nat → ω) :
    ly.copyAll copies source into = writeAll (ly.copyWrites copies source) into := by
  rw [copyAll, writeAll, copyWrites, List.foldl_flatMap]
  congr
  funext into copy
  rw [List.foldl_map]

theorem mem_copyWrites {copies : List (Nat × Nat)} {source : Nat → Nat → ω} {w : Nat × Nat × ω} :
    w ∈ ly.copyWrites copies source ↔ ∃ copy ∈ copies, ∃ i < ly.numTensors,
      w = (i, ly.slotOf copy.2, source i (ly.slotOf copy.1)) := by
  simp only [copyWrites, List.mem_flatMap, List.mem_map, List.mem_range, eq_comm]

/-- The value is that of the expert the new map wants in the slot. -/
def Wanted (ly : Layer) (val : Nat → Nat → ω) (rank i j : Nat) (v : ω) : Prop :=
  ∀ e, ly.newPhysicalToLogicalMap[rank * ly.numLocalPhysicalExperts + j]? = some e →
    i < ly.numTensors → v = val e i

/-- The weights are those of the experts of the old map. -/
def Holds (ly : Layer) (val : Nat → Nat → ω) (worldSize : Nat) (mem : Nat → RankMem ω) : Prop :=
  ∀ rank < worldSize, ∀ j < ly.numLocalPhysicalExperts, ∀ e,
    ly.oldPhysicalToLogicalMap[rank * ly.numLocalPhysicalExperts + j]? = some e →
      ∀ i < ly.numTensors, (mem rank).weights i j = val e i

variable {val : Nat → Nat → ω} {worldSize m rank : Nat} {mem : Nat → RankMem ω}

theorem Holds.wanted (hmem : ly.Holds val worldSize mem) {src dst : Nat} (hrank : rank < worldSize)
    (hsrc : src ∈ ly.localRange rank) (hdst : dst ∈ ly.localRange rank) {e : Nat}
    (hold : ly.oldAt src e) (hnew : ly.newAt dst e) (i : Nat) :
    ly.Wanted val rank i (ly.slotOf dst) ((mem rank).weights i (ly.slotOf src)) := by
  intro e' he' hi
  rw [slot_of_mem hdst, newAt_iff.mp hnew] at he'
  obtain rfl := Option.some.inj he'
  refine hmem rank hrank _ (slotOf_lt hsrc) e ?_ i hi
  rw [slot_of_mem hsrc]
  exact oldAt_iff.mp hold

section

variable {plans : Nat → Plan} {ops : Nat → List P2POp}

theorem partners_ops (hfits : ly.Fits worldSize)
    (hissued : ∀ r < worldSize, ly.Issued worldSize m r (ops r)) {src dst : Nat}
    (hsrc : src < worldSize) (hdst : dst < worldSize) :
    List.Forall₂ (ly.Partners src dst) (opsWith .isend dst (ops src))
      (opsWith .irecv src (ops dst)) := by
  rw [(hissued src hsrc).sends, (hissued dst hdst).recvs]
  exact forall₂_flatMap fun e _ => partners_sendsTo hfits src dst e

theorem wanted_arrivals (hmem : ly.Holds val worldSize mem)
    (hpartners : ∀ src < worldSize, List.Forall₂ (ly.Partners src rank)
      (opsWith .isend rank (ops src)) (opsWith .irecv src (ops rank))) :
    ∀ w ∈ arrivals worldSize ops mem rank, ly.Wanted val rank w.1 w.2.1 w.2.2 := by
  intro w hw
  obtain ⟨src, hsrc, hw⟩ := List.mem_flatMap.mp hw
  obtain ⟨⟨send, recv⟩, hzip, rfl⟩ := List.mem_map.mp hw
  have hsrc := List.mem_range.mp hsrc
  have hpair := List.forall₂_zip (hpartners src hsrc) hzip
  intro e he hi
  show (mem src).weights send.tensor send.slot = val e recv.tensor
  rw [hpair.tensor]
  exact hmem src hsrc send.slot hpair.send_slot e (hpair.expert.trans he) _ hi

theorem exists_arrival (hissued : ly.Issued worldSize m rank (ops rank)) {src e x i : Nat}
    (hpartners : List.Forall₂ (ly.Partners src rank)
      (opsWith .isend rank (ops src)) (opsWith .irecv src (ops rank)))
    (hsrc : src < worldSize) (he : e < m) (hchosen : ly.chosenSrcRank rank e = some src)
    (hfirst : ly.FirstAt rank (ly.newAt · e) x) (hi : i < ly.numTensors) :
    ∃ w ∈ arrivals worldSize ops mem rank, w.1 = i ∧ w.2.1 = ly.slotOf x := by
  have hrecv : (⟨.irecv, i, ly.slotOf x, src⟩ : P2POp) ∈ opsWith .irecv src (ops rank) := by
    rw [hissued.recvs]
    refine List.mem_flatMap.mpr ⟨e, List.mem_range.mpr he, ?_⟩
    rw [recvsFrom, find?_localRange_eq_some.mpr hfirst]
    simpa [hchosen] using hi
  obtain ⟨send, hzip⟩ := exists_mem_zip hpartners.length_eq hrecv
  exact ⟨_, List.mem_flatMap.mpr ⟨src, List.mem_range.mpr hsrc, List.mem_map.mpr ⟨_, hzip, rfl⟩⟩,
    rfl, rfl⟩

end

variable {location : Nat} {copy : Nat × Nat} {plans : Nat → Plan}

theorem Handled.weight2buffer {e : Nat} {plan : Plan}
    (h : ly.Handled rank e location plan) (hcopy : copy ∈ plan.weight2bufferCopies) :
    copy.2 = location ∧ copy.1 ∈ ly.localRange rank ∧ ly.oldAt copy.1 e := by
  cases h with
  | unchanged => cases hcopy
  | sameGpu hmem hold =>
      obtain rfl := List.mem_singleton.mp hcopy
      exact ⟨rfl, hmem, hold⟩
  | freeRider => cases hcopy
  | received => cases hcopy

/-- What a location's plan copies back is the expert of the location, which was copied to the
buffers or is received. -/
theorem Handled.buffer2weight {e : Nat} {plan : Plan}
    (h : ly.Handled rank e location plan) (hmem : location ∈ ly.localRange rank)
    (hnew : ly.newAt location e) (hcopy : copy ∈ plan.buffer2weightCopyInfos) :
    copy.2 = location ∧ copy.1 ∈ ly.localRange rank ∧ ly.newAt copy.1 e ∧
      ((∃ src, (src, copy.1) ∈ plan.weight2bufferCopies) ∨
        ly.FirstAt rank (ly.newAt · e) copy.1 ∧ rank ∈ ly.needCommDstRanks e) := by
  cases h with
  | unchanged => cases hcopy
  | sameGpu _ _ =>
      obtain rfl := List.mem_singleton.mp hcopy
      exact ⟨rfl, hmem, hnew, Or.inl ⟨_, List.mem_singleton_self _⟩⟩
  | freeRider hneed hfirst _ =>
      obtain rfl := List.mem_singleton.mp hcopy
      exact ⟨rfl, hfirst.mem, hfirst.holds, Or.inr ⟨hfirst, hneed⟩⟩
  | received hneed hfirst _ =>
      obtain rfl := List.mem_singleton.mp hcopy
      exact ⟨rfl, hmem, hnew, Or.inr ⟨hfirst, hneed⟩⟩

theorem Handled.unchanged_or_copied {e : Nat} {plan : Plan} (h : ly.Handled rank e location plan) :
    ly.oldAt location e ∨ ∃ src, (src, location) ∈ plan.buffer2weightCopyInfos := by
  cases h with
  | unchanged hold => exact Or.inl hold
  | sameGpu _ _ => exact Or.inr ⟨_, List.mem_singleton_self _⟩
  | freeRider _ _ _ => exact Or.inr ⟨_, List.mem_singleton_self _⟩
  | received _ _ _ => exact Or.inr ⟨_, List.mem_singleton_self _⟩

theorem mem_join_weight2buffer {l : List Nat} :
    copy ∈ (Plan.join (l.map plans)).weight2bufferCopies ↔
      ∃ x ∈ l, copy ∈ (plans x).weight2bufferCopies := by
  simp [Plan.join]

private theorem mem_join_buffer2weight {l : List Nat} :
    copy ∈ (Plan.join (l.map plans)).buffer2weightCopyInfos ↔
      ∃ x ∈ l, copy ∈ (plans x).buffer2weightCopyInfos := by
  simp [Plan.join]

theorem finishRank_wanted (hfits : ly.Fits worldSize) (hknown : ly.Known)
    (hm : ∀ e ∈ ly.oldPhysicalToLogicalMap, e < m) {ops : Nat → List P2POp}
    (hissued : ∀ r < worldSize, ly.Issued worldSize m r (ops r)) (hrank : rank < worldSize)
    (hplans : ly.Handles rank plans)
    {arrive : List (Nat × Nat × ω) → List (Nat × Nat × ω)} (harrive : ∀ l, (arrive l).Perm l)
    (hmem : ly.Holds val worldSize mem) {i j : Nat} (hi : i < ly.numTensors)
    (hj : j < ly.numLocalPhysicalExperts) :
    ly.Wanted val rank i j ((ly.finishRank worldSize arrive ops mem
      (Plan.join ((ly.localRange rank).map plans)) rank).weights i j) := by
  have hpartners : ∀ src < worldSize, List.Forall₂ (ly.Partners src rank)
      (opsWith .isend rank (ops src)) (opsWith .irecv src (ops rank)) :=
    fun src hsrc => partners_ops hfits hissued hsrc hrank
  simp only [finishRank, copyAll_eq]
  generalize hbuffers : writeAll (arrive (arrivals worldSize ops mem rank)) (writeAll
    (ly.copyWrites (Plan.join ((ly.localRange rank).map plans)).weight2bufferCopies
      (mem rank).weights) (mem rank).tempBuffers) = buffers
  -- What is copied to the buffers is wanted there.
  have hcopied : ∀ w ∈ ly.copyWrites
      (Plan.join ((ly.localRange rank).map plans)).weight2bufferCopies (mem rank).weights,
      ly.Wanted val rank w.1 w.2.1 w.2.2 := by
    intro w hw
    obtain ⟨copy, hcopy, i, _, rfl⟩ := mem_copyWrites.mp hw
    obtain ⟨x, hx, hcopy⟩ := mem_join_weight2buffer.mp hcopy
    obtain ⟨e, hnew, hhandled⟩ := hplans x hx
    obtain ⟨rfl, hsrc, hold⟩ := hhandled.weight2buffer hcopy
    exact hmem.wanted hrank hsrc hx hold hnew i
  have harrived : ∀ w ∈ arrive (arrivals worldSize ops mem rank),
      ly.Wanted val rank w.1 w.2.1 w.2.2 := fun w hw =>
    wanted_arrivals hmem hpartners w ((harrive _).mem_iff.mp hw)
  -- What is copied back has been written.
  have hback : ∀ w ∈ ly.copyWrites
      (Plan.join ((ly.localRange rank).map plans)).buffer2weightCopyInfos buffers,
      ly.Wanted val rank w.1 w.2.1 w.2.2 := by
    intro w hw
    obtain ⟨copy, hcopy, i, hi, rfl⟩ := mem_copyWrites.mp hw
    obtain ⟨x, hx, hcopy⟩ := mem_join_buffer2weight.mp hcopy
    obtain ⟨e, hnew, hhandled⟩ := hplans x hx
    obtain ⟨rfl, hsource, hsourceNew, hwritten⟩ := hhandled.buffer2weight hx hnew hcopy
    have hbuffer : ly.Wanted val rank i (ly.slotOf copy.1) (buffers i (ly.slotOf copy.1)) := by
      rw [← hbuffers]
      refine writeAll_holds harrived ?_
      rcases hwritten with ⟨src, hsrc⟩ | ⟨hfirst, hneed⟩
      · left
        refine writeAll_holds hcopied (Or.inr ⟨_, mem_copyWrites.mpr
          ⟨(src, copy.1), ?_, i, hi, rfl⟩, rfl, rfl⟩)
        exact mem_join_weight2buffer.mpr ⟨_, hx, hsrc⟩
      · right
        have hold : e ∈ ly.oldPhysicalToLogicalMap :=
          hknown e (List.mem_of_getElem? (newAt_iff.mp hnew))
        obtain ⟨y, hy⟩ := List.getElem?_of_mem hold
        have hsome : ly.allSrcRanks e ≠ [] := List.ne_nil_of_mem ((mem_allSrcRanks hfits).mpr
          ⟨y, mem_localRange_rankOf hfits (lt_of_oldAt (oldAt_iff.mpr hy)), oldAt_iff.mpr hy⟩)
        obtain ⟨src, hchosen⟩ := chosenSrcRank_of_need hneed hsome
        have hsrc := lt_of_mem_allSrcRanks hfits (chosenSrcRank_mem hchosen).2
        obtain ⟨w, hw, hwi, hwj⟩ : ∃ w ∈ arrivals worldSize ops mem rank,
            w.1 = i ∧ w.2.1 = ly.slotOf copy.1 :=
          exists_arrival (hissued rank hrank) (hpartners src hsrc) hsrc (hm e hold)
            hchosen hfirst hi
        exact ⟨w, (harrive _).mem_iff.mpr hw, hwi, hwj⟩
    intro e' he' hi'
    rw [slot_of_mem hx, newAt_iff.mp hnew] at he'
    refine hbuffer e' ?_ hi'
    rw [slot_of_mem hsource, newAt_iff.mp hsourceNew, he']
  refine writeAll_holds hback ?_
  have hx : rank * ly.numLocalPhysicalExperts + j ∈ ly.localRange rank :=
    mem_localRange.mpr ⟨Nat.le_add_right _ _, Nat.add_lt_add_left hj _⟩
  have hslot : ly.slotOf (rank * ly.numLocalPhysicalExperts + j) = j := by
    have := slot_of_mem hx
    omega
  obtain ⟨e, hnew, hhandled⟩ := hplans _ hx
  rcases hhandled.unchanged_or_copied with hold | ⟨src, hcopy⟩
  · left
    have hwanted := hmem.wanted hrank hx hx hold hnew i
    rw [hslot] at hwanted
    exact hwanted
  · right
    refine ⟨_, mem_copyWrites.mpr ⟨_, mem_join_buffer2weight.mpr ⟨_, hx, hcopy⟩, i, hi, rfl⟩, rfl,
      ?_⟩
    exact hslot

/-- Between active ranks every send has its receive, and every rank ends with the weights of the
experts that the new map puts on it, in whatever order they arrive. -/
theorem updateExpertWeights_correct {isActive : Option (Nat → Bool)}
    {arrive : Nat → List (Nat × Nat × ω) → List (Nat × Nat × ω)} (hgpu : 0 < ly.numGpuPerNode)
    (hfits : ly.Fits worldSize) (hknown : ly.Known)
    (hactive : ∀ f, isActive = some f → ∀ r < worldSize, f r)
    (harrive : ∀ r l, (arrive r l).Perm l) (hmem : ly.Holds val worldSize mem) :
    (∀ src < worldSize, ∀ dst < worldSize, List.Forall₂ (ly.Partners src dst)
      (opsWith .isend dst (ly.opsOf isActive src)) (opsWith .irecv src (ly.opsOf isActive dst))) ∧
    (∀ r < worldSize, ∀ op ∈ ly.opsOf isActive r, op.peer < worldSize) ∧
    ∃ mem', ly.updateExpertWeights worldSize isActive arrive mem = some mem' ∧
      ∀ r < worldSize, ∀ j < ly.numLocalPhysicalExperts, ∀ e,
        ly.newPhysicalToLogicalMap[r * ly.numLocalPhysicalExperts + j]? = some e →
          ∀ i < ly.numTensors, (mem' r).weights i j = val e i := by
  obtain ⟨m, hm⟩ := exists_bound ly.oldPhysicalToLogicalMap
  have hplan := fun r (hr : r < worldSize) => planOf_spec hgpu hfits hknown hactive hm hr
  have hissued : ∀ r < worldSize, ly.Issued worldSize m r (ly.opsOf isActive r) := by
    intro r hr
    obtain ⟨plans, ops, hsome, _, hops⟩ := hplan r hr
    rw [opsOf, hsome]
    exact hops
  have hpartners : ∀ src < worldSize, ∀ dst < worldSize, List.Forall₂ (ly.Partners src dst)
      (opsWith .isend dst (ly.opsOf isActive src)) (opsWith .irecv src (ly.opsOf isActive dst)) :=
    fun src hsrc dst hdst => partners_ops hfits hissued hsrc hdst
  refine ⟨hpartners, fun r hr => (hissued r hr).peers, ?_⟩
  have hall : (List.range worldSize).all fun r => (ly.planOf isActive r).isSome := by
    rw [List.all_eq_true]
    intro r hr
    obtain ⟨plans, ops, hsome, _⟩ := hplan r (List.mem_range.mp hr)
    rw [hsome]
    rfl
  have hbalanced : balanced worldSize (ly.opsOf isActive) := by
    rw [balanced, List.all_eq_true]
    intro src hsrc
    have hsrc := List.mem_range.mp hsrc
    rw [Bool.and_eq_true, List.all_eq_true, List.all_eq_true]
    refine ⟨fun op hop => decide_eq_true ((hissued src hsrc).peers op hop), fun dst hdst => ?_⟩
    exact beq_iff_eq.mpr (hpartners src hsrc dst (List.mem_range.mp hdst)).length_eq
  rw [updateExpertWeights, if_pos hall, if_pos hbalanced]
  refine ⟨_, rfl, fun r hr j hj e he i hi => ?_⟩
  obtain ⟨plans, ops, hsome, hplans, _⟩ := hplan r hr
  simp only [hsome]
  exact finishRank_wanted hfits hknown hm hissued hr hplans (harrive r) hmem hi hj e he hi

/-- Two ranks on two nodes: the first location of each receives, one copies and one rides free. -/
def twoRanks : Layer where
  oldPhysicalToLogicalMap := [0, 1, 1, 2]
  newPhysicalToLogicalMap := [2, 2, 1, 0]
  numLocalPhysicalExperts := 2
  numGpuPerNode := 1
  numTensors := 1

/-- Weights that name their expert. -/
def twoRanksMem (rank : Nat) : RankMem Nat :=
  ⟨fun _ j => (twoRanks.oldPhysicalToLogicalMap[rank * 2 + j]?).getD 0, fun _ _ => 7⟩

theorem updateExpertWeights_twoRanks : ∃ mem',
    twoRanks.updateExpertWeights 2 none (fun _ => List.reverse) twoRanksMem = some mem' ∧
      (mem' 0).weights 0 1 = 2 ∧ (mem' 1).weights 0 1 = 0 := by
  have hactive : ∀ f, (none : Option (Nat → Bool)) = some f → ∀ r < 2, f r := nofun
  have hmem : twoRanks.Holds (fun e _ => e) 2 twoRanksMem := by
    intro rank _ j _ e he i _
    have he : twoRanks.oldPhysicalToLogicalMap[rank * 2 + j]? = some e := he
    simp [twoRanksMem, he]
  obtain ⟨_, _, mem', hsome, hweights⟩ := updateExpertWeights_correct (by decide)
    (show twoRanks.Fits 2 from ⟨rfl, rfl⟩) (by unfold Known; decide) hactive
    (fun _ l => List.reverse_perm l) hmem
  exact ⟨mem', hsome, hweights 0 (by decide) 1 (by decide) 2 rfl 0 (by decide),
    hweights 1 (by decide) 1 (by decide) 0 rfl 0 (by decide)⟩

end Layer

end SpecDecode.Eplb
