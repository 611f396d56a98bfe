import SpecDecode.Eagle.FreeRejected
import SpecDecode.Lib.Ranges

/-!
# Rejected slots are freed page by page

`Rejected i j` says that the `j`-th slot of request `i` lies on a page behind the page of its
last kept token. All three ways to free slots give back exactly these, and a page of the pool
holds either rejected slots only or none.
-/

namespace SpecDecode.Eagle

open Buffer MemCache Ranges

namespace VerifyBatch

/-- A batch that was given its slots and accepts no more than was drafted. -/
structure Valid (b : VerifyBatch) : Prop where
  alloc : b.alloc.Valid
  paged : 1 < b.pageSize
  extended : ∀ i, i < b.bs → (b.alloc.req i).seqLen = b.seqLen i + b.draftTokenNum
  accepted : ∀ i, i < b.bs → b.numAccepted i + 1 ≤ b.draftTokenNum

/-- The slot lies on a page behind the page of the last kept token. -/
def Rejected (b : VerifyBatch) (i j : Nat) : Prop :=
  (b.seqLen i + b.numAccepted i) / b.pageSize < (b.seqLen i + j) / b.pageSize

variable {b : VerifyBatch}

section Positions

variable (h : b.Valid) {i j : Nat} (hi : i < b.bs) (hj : j < b.draftTokenNum)

include h

theorem Valid.pos : 0 < b.pageSize := h.alloc.pageSize_pos

include hi

theorem extendLen_eq : (b.alloc.req i).extendLen = b.draftTokenNum := by
  rw [ExtendReq.extendLen, h.extended i hi]
  exact Nat.add_sub_cancel_left _ _

omit hi in
theorem before_extendLen {n : Nat} (hn : n ≤ b.bs) :
    b.alloc.before (·.extendLen) n = n * b.draftTokenNum := by
  induction n with
  | zero => rw [Nat.zero_mul, ExtendArgs.before_zero]
  | succ n ih =>
      rw [ExtendArgs.before_succ hn, ih (Nat.le_of_succ_le hn), Nat.succ_mul,
        extendLen_eq h (Nat.lt_of_succ_le hn)]

include hj

theorem outCacheLoc_eq : b.outCacheLoc (i * b.draftTokenNum + j) = b.alloc.slot i j := by
  rw [← before_extendLen h (Nat.le_of_lt hi)]
  exact ExtendArgs.allocExtendNaive_apply h.alloc _ hi (by rwa [extendLen_eq h hi])

omit hi hj in
theorem rejected_iff : b.Rejected i j ↔
    numPages b.pageSize (b.seqLen i + (b.numAccepted i + 1)) * b.pageSize ≤ b.seqLen i + j := by
  unfold Rejected
  rw [Nat.lt_iff_add_one_le, Nat.le_div_iff_mul_le h.pos]
  have hnum : numPages b.pageSize (b.seqLen i + (b.numAccepted i + 1)) =
      (b.seqLen i + b.numAccepted i) / b.pageSize + 1 := by
    rw [numPages, show b.seqLen i + (b.numAccepted i + 1) + b.pageSize - 1 =
      b.seqLen i + b.numAccepted i + b.pageSize by omega, Nat.add_div_right _ h.pos]
  rw [hnum]

end Positions

theorem foldl_update_false (l : List Nat) (m : Nat → Bool) (x : Nat) :
    l.foldl (fun m x => Function.update m x false) m x = (!decide (x ∈ l) && m x) := by
  induction l generalizing m with
  | nil => simp
  | cons y l ih =>
      rw [List.foldl_cons, ih]
      by_cases hxy : x = y
      · simp [hxy]
      · rw [Function.update_of_ne hxy]
        simp [hxy]

theorem sum_lanes (n c lanes : Nat) :
    ((List.range lanes).map fun t => if t < n then (decide (c < t)).toNat else 0).sum =
      min lanes n - (c + 1) := by
  induction lanes with
  | zero => simp
  | succ lanes ih =>
      rw [List.range_succ, List.map_append, List.sum_append, ih, List.map_singleton,
        List.sum_singleton]
      by_cases hn : lanes < n
      · rw [if_pos hn]
        by_cases hc : c < lanes
        · simp only [hc, decide_true, Bool.toNat_true]
          omega
        · simp only [hc, decide_false, Bool.toNat_false]
          omega
      · rw [if_neg hn]
        omega

section Chain

variable (h : b.Valid) {i j : Nat} (hi : i < b.bs) (hj : j < b.draftTokenNum)

include h hi hj

theorem mem_chainAcceptIndex : i * b.draftTokenNum + j ∈ b.chainAcceptIndex ↔
    j ≤ b.numAccepted i := by
  unfold chainAcceptIndex
  rw [List.mem_flatMap]
  constructor
  · rintro ⟨i', hi', hmem⟩
    obtain ⟨k, hk, heq⟩ := List.mem_map.mp hmem
    have hacc := h.accepted i' (List.mem_range.mp hi')
    have hk := List.mem_range.mp hk
    by_cases hii : i' = i
    · subst hii
      omega
    · rcases window_outside (i := k) (n := b.draftTokenNum) (by omega) (Ne.symm hii) <;> omega
  · intro hle
    exact ⟨i, List.mem_range.mpr hi, List.mem_map.mpr ⟨j, List.mem_range.mpr (by omega), rfl⟩⟩

theorem evictMask_apply : b.evictMask (i * b.draftTokenNum + j) = decide (b.numAccepted i < j) := by
  unfold evictMask
  rw [foldl_update_false, Bool.and_true]
  simp only [mem_chainAcceptIndex h hi hj, decide_not.symm, Nat.not_le]

theorem alignEvictMask_row {mask : Nat → Bool} (hmask : ∀ t, t < b.draftTokenNum →
      mask (i * b.draftTokenNum + t) = decide (b.numAccepted i < t)) :
    b.alignEvictMaskToPageSize (nextPowerOf2 b.draftTokenNum) mask i (i * b.draftTokenNum + j) =
      true ↔ b.Rejected i j := by
  have hsum : ((List.range (nextPowerOf2 b.draftTokenNum)).map fun t =>
      if t < b.draftTokenNum then (mask (i * b.draftTokenNum + t)).toNat else 0).sum =
        b.draftTokenNum - (b.numAccepted i + 1) := by
    rw [List.map_congr_left (g := fun t =>
      if t < b.draftTokenNum then (decide (b.numAccepted i < t)).toNat else 0)]
    · rw [sum_lanes, Nat.min_eq_right (ExtendArgs.le_nextPowerOf2 _)]
    · intro t _
      split
      · next ht => rw [hmask t ht]
      · rfl
  have hacc := h.accepted i hi
  have hlast : ((b.seqLen i : Int) + ((b.draftTokenNum : Int) -
      (b.draftTokenNum - (b.numAccepted i + 1) : Nat)) - 1) / b.pageSize =
        ((b.seqLen i + b.numAccepted i) / b.pageSize : Nat) := by
    rw [Int.natCast_ediv]
    congr 1
    omega
  have hlo := Nat.div_mul_le_self (b.seqLen i + b.numAccepted i) b.pageSize
  have hhi := Nat.lt_div_mul_add h.pos (a := b.seqLen i + b.numAccepted i)
  unfold alignEvictMaskToPageSize
  rw [hsum, hlast]
  unfold Rejected
  rw [Nat.lt_iff_add_one_le, Nat.le_div_iff_mul_le h.pos, Nat.add_mul, Nat.one_mul]
  rw [← Int.natCast_mul, fill_apply]
  generalize (b.seqLen i + b.numAccepted i) / b.pageSize * b.pageSize = page at hlo hhi ⊢
  split
  · simp only [Bool.false_eq_true, false_iff]
    omega
  · rw [hmask j hj, decide_eq_true_iff]
    omega

theorem alignedEvictMask_iff :
    b.alignedEvictMask (i * b.draftTokenNum + j) = true ↔ b.Rejected i j := by
  unfold alignedEvictMask
  rw [foldl_rows (F := b.alignEvictMaskToPageSize (nextPowerOf2 b.draftTokenNum)) ?_ ?_
    List.nodup_range (List.mem_range.mpr hi) b.evictMask hj]
  · exact alignEvictMask_row h hi hj fun t ht => evictMask_apply h hi ht
  · intro mask bid x hx
    unfold alignEvictMaskToPageSize
    refine fill_outside ?_
    omega
  · intro mask mask' bid hsame t ht
    have hlanes : ∀ lane ∈ List.range (nextPowerOf2 b.draftTokenNum),
        (if lane < b.draftTokenNum then (mask (bid * b.draftTokenNum + lane)).toNat else 0) =
          if lane < b.draftTokenNum then (mask' (bid * b.draftTokenNum + lane)).toNat else 0 := by
      intro lane _
      split
      · next hlane => rw [hsame lane hlane]
      · rfl
    unfold alignEvictMaskToPageSize
    rw [List.map_congr_left hlanes, fill_apply, fill_apply, hsame t ht]

end Chain

section Pool

variable (h : b.Valid) {i j : Nat} (hi : i < b.bs) (hj : j < b.draftTokenNum)

include h hi hj

theorem outCacheLoc_div :
    b.outCacheLoc (i * b.draftTokenNum + j) / b.pageSize = b.alloc.page i j := by
  rw [outCacheLoc_eq h hi hj]
  exact (ExtendArgs.slot_div_mod h.alloc hi j).1

theorem rejected_congr {i' j' : Nat} (hi' : i' < b.bs) (hj' : j' < b.draftTokenNum)
    (hpage : b.outCacheLoc (i * b.draftTokenNum + j) / b.pageSize =
      b.outCacheLoc (i' * b.draftTokenNum + j') / b.pageSize) :
    b.Rejected i j ↔ b.Rejected i' j' := by
  rw [outCacheLoc_div h hi hj, outCacheLoc_div h hi' hj'] at hpage
  obtain ⟨rfl, hquot⟩ := ExtendArgs.page_inj h.alloc hi (by rwa [extendLen_eq h hi]) hi'
    (by rwa [extendLen_eq h hi']) hpage
  unfold Rejected
  rw [show (b.seqLen i + j) / b.pageSize = (b.seqLen i + j') / b.pageSize from hquot]

/-- A rejected slot lies on a page that was taken for this batch, so no older slot does. -/
theorem rejected_fresh (hrej : b.Rejected i j) :
    ∃ p ∈ b.alloc.freePages.take b.alloc.getNumNewPages,
      b.outCacheLoc (i * b.draftTokenNum + j) / b.pageSize = (p : Int) := by
  have hnew : numPages b.pageSize (b.seqLen i) * b.pageSize ≤ b.seqLen i + j := by
    refine Nat.le_trans ?_ ((rejected_iff h).mp hrej)
    exact Nat.mul_le_mul_right _ (numPages_mono h.pos (Nat.le_add_right _ _))
  have hlen : j < (b.alloc.req i).extendLen := by rwa [extendLen_eq h hi]
  have hidx := ExtendArgs.newPage_index h.alloc hi hlen (Nat.not_lt.mpr hnew)
  have hpage : b.alloc.page i j = b.alloc.freePage _ := if_neg (Nat.not_lt.mpr hnew)
  refine ⟨_, ?_, (outCacheLoc_div h hi hj).trans hpage⟩
  rw [ExtendArgs.mem_take_iff h.alloc]
  exact ⟨i, j, hi, hlen, hnew, hpage⟩

end Pool

theorem toFreeNumSlots_eq (i : Nat) : b.toFreeNumSlots i = b.seqLen i + b.draftTokenNum -
    min (numPages b.pageSize (b.seqLen i + (b.numAccepted i + 1)) * b.pageSize)
      (b.seqLen i + b.draftTokenNum) := rfl

section DFlash

variable (h : b.Valid) {i j : Nat}

include h

theorem computePagedKeepSlots_eq : b.computePagedKeepSlots =
    some ((List.range b.bs).map fun i => b.draftTokenNum - b.toFreeNumSlots i) := by
  unfold computePagedKeepSlots
  rw [if_neg (Nat.not_le.mpr h.paged)]
  refine congrArg some (List.map_congr_left fun i hi => ?_)
  have hacc := h.accepted i (List.mem_range.mp hi)
  have haligned : ((b.seqLen i : Int) + (b.numAccepted i + 1) + b.pageSize - 1) / b.pageSize *
      b.pageSize = (numPages b.pageSize (b.seqLen i + (b.numAccepted i + 1)) *
        b.pageSize : Nat) := by
    have hpos := h.pos
    rw [numPages, Int.natCast_mul, Int.natCast_ediv]
    congr 2
    omega
  have hle := le_numPages_mul h.pos (b.seqLen i + (b.numAccepted i + 1))
  dsimp only
  rw [haligned, toFreeNumSlots_eq]
  generalize numPages b.pageSize (b.seqLen i + (b.numAccepted i + 1)) * b.pageSize =
    aligned at hle ⊢
  omega

variable (hi : i < b.bs) (hj : j < b.draftTokenNum)

include hi hj

theorem rejected_iff_toFree : b.Rejected i j ↔ b.draftTokenNum - b.toFreeNumSlots i ≤ j := by
  have hacc := h.accepted i hi
  have hle := le_numPages_mul h.pos (b.seqLen i + (b.numAccepted i + 1))
  rw [rejected_iff h, toFreeNumSlots_eq]
  generalize numPages b.pageSize (b.seqLen i + (b.numAccepted i + 1)) * b.pageSize =
    aligned at hle ⊢
  omega

end DFlash

theorem laneSum_eq {bid : Nat} (hbid : bid ≤ b.bs) (f : Nat → Nat) :
    b.laneSum bid f = offset f bid := by
  have hle : bid ≤ nextPowerOf2 b.bs := Nat.le_trans hbid (ExtendArgs.le_nextPowerOf2 _)
  obtain ⟨d, hd⟩ := Nat.exists_eq_add_of_le hle
  unfold laneSum offset
  rw [hd, List.range_add, List.map_append, List.sum_append, List.map_map]
  have hleft : ((List.range bid).map fun lane => if lane < bid then f lane else 0) =
      (List.range bid).map f :=
    List.map_congr_left fun lane hlane => if_pos (List.mem_range.mp hlane)
  have hright : (List.range d).map ((fun lane => if lane < bid then f lane else 0) ∘ (bid + ·)) =
      (List.range d).map fun _ => 0 :=
    List.map_congr_left fun lane _ => if_neg (show ¬ bid + lane < bid by omega)
  rw [hleft, hright]
  simp

theorem offset_add_one (f : Nat → Nat) (n : Nat) :
    offset (fun i => f i + 1) n = offset f n + n := by
  induction n with
  | zero => rfl
  | succ n ih =>
      rw [offset_succ, offset_succ, ih]
      omega

/-- The window of `tgt_cache_loc` that belongs to a request. -/
def fillTarget (b : VerifyBatch) (m : Nat → Int) (i : Nat) : Nat → Int :=
  fill m (offset (b.numAccepted · + 1) i) (b.numAccepted i + 1) fun k =>
    b.outCacheLoc (i * b.draftTokenNum + k)

/-- The window of `to_free_slots` that belongs to a request. -/
def fillFree (b : VerifyBatch) (m : Nat → Int) (i : Nat) : Nat → Int :=
  fill m (offset b.toFreeNumSlots i) (b.toFreeNumSlots i) fun k =>
    b.outCacheLoc (i * b.draftTokenNum + (b.draftTokenNum - b.toFreeNumSlots i + k))

theorem toFreeNumSlots_le (h : b.Valid) {i : Nat} (hi : i < b.bs) :
    b.numAccepted i + 1 ≤ b.draftTokenNum - b.toFreeNumSlots i ∧
      b.toFreeNumSlots i ≤ b.draftTokenNum := by
  have hacc := h.accepted i hi
  have hle := le_numPages_mul h.pos (b.seqLen i + (b.numAccepted i + 1))
  rw [toFreeNumSlots_eq]
  omega

private theorem getTargetCacheLoc_eq (h : b.Valid) {bid : Nat} (hbid : bid < b.bs)
    (s : (Nat → Int) × (Nat → Int)) :
    b.getTargetCacheLoc s bid = (b.fillTarget s.1 bid, b.fillFree s.2 bid) := by
  have hupper := ExtendArgs.le_nextPowerOf2 b.draftTokenNum
  have hacc := h.accepted bid hbid
  have hfree := (toFreeNumSlots_le h hbid).2
  simp only [getTargetCacheLoc, fillTarget, fillFree]
  rw [laneSum_eq (Nat.le_of_lt hbid), laneSum_eq (Nat.le_of_lt hbid), maskedStore_eq,
    maskedStore_eq, Nat.min_eq_right (by omega), Nat.min_eq_right (by omega), offset_add_one]
  simp only [Nat.add_assoc]

theorem targetCacheLoc_eq (h : b.Valid) (s : (Nat → Int) × (Nat → Int)) : b.targetCacheLoc s =
    ((List.range b.bs).foldl b.fillTarget s.1, (List.range b.bs).foldl b.fillFree s.2) := by
  have hall : ∀ (l : List Nat), (∀ i ∈ l, i < b.bs) → ∀ s, l.foldl b.getTargetCacheLoc s =
      (l.foldl b.fillTarget s.1, l.foldl b.fillFree s.2) := by
    intro l hl
    induction l with
    | nil => exact fun s => rfl
    | cons i l ih =>
        intro s
        rw [List.foldl_cons, getTargetCacheLoc_eq h (hl i List.mem_cons_self),
          ih fun j hj => hl j (List.mem_cons_of_mem _ hj)]
        rfl
  exact hall _ (fun i hi => List.mem_range.mp hi) s

/-- The slots of the batch that a condition picks, request by request. -/
def slotsWhere (b : VerifyBatch) (p : Nat → Nat → Bool) : List Int :=
  (List.range b.bs).flatMap fun i =>
    ((List.range b.draftTokenNum).filter (p i)).map fun j =>
      b.outCacheLoc (i * b.draftTokenNum + j)

instance (b : VerifyBatch) (i j : Nat) : Decidable (b.Rejected i j) :=
  inferInstanceAs (Decidable (_ < _))

/-- The slots behind the last kept token, on its page. -/
def keptTail (b : VerifyBatch) (i j : Nat) : Bool :=
  decide (b.numAccepted i < j) &&
    (b.seqLen i + j) / b.pageSize == (b.seqLen i + b.numAccepted i) / b.pageSize

section Tree

variable (h : b.Valid)

include h

theorem map_target (s : (Nat → Int) × (Nat → Int)) :
    (List.range (offset (b.numAccepted · + 1) b.bs)).map (b.targetCacheLoc s).1 =
      b.slotsWhere fun i j => decide (j < b.numAccepted i + 1) := by
  rw [targetCacheLoc_eq h]
  unfold fillTarget slotsWhere
  rw [map_fill_windows]
  refine List.flatMap_congr fun i hi => ?_
  rw [filter_range_lt (h.accepted i (List.mem_range.mp hi))]

theorem map_toFree (s : (Nat → Int) × (Nat → Int)) :
    (List.range (offset b.toFreeNumSlots b.bs)).map (b.targetCacheLoc s).2 =
      b.slotsWhere fun i j => decide (b.Rejected i j) := by
  rw [targetCacheLoc_eq h]
  unfold fillFree slotsWhere
  rw [map_fill_windows]
  refine List.flatMap_congr fun i hi => ?_
  have hi := List.mem_range.mp hi
  have hle := (toFreeNumSlots_le h hi).2
  have hfilter : (List.range b.draftTokenNum).filter (fun j => decide (b.Rejected i j)) =
      (List.range b.draftTokenNum).filter
        fun j => decide (b.draftTokenNum - b.toFreeNumSlots i ≤ j) := by
    refine List.filter_congr fun j hj => ?_
    rw [decide_eq_decide]
    exact rejected_iff_toFree h hi (List.mem_range.mp hj)
  rw [hfilter, filter_range_ge (Nat.sub_le _ _), Nat.sub_sub_self hle, List.map_map]
  rfl

end Tree

/-- Two conditions that exclude each other pick apart what either picks. -/
theorem slotsWhere_append {p q r : Nat → Nat → Bool}
    (hor : ∀ i j, r i j = (p i j || q i j)) (hnot : ∀ i j, p i j = true → q i j = false) :
    (b.slotsWhere p ++ b.slotsWhere q).Perm (b.slotsWhere r) := by
  unfold slotsWhere
  refine (List.flatMap_append_perm _ _ _).trans (List.Perm.flatMap_left _ fun i _ => ?_)
  rw [← List.map_append]
  refine List.Perm.map _ ?_
  have hp : (List.range b.draftTokenNum).filter (p i) =
      ((List.range b.draftTokenNum).filter (r i)).filter (p i) := by
    rw [List.filter_filter]
    refine List.filter_congr fun j _ => ?_
    rw [hor]
    cases p i j <;> simp
  have hq : (List.range b.draftTokenNum).filter (q i) =
      ((List.range b.draftTokenNum).filter (r i)).filter (fun j => !p i j) := by
    rw [List.filter_filter]
    refine List.filter_congr fun j _ => ?_
    rw [hor]
    have hexcl := hnot i j
    cases hpij : p i j
    · simp
    · simp [hexcl hpij]
  rw [hp, hq]
  exact List.filter_append_perm _ _

theorem behind_eq (b : VerifyBatch) (i j : Nat) :
    decide (b.numAccepted i < j) = (b.keptTail i j || decide (b.Rejected i j)) := by
  unfold keptTail Rejected
  by_cases hj : b.numAccepted i < j
  · have hle : (b.seqLen i + b.numAccepted i) / b.pageSize ≤ (b.seqLen i + j) / b.pageSize :=
      Nat.div_le_div_right (by omega)
    rcases Nat.eq_or_lt_of_le hle with heq | hlt
    · simp [hj, heq]
    · simp [hj, hlt]
  · have hle : (b.seqLen i + j) / b.pageSize ≤ (b.seqLen i + b.numAccepted i) / b.pageSize :=
      Nat.div_le_div_right (by omega)
    simp [hj, Nat.not_lt.mpr hle]

theorem keptTail_not_rejected (b : VerifyBatch) (i j : Nat) (hkept : b.keptTail i j = true) :
    decide (b.Rejected i j) = false := by
  unfold keptTail at hkept
  rw [Bool.and_eq_true, beq_iff_eq] at hkept
  refine decide_eq_false fun hrej => ?_
  unfold Rejected at hrej
  rw [hkept.2] at hrej
  exact Nat.lt_irrefl _ hrej

private theorem slotsWhere_true (b : VerifyBatch) :
    b.slotsWhere (fun _ _ => true) = (List.range (b.bs * b.draftTokenNum)).map b.outCacheLoc := by
  unfold slotsWhere
  simp only [List.filter_true]
  exact map_range_mul _ _ _

/-- Targets, kept tails and freed slots make up the slots of the batch. -/
theorem slotsWhere_partition (b : VerifyBatch) :
    (b.slotsWhere (fun i j => decide (j < b.numAccepted i + 1)) ++ b.slotsWhere b.keptTail ++
      b.slotsWhere fun i j => decide (b.Rejected i j)).Perm
        ((List.range (b.bs * b.draftTokenNum)).map b.outCacheLoc) := by
  have hbehind : (b.slotsWhere b.keptTail ++ b.slotsWhere fun i j => decide (b.Rejected i j)).Perm
      (b.slotsWhere fun i j => decide (b.numAccepted i < j)) :=
    slotsWhere_append b.behind_eq b.keptTail_not_rejected
  have hall : (b.slotsWhere (fun i j => decide (j < b.numAccepted i + 1)) ++
      b.slotsWhere fun i j => decide (b.numAccepted i < j)).Perm
        (b.slotsWhere fun _ _ => true) := by
    refine slotsWhere_append (fun i j => ?_) fun i j hj => ?_
    · by_cases hj : b.numAccepted i < j
      · simp [hj]
      · simp [show j < b.numAccepted i + 1 by omega]
    · simp only [decide_eq_true_eq, decide_eq_false_iff_not] at hj ⊢
      omega
  rw [List.append_assoc, ← slotsWhere_true]
  exact (hbehind.append_left _).trans hall

theorem outCacheLoc_nodup (h : b.Valid) :
    ((List.range (b.bs * b.draftTokenNum)).map b.outCacheLoc).Nodup := by
  have hsum : (b.alloc.reqs.map (·.extendLen)).sum = b.bs * b.draftTokenNum := by
    rw [← before_extendLen h (Nat.le_refl _)]
    exact ExtendArgs.before_length.symm
  refine List.Nodup.map_on (fun x hx y hy heq => ?_) List.nodup_range
  rw [List.mem_range, ← hsum] at hx hy
  exact ExtendArgs.allocExtendNaive_inj h.alloc _ hx hy heq

/-- What freeing the rejected slots of a batch means. -/
structure FreesRejected (b : VerifyBatch) : Prop where
  /-- The mask of a chain frees exactly the slots on pages behind the last kept token's. -/
  evicted : ∀ i j, i < b.bs → j < b.draftTokenNum →
    (b.alignedEvictMask (i * b.draftTokenNum + j) = true ↔ b.Rejected i j)
  /-- Every page of the pool is freed completely or not at all. -/
  whole : ∀ i j i' j', i < b.bs → j < b.draftTokenNum → i' < b.bs → j' < b.draftTokenNum →
    b.outCacheLoc (i * b.draftTokenNum + j) / b.pageSize =
      b.outCacheLoc (i' * b.draftTokenNum + j') / b.pageSize → (b.Rejected i j ↔ b.Rejected i' j')
  /-- Only pages that were taken for this batch are freed. -/
  fresh : ∀ i j, i < b.bs → j < b.draftTokenNum → b.Rejected i j →
    ∃ p ∈ b.alloc.freePages.take b.alloc.getNumNewPages,
      b.outCacheLoc (i * b.draftTokenNum + j) / b.pageSize = (p : Int)
  /-- DFlash keeps exactly the other slots. -/
  dflash : ∃ keepSlots, b.computePagedKeepSlots = some keepSlots ∧
    ∀ i j, i < b.bs → j < b.draftTokenNum → (j < keepSlots.getD i 0 ↔ ¬ b.Rejected i j)
  /-- The accepted tokens of a tree go to the first slots of their request. -/
  target : ∀ s, (List.range (offset (b.numAccepted · + 1) b.bs)).map (b.targetCacheLoc s).1 =
    b.slotsWhere fun i j => decide (j < b.numAccepted i + 1)
  toFree : ∀ s, (List.range (offset b.toFreeNumSlots b.bs)).map (b.targetCacheLoc s).2 =
    b.slotsWhere fun i j => decide (b.Rejected i j)
  /-- Targets, kept tails of last pages and freed slots are all the slots, each once. -/
  partition : ∀ s,
    ((List.range (offset (b.numAccepted · + 1) b.bs)).map (b.targetCacheLoc s).1 ++
      b.slotsWhere b.keptTail ++
      (List.range (offset b.toFreeNumSlots b.bs)).map (b.targetCacheLoc s).2).Perm
        ((List.range (b.bs * b.draftTokenNum)).map b.outCacheLoc)
  nodup : ((List.range (b.bs * b.draftTokenNum)).map b.outCacheLoc).Nodup

/-- The three ways to free the slots of a verified batch free those of the rejected drafts once and
no other slot, page by page. The slots are as the allocator gave them out. -/
theorem frees_rejected (h : b.Valid) : b.FreesRejected where
  evicted i j hi hj := alignedEvictMask_iff h hi hj
  whole i j i' j' hi hj hi' hj' hpage := rejected_congr h hi hj hi' hj' hpage
  fresh i j hi hj hrej := rejected_fresh h hi hj hrej
  dflash := by
    refine ⟨_, computePagedKeepSlots_eq h, fun i j hi hj => ?_⟩
    rw [rejected_iff_toFree h hi hj, Nat.not_le]
    simp [hi]
  target := map_target h
  toFree := map_toFree h
  partition s := by
    rw [map_target h, map_toFree h]
    exact b.slotsWhere_partition
  nodup := outCacheLoc_nodup h

/-- A request in the middle of a page that keeps two of six tokens, and one that keeps all. -/
def twoRequests : VerifyBatch :=
  ⟨⟨4, [⟨5, 11, 12⟩, ⟨4, 10, 3⟩], [8, 2, 5, 7]⟩, 6, [1, 5]⟩

theorem frees_twoRequests : twoRequests.FreesRejected ∧ twoRequests.Rejected 0 3 ∧
    ¬ twoRequests.Rejected 1 5 := by
  refine ⟨frees_rejected ⟨?_, by decide, by decide, by decide⟩, by decide, by decide⟩
  refine ⟨by decide, by decide, by decide, by decide, fun i hi hpos => ?_, by decide, by decide⟩
  match i, hi with
  | 0, _ => exact ⟨3, by decide⟩
  | 1, _ => exact ⟨0, by decide⟩

end VerifyBatch

end SpecDecode.Eagle
