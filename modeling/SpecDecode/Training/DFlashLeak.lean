import SpecDecode.Training.DFlashModel

/-!
# Training blocks do not see the tokens they predict

What a query of a kept block attends to depends on the anchor's token and on the hidden states
in front of the anchor only. Two batches that agree there are alike for the block, whatever the
rest of them, the other anchors and the place of the block among them. What the block is trained
on lies behind the anchor.
-/

namespace SpecDecode.Training.DFlash

open Ragged

variable {H : Type}

structure WellSampled (m : OnlineDFlashModel) (x : Sampled H) : Prop where
  hiddenStates_length : x.row.hiddenStates.length = x.row.inputIds.length
  fits : x.row.inputIds.length - m.blockSize + 1 ≤ x.row.inputIds.length
  sampled : ∃ kept, SampledRow (x.row.inputIds.length - m.blockSize) x.row.lossMask
    x.anchorPositions x.blockKeepMask kept

theorem sample_wellSampled {m : OnlineDFlashModel} {batch : Batch H}
    {draw : Draw (batch.seqLen - m.blockSize + 1) (m.validRows batch)} {xs : List (Sampled H)}
    (h : m.sample batch draw = .ok xs) {x : Sampled H} (hx : x ∈ xs) : WellSampled m x := by
  unfold OnlineDFlashModel.sample at h
  cases hsample : sampleAnchorPositions m.blockSize m.numAnchors batch.seqLen
      (batch.rows.map Row.lossMask) draw with
  | error e => rw [hsample] at h; cases h
  | ok anchors =>
      rw [hsample] at h
      cases h
      obtain ⟨b, hb⟩ := List.mem_iff_getElem?.mp hx
      obtain ⟨row, a, hrow, ha, rfl⟩ := List.getElem?_zipWith_eq_some.mp hb
      obtain ⟨mask, kept, hmask, hfits, hkept⟩ := sampleAnchorPositions_sampled hsample ha
      rw [List.getElem?_map, hrow, Option.map_some, Option.some_inj] at hmask
      subst hmask
      have hmem := List.mem_of_getElem? hrow
      have hlen := batch.inputIds_length row hmem
      refine ⟨?_, ?_, kept, ?_⟩
      · rw [batch.hiddenStates_length row hmem, hlen]
      · rw [batch.lossMask_length row hmem] at hfits
        rwa [hlen]
      · rw [hlen]
        exact hkept

/-- Block `j` was kept and starts at `a`. -/
structure KeptBlock (x : Sampled H) (j a : Nat) : Prop where
  anchor : x.anchorPositions[j]? = some a
  keep : x.blockKeepMask[j]? = some true

namespace SampledRow

variable {maxAnchor : Nat} {lossMask : List ℚ} {anchors : List Nat} {keepMask : List Bool}
  {kept : List Nat} (h : SampledRow maxAnchor lossMask anchors keepMask kept)

include h

theorem getElem?_kept {j : Nat} (hj : keepMask[j]? = some true) :
    ∃ a, kept[j]? = some a ∧ anchors[j]? = some a := by
  have hlt : j < kept.length := by
    by_contra hge
    rw [h.keepMask_eq, List.getElem?_append_right (by rw [List.length_replicate]; omega)] at hj
    exact Bool.false_ne_true (List.eq_of_mem_replicate (List.mem_of_getElem? hj)).symm
  refine ⟨kept[j], List.getElem?_eq_getElem hlt, ?_⟩
  rw [h.anchors_eq, List.getElem?_append_left hlt, List.getElem?_eq_getElem hlt]

theorem keepMask_below {i j : Nat} (hij : i < j) (hj : keepMask[j]? = some true) :
    keepMask[i]? = some true := by
  obtain ⟨a, ha, -⟩ := h.getElem?_kept hj
  have hlt := (List.getElem?_eq_some_iff.mp ha).1
  rw [h.keepMask_eq, List.getElem?_append_left (by rw [List.length_replicate]; omega),
    List.getElem?_replicate, if_pos (by omega)]

end SampledRow

namespace WellSampled

variable {m : OnlineDFlashModel} {x : Sampled H} (h : WellSampled m x)

include h

/-- The anchor of a kept block is selected by the loss mask, and a whole block fits behind it. -/
theorem anchor_selected {j a : Nat} (hj : KeptBlock x j a) :
    a ≤ x.row.inputIds.length - m.blockSize ∧
      ∃ w, x.row.lossMask[a]? = some w ∧ 1 / 2 < w := by
  obtain ⟨kept, hkept⟩ := h.sampled
  obtain ⟨a', hkeptj, ha'⟩ := hkept.getElem?_kept hj.keep
  obtain rfl : a = a' := Option.some_inj.mp (hj.anchor.symm.trans ha')
  have hmem := List.mem_of_getElem? hkeptj
  exact ⟨hkept.bound a hmem, hkept.selected a hmem⟩

theorem anchor_lt {j a : Nat} (hj : KeptBlock x j a) : a < x.row.inputIds.length := by
  have hbound := (h.anchor_selected hj).1
  have hfits := h.fits
  omega

theorem anchors_ascend {i j : Nat} (hij : i < j) (hj : x.blockKeepMask[j]? = some true) :
    ∃ a a', KeptBlock x i a ∧ KeptBlock x j a' ∧ a < a' := by
  obtain ⟨kept, hkept⟩ := h.sampled
  have hi := hkept.keepMask_below hij hj
  obtain ⟨a, ha, hanchor⟩ := hkept.getElem?_kept hi
  obtain ⟨a', ha', hanchor'⟩ := hkept.getElem?_kept hj
  obtain ⟨hlt, rfl⟩ := List.getElem?_eq_some_iff.mp ha
  obtain ⟨hlt', rfl⟩ := List.getElem?_eq_some_iff.mp ha'
  exact ⟨_, _, ⟨hanchor, hi⟩, ⟨hanchor', hj⟩,
    List.pairwise_iff_getElem.mp hkept.ascending i j hlt hlt' hij⟩

end WellSampled

theorem getElem?_foldl_set {α : Type} {w : Nat} (starts : Nat → α) (mask : α) {n j k : Nat}
    (hj : j < n) (hk : k < w) : ∀ count, count ≤ n →
    ((List.range count).foldl (fun ids j => ids.set (j * w) (starts j))
      (List.replicate (n * w) mask))[j * w + k]? =
        some (if k = 0 ∧ j < count then starts j else mask) := by
  have hlt : j * w + k < n * w := by
    have hle := Nat.mul_le_mul_right w hj
    rw [Nat.succ_mul] at hle
    omega
  intro count
  induction count with
  | zero =>
      intro _
      rw [List.range_zero, List.foldl_nil, List.getElem?_replicate, if_pos hlt, if_neg (by omega)]
  | succ count ih =>
      intro hle
      have hlength : ∀ l : List Nat, (l.foldl (fun ids j => ids.set (j * w) (starts j))
          (List.replicate (n * w) mask)).length = n * w := by
        intro l
        induction l using List.reverseRecOn with
        | nil => simp
        | append_singleton l i ih => simpa [List.foldl_append] using ih
      rw [List.range_succ, List.foldl_append, List.foldl_cons, List.foldl_nil, List.getElem?_set,
        hlength, ih (Nat.le_of_succ_le hle)]
      by_cases hcell : count * w = j * w + k
      · obtain ⟨rfl, rfl⟩ : count = j ∧ k = 0 := by
          have hdiv : count * w / w = (j * w + k) / w := by rw [hcell]
          rw [Nat.mul_div_cancel _ (by omega), Nat.mul_comm, Nat.mul_add_div (by omega),
            Nat.div_eq_of_lt hk] at hdiv
          subst hdiv
          exact ⟨rfl, by omega⟩
        rw [if_pos hcell, if_pos (by omega), if_pos (by omega)]
      · rw [if_neg hcell]
        have hsame : (k = 0 ∧ j < count) ↔ (k = 0 ∧ j < count + 1) := by
          refine and_congr_right fun hk0 => ?_
          have hne : count ≠ j := by
            rintro rfl
            exact hcell (by omega)
          omega
        simp only [hsame]

namespace KeptBlock

variable {m : OnlineDFlashModel} {x : Sampled H} {j a : Nat} (hj : KeptBlock x j a)

include hj

theorem lt_length : j < x.anchorPositions.length := (List.getElem?_eq_some_iff.mp hj.anchor).1

/-- A kept block holds its anchor's token and mask tokens behind it. -/
theorem getElem?_noiseIds (h : WellSampled m x) {k : Nat} (hk : k < m.blockSize) :
    (m.noiseIds x)[j * m.blockSize + k]? =
      some (if k = 0 then x.row.inputIds.getD a 0 else m.maskTokenId) := by
  have hlt := h.anchor_lt hj
  have hstart : (x.blockKeepMask.zipWith (fun keep token => if keep then token else m.maskTokenId)
      ((x.anchorPositions.map (min · (x.row.inputIds.length - 1))).map fun a =>
        x.row.inputIds.getD a 0)).getD j m.maskTokenId = x.row.inputIds.getD a 0 := by
    have hclamp : min a (x.row.inputIds.length - 1) = a := by omega
    rw [List.getD_eq_getElem?_getD, List.getElem?_zipWith, hj.keep, List.getElem?_map,
      List.getElem?_map, hj.anchor]
    simp [hclamp]
  unfold OnlineDFlashModel.noiseIds
  simp only []
  rw [getElem?_foldl_set (fun j => (x.blockKeepMask.zipWith
    (fun keep token => if keep then token else m.maskTokenId)
      ((x.anchorPositions.map (min · (x.row.inputIds.length - 1))).map fun a =>
        x.row.inputIds.getD a 0)).getD j m.maskTokenId) m.maskTokenId hj.lt_length hk _ le_rfl]
  simp only [hj.lt_length, and_true, hstart]

private theorem getElem?_createPositionIds {k : Nat} (hk : k < m.blockSize) :
    (m.createPositionIds x.anchorPositions)[j * m.blockSize + k]? = some (a + k) := by
  unfold OnlineDFlashModel.createPositionIds
  rw [getElem?_flatMap_width (fun c => by simp) _ hk, hj.anchor]
  simp [hk]

/-- The query at place `k` of a block stands `k` behind the anchor. -/
theorem queryPosition_eq {k : Nat} (hk : k < m.blockSize) :
    m.queryPosition x (j * m.blockSize + k) = some (a + k) := by
  unfold OnlineDFlashModel.queryPosition OnlineDFlashModel.fullPositionIds
  rw [List.getElem?_append_right (by simp), List.length_range, Nat.add_sub_cancel_left]
  exact hj.getElem?_createPositionIds hk

/-- The keys that the query sees, whichever way the mask is built. -/
theorem filter_attentionMask (h : WellSampled m x) {t : Nat} (ht : t < m.blockSize) :
    (List.range (x.row.inputIds.length + x.anchorPositions.length * m.blockSize)).filter
        (m.attentionMask x (j * m.blockSize + t)) =
      List.range a ++
        (List.range m.blockSize).map (x.row.inputIds.length + j * m.blockSize + ·) := by
  rw [← visible_eq hj.anchor hj.keep ht (Nat.le_of_lt (h.anchor_lt hj))]
  refine List.filter_congr fun kvIdx _ => ?_
  unfold OnlineDFlashModel.attentionMask
  split
  · refine dflashMaskMod_eq ?_ kvIdx
    have hle := Nat.mul_le_mul_right m.blockSize hj.lt_length
    rw [Nat.succ_mul] at hle
    omega
  · rfl

/-- What it attends to: the hidden states in front of the anchor and its own block. -/
theorem attended_eq {β : Type} (h : WellSampled m x) (noise : List β) {t : Nat}
    (ht : t < m.blockSize) : m.attended x noise (j * m.blockSize + t) =
      ((List.range a).map fun i => ((x.row.hiddenStates[i]?).map Sum.inl, some i)) ++
        (List.range m.blockSize).map fun k =>
          ((noise[j * m.blockSize + k]?).map Sum.inr, some (a + k)) := by
  have hlt := h.anchor_lt hj
  unfold OnlineDFlashModel.attended
  simp only []
  rw [hj.filter_attentionMask h ht, List.map_append, List.map_map]
  congr 1
  · refine List.map_congr_left fun i hi => ?_
    have hi : i < x.row.inputIds.length := Nat.lt_trans (List.mem_range.mp hi) hlt
    have hkey : i < (x.row.hiddenStates.map (Sum.inl : H → H ⊕ β)).length := by
      rwa [List.length_map, h.hiddenStates_length]
    rw [List.getElem?_append_left hkey, List.getElem?_map, OnlineDFlashModel.fullPositionIds,
      List.getElem?_append_left (by rwa [List.length_range]), List.getElem?_range hi]
  · refine List.map_congr_left fun k hk => ?_
    have hkeys : (x.row.hiddenStates.map (Sum.inl : H → H ⊕ β)).length = x.row.inputIds.length := by
      rw [List.length_map, h.hiddenStates_length]
    rw [Function.comp_apply, Nat.add_assoc, List.getElem?_append_right (by omega), hkeys,
      Nat.add_sub_cancel_left, List.getElem?_map]
    exact congrArg _ (hj.queryPosition_eq (List.mem_range.mp hk))

end KeptBlock

/-- Block `j` of `x` and block `j'` of `y` start at the same anchor, and the sequences agree as
far as the blocks may know them. -/
structure SamePast (x y : Sampled H) (j j' a : Nat) : Prop where
  left : KeptBlock x j a
  right : KeptBlock y j' a
  inputIds : x.row.inputIds.take (a + 1) = y.row.inputIds.take (a + 1)
  hiddenStates : x.row.hiddenStates.take a = y.row.hiddenStates.take a

namespace SamePast

variable {m : OnlineDFlashModel} {x y : Sampled H} {j j' a : Nat} (h : SamePast x y j j' a)
  (hx : WellSampled m x) (hy : WellSampled m y)

include h hx hy

theorem noiseIds_eq {k : Nat} (hk : k < m.blockSize) :
    (m.noiseIds x)[j * m.blockSize + k]? = (m.noiseIds y)[j' * m.blockSize + k]? := by
  have hget : x.row.inputIds[a]? = y.row.inputIds[a]? := by
    rw [← List.getElem?_take_of_lt (Nat.lt_succ_self a), h.inputIds,
      List.getElem?_take_of_lt (Nat.lt_succ_self a)]
  rw [h.left.getElem?_noiseIds hx hk, h.right.getElem?_noiseIds hy hk,
    List.getD_eq_getElem?_getD, List.getD_eq_getElem?_getD, hget]

/-- Where the tokens of the two blocks are alike, so is what they attend to. -/
theorem attended_eq {β : Type} {noise noise' : List β} (hnoise : ∀ k, k < m.blockSize →
      noise[j * m.blockSize + k]? = noise'[j' * m.blockSize + k]?)
    {t : Nat} (ht : t < m.blockSize) :
    m.attended x noise (j * m.blockSize + t) = m.attended y noise' (j' * m.blockSize + t) := by
  rw [h.left.attended_eq hx noise ht, h.right.attended_eq hy noise' ht]
  congr 1
  · refine List.map_congr_left fun i hi => ?_
    have hi := List.mem_range.mp hi
    rw [← List.getElem?_take_of_lt hi, h.hiddenStates, List.getElem?_take_of_lt hi]
  · refine List.map_congr_left fun k hk => ?_
    rw [hnoise k (List.mem_range.mp hk)]

omit hx hy in
theorem queryPosition_eq {k : Nat} (hk : k < m.blockSize) :
    m.queryPosition x (j * m.blockSize + k) = m.queryPosition y (j' * m.blockSize + k) := by
  rw [h.left.queryPosition_eq hk, h.right.queryPosition_eq hk]

private theorem layerStep_eq {β : Type} (layer : OnlineDFlashModel.Layer H β)
    {states states' : List β}
    (hstates : ∀ k, k < m.blockSize →
      states[j * m.blockSize + k]? = states'[j' * m.blockSize + k]?)
    {k : Nat} (hk : k < m.blockSize) :
    (m.layerStep x states layer)[j * m.blockSize + k]? =
      (m.layerStep y states' layer)[j' * m.blockSize + k]? := by
  unfold OnlineDFlashModel.layerStep
  rw [List.getElem?_map, List.getElem?_map, List.getElem?_zipIdx, List.getElem?_zipIdx,
    hstates k hk, Option.map_map, Option.map_map]
  refine congrArg (Option.map · _) (funext fun state => ?_)
  simp only [Function.comp_apply, Nat.zero_add, h.queryPosition_eq hk,
    h.attended_eq hx hy hstates hk]

/-- The draft model makes the same of the two blocks, however many layers it has. -/
theorem draftHidden_eq {β : Type} (embedTokens : Int → β)
    (layers : List (OnlineDFlashModel.Layer H β)) {k : Nat} (hk : k < m.blockSize) :
    (m.draftHidden embedTokens layers x)[j * m.blockSize + k]? =
      (m.draftHidden embedTokens layers y)[j' * m.blockSize + k]? := by
  unfold OnlineDFlashModel.draftHidden
  induction layers using List.reverseRecOn generalizing k with
  | nil =>
      rw [List.foldl_nil, List.foldl_nil, List.getElem?_map, List.getElem?_map,
        h.noiseIds_eq hx hy hk]
  | append_singleton layers layer ih =>
      rw [List.foldl_append, List.foldl_append]
      exact h.layerStep_eq hx hy layer (fun k hk => ih hk) hk

end SamePast

theorem targetId_behind {m : OnlineDFlashModel} {x : Sampled H} (h : WellSampled m x) {j k : Nat}
    (hweight : m.weightMask x j k ≠ 0) : ∃ a i, KeptBlock x j a ∧ a < i ∧
      i < x.row.inputIds.length ∧
        OnlineDFlashModel.targetId x j k = x.row.inputIds[i]? := by
  simp only [OnlineDFlashModel.weightMask, ne_eq, mul_eq_zero, not_or, ite_eq_right_iff,
    one_ne_zero, imp_false, not_not] at hweight
  obtain ⟨⟨⟨⟨hkeep, hbound⟩, hk⟩, -⟩, -⟩ := hweight
  have hkeep : x.blockKeepMask[j]? = some true := by
    rw [List.getD_eq_getElem?_getD] at hkeep
    cases hcell : x.blockKeepMask[j]? with
    | none => rw [hcell] at hkeep; cases hkeep
    | some keep => rw [hcell, Option.getD_some] at hkeep; rw [hkeep]
  obtain ⟨kept, hkept⟩ := h.sampled
  obtain ⟨a, -, hanchor⟩ := hkept.getElem?_kept hkeep
  have hlabel : OnlineDFlashModel.labelIndex x j k = a + k := by
    rw [OnlineDFlashModel.labelIndex, List.getD_eq_getElem?_getD, hanchor, Option.getD_some]
  rw [hlabel] at hbound
  refine ⟨a, a + k, ⟨hanchor, hkeep⟩, by omega, hbound, ?_⟩
  rw [OnlineDFlashModel.targetId, OnlineDFlashModel.safeLabelIndex, hlabel,
    Nat.min_eq_left (by omega)]

/-- Nothing that a kept block is trained on is visible to it: what it attends to, and so what any
draft model makes of it, is the same in every batch with the same past, and the tokens it is trained
on lie behind the anchor. -/
theorem training_never_leaks {m : OnlineDFlashModel} {batch batch' : Batch H}
    {draw : Draw (batch.seqLen - m.blockSize + 1) (m.validRows batch)}
    {draw' : Draw (batch'.seqLen - m.blockSize + 1) (m.validRows batch')}
    {xs ys : List (Sampled H)} (hxs : m.sample batch draw = .ok xs)
    (hys : m.sample batch' draw' = .ok ys) {x y : Sampled H} (hx : x ∈ xs) (hy : y ∈ ys) :
    (∀ i j, i < j → x.blockKeepMask[j]? = some true →
        ∃ a a', KeptBlock x i a ∧ KeptBlock x j a' ∧ a < a') ∧
      (∀ j a, KeptBlock x j a → a ≤ x.row.inputIds.length - m.blockSize ∧
        ∃ w, x.row.lossMask[a]? = some w ∧ 1 / 2 < w) ∧
      (∀ qIdx kvIdx, qIdx < x.anchorPositions.length * m.blockSize →
        dflashMaskMod x.anchorPositions x.blockKeepMask x.row.inputIds.length m.blockSize qIdx
            kvIdx =
          createDflashSdpaMask x.anchorPositions x.blockKeepMask x.row.inputIds.length m.blockSize
            qIdx kvIdx) ∧
      (∀ j j' a, SamePast x y j j' a → ∀ t, t < m.blockSize →
        (m.noiseIds x)[j * m.blockSize + t]? = (m.noiseIds y)[j' * m.blockSize + t]? ∧
        m.attended x (m.noiseIds x) (j * m.blockSize + t) =
          m.attended y (m.noiseIds y) (j' * m.blockSize + t) ∧
        m.queryPosition x (j * m.blockSize + t) = m.queryPosition y (j' * m.blockSize + t) ∧
        ∀ (β : Type) (embedTokens : Int → β) (layers : List (OnlineDFlashModel.Layer H β)),
          (m.draftHidden embedTokens layers x)[j * m.blockSize + t]? =
            (m.draftHidden embedTokens layers y)[j' * m.blockSize + t]?) ∧
      (∀ j k, m.weightMask x j k ≠ 0 → ∃ a i, KeptBlock x j a ∧ a < i ∧
        i < x.row.inputIds.length ∧ OnlineDFlashModel.targetId x j k = x.row.inputIds[i]?) := by
  have hwx := sample_wellSampled hxs hx
  have hwy := sample_wellSampled hys hy
  refine ⟨fun i j hij hj => hwx.anchors_ascend hij hj, fun j a hj => hwx.anchor_selected hj,
    fun qIdx kvIdx hq => dflashMaskMod_eq hq kvIdx, ?_, fun j k hk => targetId_behind hwx hk⟩
  intro j j' a hpast t ht
  exact ⟨hpast.noiseIds_eq hwx hwy ht,
    hpast.attended_eq hwx hwy (fun k hk => hpast.noiseIds_eq hwx hwy hk) ht,
    hpast.queryPosition_eq ht,
    fun _ embedTokens layers => hpast.draftHidden_eq hwx hwy embedTokens layers ht⟩

/-- Five tokens in blocks of two. -/
def smallModel : OnlineDFlashModel := ⟨2, -1, 2, true, none⟩

def smallBatch (ids hidden : List Nat) (hids : ids.length = 5) (hhidden : hidden.length = 5) :
    Batch Nat where
  seqLen := 5
  rows := [⟨ids.map Int.ofNat, hidden, [1, 1, 1, 1, 1]⟩]
  inputIds_length := by simpa using hids
  hiddenStates_length := by simpa using hhidden
  lossMask_length := by simp

def smallDraw (ids hidden : List Nat) (hids : ids.length = 5) (hhidden : hidden.length = 5) :
    Draw 4 (smallModel.validRows (smallBatch ids hidden hids hhidden)) where
  rand := fun _ _ => 0
  sortedIdx := fun _ => [2, 0, 3, 1]
  rand_lt_one := fun _ _ => zero_lt_one
  argsort := by
    intro b row hrow
    have hmem := List.mem_of_getElem? hrow
    have hrow : row = [true, true, true, true] := by
      refine (List.mem_singleton.mp hmem).trans ?_
      change validPositions [1, 1, 1, 1, 1] 3 = _
      decide +kernel
    subst hrow
    exact ⟨by decide, by decide +kernel⟩

theorem training_never_leaks_small :
    smallModel.attended
        ⟨⟨[1, 2, 3, 4, 5], [10, 11, 12, 13, 14], [1, 1, 1, 1, 1]⟩, [0, 2], [true, true]⟩
        [1, -1, 3, -1] 3 =
      smallModel.attended
        ⟨⟨[1, 2, 3, 9, 9], [10, 11, 0, 0, 0], [1, 1, 1, 1, 1]⟩, [0, 2], [true, true]⟩
        [1, -1, 3, -1] 3 := by
  have h := training_never_leaks
    (x := ⟨⟨[1, 2, 3, 4, 5], [10, 11, 12, 13, 14], [1, 1, 1, 1, 1]⟩, [0, 2], [true, true]⟩)
    (y := ⟨⟨[1, 2, 3, 9, 9], [10, 11, 0, 0, 0], [1, 1, 1, 1, 1]⟩, [0, 2], [true, true]⟩)
    (m := smallModel)
    (show smallModel.sample (smallBatch [1, 2, 3, 4, 5] [10, 11, 12, 13, 14] rfl rfl)
      (smallDraw _ _ rfl rfl) = .ok [_] by decide +kernel)
    (show smallModel.sample (smallBatch [1, 2, 3, 9, 9] [10, 11, 0, 0, 0] rfl rfl)
      (smallDraw _ _ rfl rfl) = .ok [_] by decide +kernel)
    List.mem_cons_self List.mem_cons_self
  exact (h.2.2.2.1 1 1 2 ⟨⟨rfl, rfl⟩, ⟨rfl, rfl⟩, rfl, rfl⟩ 1 (by decide)).2.1

end SpecDecode.Training.DFlash
