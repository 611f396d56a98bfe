import Mathlib.Algebra.Order.Ring.Int
import Mathlib.Algebra.Order.Ring.Rat
import Mathlib.Data.List.Induction
import Mathlib.Data.List.Sort
import Mathlib.Tactic.Common
import Mathlib.Tactic.Linarith

/-!
# Anchors of the DFlash training blocks

Every row of a batch draws the starts of its blocks among the positions that its loss mask
selects. Positions that are not selected take part in the draw with a value behind all others,
and what is drawn of them is dropped again by the keep mask.
-/

namespace SpecDecode.Training.DFlash

inductive SampleError where
  | valueError (message : String)
  | runtimeError
deriving DecidableEq

/-- `loss_mask[b, :max_anchor + 1] > 0.5`. -/
def validPositions (lossMask : List ℚ) (maxAnchor : Nat) : List Bool :=
  (lossMask.take (maxAnchor + 1)).map fun x => decide (1 / 2 < x)

def randomVals (valid : List Bool) (rand : Nat → ℚ) (i : Nat) : ℚ :=
  if valid.getD i false then rand i else 2

structure IsArgsort (n : Nat) (vals : Nat → ℚ) (sortedIdx : List Nat) : Prop where
  perm : sortedIdx.Perm (List.range n)
  ascending : sortedIdx.Pairwise fun i j => vals i ≤ vals j

/-- The random values of a batch and the order in which they were sorted. -/
structure Draw (n : Nat) (valid : List (List Bool)) where
  rand : Nat → Nat → ℚ
  sortedIdx : Nat → List Nat
  rand_lt_one : ∀ b i, rand b i < 1
  argsort : ∀ b row, valid[b]? = some row →
    IsArgsort n (randomVals row (rand b)) (sortedIdx b)

def sampleRow (seqLen maxN : Nat) (valid : List Bool) (sortedIdx : List Nat) :
    List Nat × List Bool :=
  let maskedIndices := fun i => if valid.getD i false then i else seqLen + 1
  let gathered := sortedIdx.map maskedIndices
  let anchors := (gathered.take maxN).insertionSort (· ≤ ·)
  let keepMask := (List.range maxN).map fun j => decide (j < min (valid.count true) maxN)
  (anchors.zipWith (fun a keep => if keep then a else 0) keepMask, keepMask)

def sampleAnchorPositions (blockSize numAnchors seqLen : Nat) (lossMask : List (List ℚ))
    (draw : Draw (seqLen - blockSize + 1)
      (lossMask.map (validPositions · (seqLen - blockSize)))) :
    Except SampleError (List (List Nat × List Bool)) :=
  let maxAnchor := seqLen - blockSize
  let valid := lossMask.map (validPositions · maxAnchor)
  match (valid.map (List.count true)).max? with
  | none => .error .runtimeError
  | some most =>
      let maxN : Int := min numAnchors ((most : Int) - 1)
      if maxN ≤ 0 then .error (.valueError "should preprocess the data.")
      -- `where` does not broadcast a slice that is shorter than `max_anchor + 1`.
      else if valid.any (·.length != maxAnchor + 1) then .error .runtimeError
      else
        .ok (valid.zipIdx.map fun row => sampleRow seqLen maxN.toNat row.1 (draw.sortedIdx row.2))

/-- A list in which nothing that `p` selects stands behind something else. -/
theorem eq_filter_append {α : Type} {p : α → Bool} {l : List α}
    (h : l.Pairwise fun a b => p b = true → p a = true) :
    l = l.filter p ++ l.filter fun a => !p a := by
  induction h with
  | nil => rfl
  | @cons a l hhead _ ih =>
      by_cases ha : p a = true
      · simpa [ha] using ih
      · have hnone : l.filter p = [] := by
          rw [List.filter_eq_nil_iff]
          exact fun b hb hpb => ha (hhead b hb hpb)
        rw [hnone, List.nil_append] at ih
        rw [List.filter_cons_of_neg ha, hnone, List.filter_cons_of_pos (by simpa using ha), ← ih]
        rfl

theorem count_true_eq (valid : List Bool) :
    valid.count true = ((List.range valid.length).filter (valid.getD · false)).length := by
  induction valid using List.reverseRecOn with
  | nil => rfl
  | append_singleton l x ih =>
      have hsame : (List.range l.length).filter ((l ++ [x]).getD · false) =
          (List.range l.length).filter (l.getD · false) := by
        refine List.filter_congr fun i hi => ?_
        simp [List.getElem?_append_left (List.mem_range.mp hi)]
      rw [List.count_append, List.length_append, List.length_singleton, List.range_succ,
        List.filter_append, List.length_append, hsame, ih]
      cases x <;> simp

section Row

variable {seqLen maxN n : Nat} {valid : List Bool} {rand : Nat → ℚ} {sortedIdx : List Nat}

/-- The selected positions, in the order in which they were drawn. -/
def drawn (valid : List Bool) (sortedIdx : List Nat) : List Nat :=
  sortedIdx.filter (valid.getD · false)

variable (hlt : ∀ i, rand i < 1) (hsort : IsArgsort n (randomVals valid rand) sortedIdx)

include hsort

include hlt in
theorem sortedIdx_eq : sortedIdx =
    drawn valid sortedIdx ++ sortedIdx.filter fun i => !valid.getD i false := by
  refine eq_filter_append (hsort.ascending.imp fun {i j} hle hj => ?_)
  by_contra hi
  rw [randomVals, randomVals, if_neg hi, if_pos hj] at hle
  have hone := hlt j
  linarith

theorem drawn_nodup : (drawn valid sortedIdx).Nodup :=
  (hsort.perm.nodup_iff.mpr List.nodup_range).filter _

theorem drawn_length (hn : valid.length = n) :
    (drawn valid sortedIdx).length = valid.count true := by
  rw [count_true_eq, hn]
  exact (hsort.perm.filter _).length_eq

theorem mem_drawn {a : Nat} : a ∈ drawn valid sortedIdx ↔ a < n ∧ valid.getD a false = true := by
  rw [drawn, List.mem_filter, hsort.perm.mem_iff, List.mem_range]

end Row

structure SampledRow (maxAnchor : Nat) (lossMask : List ℚ) (anchors : List Nat)
    (keepMask : List Bool) (kept : List Nat) : Prop where
  ascending : kept.Pairwise (· < ·)
  bound : ∀ a ∈ kept, a ≤ maxAnchor
  selected : ∀ a ∈ kept, ∃ x, lossMask[a]? = some x ∧ 1 / 2 < x
  anchors_eq : anchors = kept ++ List.replicate (anchors.length - kept.length) 0
  keepMask_eq : keepMask =
    List.replicate kept.length true ++ List.replicate (anchors.length - kept.length) false

theorem insertionSort_append_replicate {l : List Nat} {big : Nat} (hbig : ∀ a ∈ l, a ≤ big)
    (r : Nat) : (l ++ List.replicate r big).insertionSort (· ≤ ·) =
      l.insertionSort (· ≤ ·) ++ List.replicate r big := by
  refine List.Perm.eq_of_pairwise' (r := (· ≤ ·)) (List.pairwise_insertionSort _ _) ?_ ?_
  · refine List.pairwise_append.mpr ⟨List.pairwise_insertionSort _ _, ?_, ?_⟩
    · exact List.pairwise_replicate.mpr (Or.inr (Nat.le_refl big))
    · intro a ha b hb
      rw [List.eq_of_mem_replicate hb]
      exact hbig a ((List.mem_insertionSort _).mp ha)
  · exact (List.perm_insertionSort _ _).trans ((List.perm_insertionSort _ _).symm.append_right _)

theorem validPositions_getD {lossMask : List ℚ} {maxAnchor a : Nat}
    (h : (validPositions lossMask maxAnchor).getD a false = true) :
    ∃ x, lossMask[a]? = some x ∧ 1 / 2 < x := by
  rw [validPositions, List.getD_eq_getElem?_getD, List.getElem?_map, List.getElem?_take] at h
  split at h
  · cases hx : lossMask[a]? with
    | none => simp [hx] at h
    | some x =>
        rw [hx, Option.map_some, Option.getD_some, decide_eq_true_eq] at h
        exact ⟨x, rfl, h⟩
  · simp at h

theorem keepMask_eq_replicate {count maxN : Nat} :
    (List.range maxN).map (fun j => decide (j < min count maxN)) =
      List.replicate (min count maxN) true ++ List.replicate (maxN - min count maxN) false := by
  obtain ⟨r, hr⟩ := Nat.exists_eq_add_of_le (Nat.min_le_right count maxN)
  rw [show maxN - min count maxN = r by omega]
  generalize min count maxN = c at hr ⊢
  subst hr
  rw [List.range_add, List.map_append, List.map_map]
  congr 1
  · refine List.eq_replicate_iff.mpr ⟨by simp, fun x hx => ?_⟩
    obtain ⟨j, hj, rfl⟩ := List.mem_map.mp hx
    simpa using hj
  · refine List.eq_replicate_iff.mpr ⟨by simp, fun x hx => ?_⟩
    obtain ⟨j, -, rfl⟩ := List.mem_map.mp hx
    simp

theorem zipWith_keep (kept rest : List Nat) :
    (kept ++ rest).zipWith (fun a keep => if keep then a else 0)
        (List.replicate kept.length true ++ List.replicate rest.length false) =
      kept ++ List.replicate rest.length 0 := by
  rw [List.zipWith_append (by simp)]
  congr 1
  · induction kept with
    | nil => rfl
    | cons a kept ih => simpa [List.replicate_succ] using ih
  · induction rest with
    | nil => rfl
    | cons a rest ih => simpa [List.replicate_succ] using ih

section Sampled

variable {seqLen maxN maxAnchor : Nat} {lossMask : List ℚ} {rand : Nat → ℚ} {sortedIdx : List Nat}
  (hlt : ∀ i, rand i < 1)
  (hsort : IsArgsort (maxAnchor + 1) (randomVals (validPositions lossMask maxAnchor) rand)
    sortedIdx)
  (hlength : (validPositions lossMask maxAnchor).length = maxAnchor + 1)
  (hanchor : maxAnchor ≤ seqLen) (hmax : maxN ≤ maxAnchor + 1)

include hlt hsort hlength hanchor hmax

omit hanchor in
/-- What is gathered: drawn positions first, then the value of those that are not selected. -/
theorem take_gathered (valid : List Bool) (hvalid : validPositions lossMask maxAnchor = valid) :
    (sortedIdx.map fun i => if valid.getD i false then i else seqLen + 1).take maxN =
      (drawn valid sortedIdx).take maxN ++
        List.replicate (maxN - min (valid.count true) maxN) (seqLen + 1) := by
  subst hvalid
  have hdrawn := drawn_length hsort hlength
  have hsplit := congrArg List.length (sortedIdx_eq hlt hsort)
  rw [List.length_append, hdrawn, hsort.perm.length_eq, List.length_range] at hsplit
  have hfirst : (drawn (validPositions lossMask maxAnchor) sortedIdx).map
      (fun i => if (validPositions lossMask maxAnchor).getD i false then i else seqLen + 1) =
        drawn (validPositions lossMask maxAnchor) sortedIdx := by
    conv_rhs => rw [← List.map_id (drawn _ _)]
    refine List.map_congr_left fun i hi => ?_
    rw [if_pos ((mem_drawn hsort).mp hi).2]
    rfl
  have hrest : (sortedIdx.filter fun i => !(validPositions lossMask maxAnchor).getD i false).map
      (fun i => if (validPositions lossMask maxAnchor).getD i false then i else seqLen + 1) =
        List.replicate (maxAnchor + 1 - (validPositions lossMask maxAnchor).count true)
          (seqLen + 1) := by
    refine List.eq_replicate_iff.mpr ⟨by rw [List.length_map]; omega, fun x hx => ?_⟩
    obtain ⟨i, hi, rfl⟩ := List.mem_map.mp hx
    rw [if_neg]
    simpa using (List.mem_filter.mp hi).2
  rw [sortedIdx_eq hlt hsort, List.map_append, hfirst, hrest, List.take_append, List.take_replicate,
    hdrawn, ← sortedIdx_eq hlt hsort]
  congr 2
  omega

theorem sampleRow_sampled : ∃ kept, SampledRow maxAnchor lossMask
    (sampleRow seqLen maxN (validPositions lossMask maxAnchor) sortedIdx).1
    (sampleRow seqLen maxN (validPositions lossMask maxAnchor) sortedIdx).2 kept := by
  set valid := validPositions lossMask maxAnchor with hvalid
  have hmem : ∀ a ∈ (drawn valid sortedIdx).take maxN,
      a < maxAnchor + 1 ∧ valid.getD a false = true :=
    fun a ha => (mem_drawn hsort).mp (List.mem_of_mem_take ha)
  have hkept : (((drawn valid sortedIdx).take maxN).insertionSort (· ≤ ·)).length =
      min (valid.count true) maxN := by
    rw [List.length_insertionSort, List.length_take, drawn_length hsort hlength, Nat.min_comm]
  have hrow : sampleRow seqLen maxN valid sortedIdx =
      (((drawn valid sortedIdx).take maxN).insertionSort (· ≤ ·) ++
          List.replicate (maxN - min (valid.count true) maxN) 0,
        List.replicate (min (valid.count true) maxN) true ++
          List.replicate (maxN - min (valid.count true) maxN) false) := by
    have hzip := zipWith_keep (((drawn valid sortedIdx).take maxN).insertionSort (· ≤ ·))
      (List.replicate (maxN - min (valid.count true) maxN) (seqLen + 1))
    rw [hkept, List.length_replicate] at hzip
    simp only [sampleRow]
    rw [take_gathered hlt hsort hlength hmax valid rfl, insertionSort_append_replicate,
      keepMask_eq_replicate, hzip]
    intro a ha
    have hlast := (hmem a ha).1
    omega
  rw [hrow]
  refine ⟨((drawn valid sortedIdx).take maxN).insertionSort (· ≤ ·), ?_, ?_, ?_, ?_, ?_⟩
  · have hnodup := ((drawn_nodup hsort).sublist (List.take_sublist maxN _))
    have hnodup := (List.perm_insertionSort (· ≤ ·) _).nodup_iff.mpr hnodup
    refine (List.pairwise_insertionSort (· ≤ ·) _).imp₂ ?_ hnodup
    exact fun a b hle hne => Nat.lt_of_le_of_ne hle hne
  · intro a ha
    have hlast := (hmem a ((List.mem_insertionSort _).mp ha)).1
    omega
  · exact fun a ha => validPositions_getD (hmem a ((List.mem_insertionSort _).mp ha)).2
  · simp
  · simp [hkept]

end Sampled

private theorem length_validPositions (lossMask : List ℚ) (maxAnchor : Nat) :
    (validPositions lossMask maxAnchor).length = min (maxAnchor + 1) lossMask.length := by
  rw [validPositions, List.length_map, List.length_take]

theorem sampleAnchorPositions_sampled {blockSize numAnchors seqLen : Nat} {lossMask : List (List ℚ)}
    {draw : Draw (seqLen - blockSize + 1)
      (lossMask.map (validPositions · (seqLen - blockSize)))} {rows : List (List Nat × List Bool)}
    (h : sampleAnchorPositions blockSize numAnchors seqLen lossMask draw = .ok rows) {b : Nat}
    {row : List Nat × List Bool} (hrow : rows[b]? = some row) :
    ∃ mask kept, lossMask[b]? = some mask ∧ seqLen - blockSize + 1 ≤ mask.length ∧
      SampledRow (seqLen - blockSize) mask row.1 row.2 kept := by
  simp only [sampleAnchorPositions] at h
  split at h
  · cases h
  · next most hmost =>
      split at h
      · cases h
      · split at h
        · cases h
        · next hpos hshape =>
            cases h
            simp only [List.getElem?_map, List.getElem?_zipIdx, Option.map_map, Nat.zero_add,
              Option.map_eq_some_iff, Function.comp_apply] at hrow
            obtain ⟨mask, hmask, rfl⟩ := hrow
            have hvalid : (lossMask.map (validPositions · (seqLen - blockSize)))[b]? =
                some (validPositions mask (seqLen - blockSize)) := by
              rw [List.getElem?_map, hmask, Option.map_some]
            have hlength : (validPositions mask (seqLen - blockSize)).length =
                seqLen - blockSize + 1 := by
              by_contra hne
              exact hshape (List.any_eq_true.mpr
                ⟨_, List.mem_of_getElem? hvalid, bne_iff_ne.mpr hne⟩)
            have hmost : most ≤ seqLen - blockSize + 1 := by
              obtain ⟨other, hother, rfl⟩ := List.mem_map.mp (List.max?_mem hmost)
              have hshort := not_exists.mp (hshape ∘ List.any_eq_true.mpr) other
              have hcount := List.count_le_length (a := true) (l := other)
              by_contra hgt
              exact hshort ⟨hother, bne_iff_ne.mpr (by omega)⟩
            have hmax : (min (numAnchors : Int) ((most : Int) - 1)).toNat ≤
                seqLen - blockSize + 1 := by omega
            have hslice := length_validPositions mask (seqLen - blockSize)
            obtain ⟨kept, hkept⟩ := sampleRow_sampled (draw.rand_lt_one b) (draw.argsort b _ hvalid)
              hlength (Nat.sub_le seqLen blockSize) hmax
            exact ⟨mask, kept, hmask, by omega, hkept⟩

end SpecDecode.Training.DFlash
