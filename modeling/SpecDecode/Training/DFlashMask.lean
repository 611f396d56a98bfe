import SpecDecode.Lib.Ragged
import SpecDecode.Lib.Ranges
import Mathlib.Algebra.Order.Ring.Int

/-!
# The attention mask of the DFlash training blocks

The keys are the `S` positions of the context and behind them the blocks, the queries are the
blocks. The mask is built in two ways, as a tensor and as a predicate for flex attention.
-/

namespace SpecDecode.Training.DFlash

open Ragged Ranges

def repeatInterleave {α : Type} (xs : List α) (n : Nat) : List α := xs.flatMap (List.replicate n)

/-- An entry of `create_dflash_sdpa_mask` for one row of the batch. -/
def createDflashSdpaMask (anchorPositions : List Nat) (blockKeepMask : List Bool)
    (S blockSize qIdx kvIdx : Nat) : Bool :=
  let qBlockId := qIdx / blockSize
  let anchorExpanded := (repeatInterleave anchorPositions blockSize).getD qIdx 0
  let maskContext := decide (kvIdx < S) && decide (kvIdx < anchorExpanded)
  let isDraft := decide (S ≤ kvIdx)
  let kvBlockId : Int := ((kvIdx : Int) - S) / blockSize
  let maskDraft := isDraft && decide ((qBlockId : Int) = kvBlockId)
  let validBlock := (repeatInterleave blockKeepMask blockSize).getD qIdx false
  (maskContext || maskDraft) && validBlock

/-- `dflash_mask_mod` of `create_dflash_block_mask` for one row of the batch. -/
def dflashMaskMod (anchorPositions : List Nat) (blockKeepMask : List Bool)
    (S blockSize qIdx kvIdx : Nat) : Bool :=
  let qBlockId := qIdx / blockSize
  let safeQBlockId := min qBlockId (anchorPositions.length - 1)
  let anchorPos := anchorPositions.getD safeQBlockId 0
  let isContext := decide (kvIdx < S)
  let maskContext := isContext && decide (kvIdx < anchorPos)
  let isDraft := decide (S ≤ kvIdx)
  let kvBlockId : Int := ((kvIdx : Int) - S) / blockSize
  let maskDraft := isDraft && decide ((qBlockId : Int) = kvBlockId)
  let isValidBlock := blockKeepMask.getD safeQBlockId false
  let inBounds := decide (qBlockId < anchorPositions.length)
  (maskContext || maskDraft) && isValidBlock && inBounds

theorem getD_repeatInterleave {α : Type} (xs : List α) {n q : Nat} (hn : 0 < n) (d : α) :
    (repeatInterleave xs n).getD q d = xs.getD (q / n) d := by
  have hmod := Nat.mod_lt q hn
  have hq : q / n * n + q % n = q := Nat.div_add_mod' q n
  rw [List.getD_eq_getElem?_getD, List.getD_eq_getElem?_getD, repeatInterleave]
  conv_lhs => rw [← hq]
  rw [getElem?_flatMap_width (fun c => List.length_replicate) xs hmod]
  cases xs[q / n]? with
  | none => rfl
  | some x => rw [Option.bind_some, List.getElem?_replicate, if_pos hmod]

section Row

variable {anchorPositions : List Nat} {blockKeepMask : List Bool} {S blockSize : Nat}

theorem dflashMaskMod_eq {qIdx : Nat} (hq : qIdx < anchorPositions.length * blockSize)
    (kvIdx : Nat) :
    dflashMaskMod anchorPositions blockKeepMask S blockSize qIdx kvIdx =
      createDflashSdpaMask anchorPositions blockKeepMask S blockSize qIdx kvIdx := by
  have hpos : 0 < blockSize := by
    refine Nat.pos_of_ne_zero fun hzero => ?_
    rw [hzero] at hq
    exact Nat.not_lt_zero _ hq
  have hblock : qIdx / blockSize < anchorPositions.length := by
    rwa [Nat.div_lt_iff_lt_mul hpos]
  have hsafe : min (qIdx / blockSize) (anchorPositions.length - 1) = qIdx / blockSize := by
    omega
  simp only [dflashMaskMod, createDflashSdpaMask]
  rw [hsafe, getD_repeatInterleave _ hpos, getD_repeatInterleave _ hpos, decide_eq_true hblock,
    Bool.and_true]

variable {j a t : Nat} (hanchor : anchorPositions[j]? = some a)
  (hkeep : blockKeepMask[j]? = some true) (ht : t < blockSize)

include hanchor hkeep ht

/-- A query of a kept block sees the context before its anchor and its own block. -/
theorem createDflashSdpaMask_kept (kvIdx : Nat) :
    createDflashSdpaMask anchorPositions blockKeepMask S blockSize (j * blockSize + t) kvIdx =
      (decide (kvIdx < S) && decide (kvIdx < a) ||
        decide (S + j * blockSize ≤ kvIdx) && decide (kvIdx < S + j * blockSize + blockSize)) := by
  have hpos : 0 < blockSize := by omega
  have hblock : (j * blockSize + t) / blockSize = j := by
    rw [Nat.mul_comm, Nat.mul_add_div hpos, Nat.div_eq_of_lt ht, Nat.add_zero]
  simp only [createDflashSdpaMask]
  rw [getD_repeatInterleave _ hpos, getD_repeatInterleave _ hpos, hblock,
    List.getD_eq_getElem?_getD, List.getD_eq_getElem?_getD, hanchor, hkeep, Option.getD_some,
    Option.getD_some, Bool.and_true]
  congr 1
  by_cases hdraft : S ≤ kvIdx
  · obtain ⟨x, rfl⟩ := Nat.exists_eq_add_of_le hdraft
    have hkv : (((S + x : Nat) : Int) - S) / blockSize = ((x / blockSize : Nat) : Int) := by
      rw [Int.natCast_ediv]
      congr 1
      omega
    rw [hkv, decide_eq_true hdraft, Bool.true_and, ← Bool.decide_and, decide_eq_decide,
      Int.ofNat_inj, eq_comm, Nat.div_eq_iff hpos]
    constructor <;> intro h <;> constructor <;> omega
  · rw [decide_eq_false hdraft, Bool.false_and, decide_eq_false (by omega), Bool.false_and]

theorem visible_eq (ha : a ≤ S) :
    (List.range (S + anchorPositions.length * blockSize)).filter
        (createDflashSdpaMask anchorPositions blockKeepMask S blockSize (j * blockSize + t)) =
      List.range a ++ (List.range blockSize).map (S + j * blockSize + ·) := by
  have hblock : j * blockSize + blockSize ≤ anchorPositions.length * blockSize := by
    rw [← Nat.succ_mul]
    exact Nat.mul_le_mul_right _ (List.getElem?_eq_some_iff.mp hanchor).1
  rw [List.filter_congr fun kvIdx _ => createDflashSdpaMask_kept hanchor hkeep ht kvIdx,
    List.range_add, List.filter_append]
  congr 1
  · rw [← filter_range_lt ha]
    refine List.filter_congr fun kvIdx hkv => ?_
    have hkv := List.mem_range.mp hkv
    have hdraft : decide (S + j * blockSize ≤ kvIdx) = false := decide_eq_false (by omega)
    rw [decide_eq_true hkv, Bool.true_and, hdraft, Bool.false_and, Bool.or_false]
  · have hdraft : (List.range (anchorPositions.length * blockSize)).filter
        (fun x => decide (j * blockSize ≤ x) && decide (x < j * blockSize + blockSize)) =
          (List.range blockSize).map (j * blockSize + ·) := by
      rw [← List.filter_filter, filter_range_lt hblock, filter_range_ge (Nat.le_add_right _ _),
        Nat.add_sub_cancel_left]
    rw [List.filter_map]
    have hmap : (List.range blockSize).map (S + j * blockSize + ·) =
        ((List.range blockSize).map (j * blockSize + ·)).map (S + ·) := by
      rw [List.map_map]
      exact List.map_congr_left fun k _ => Nat.add_assoc _ _ _
    rw [hmap, ← hdraft]
    refine congrArg _ (List.filter_congr fun x _ => ?_)
    have hcontext : decide (S + x < S) = false := decide_eq_false (by omega)
    rw [Function.comp_apply, hcontext, Bool.false_and, Bool.false_or]
    congr 1 <;> rw [decide_eq_decide] <;> omega

end Row

end SpecDecode.Training.DFlash
