import Mathlib.Data.List.Induction
import Mathlib.Data.Bool.Count
import Mathlib.Data.List.Basic
import Mathlib.Algebra.Order.Ring.Int

/-!
# Blocks inserted at missing positions

A list of blocks of one width belongs to the present members of a group. For every missing
member a filler block is inserted at the index of the member, lowest index first, and a position
behind the insertion moves up by the width. At the end every member has its block, and the
positions that were there at the start are those of the present members.
-/

namespace SpecDecode.BlockInsert

variable {α : Type} {width i v w : Nat} {block : List α} {blocks : List (List α)}

/-- `list.insert(i, block)`; an index past the end appends. -/
def insertBlock (blocks : List (List α)) (i : Nat) (block : List α) : List (List α) :=
  blocks.take i ++ block :: blocks.drop i

/-- Where a position stands after a block was inserted at index `i`. -/
def shift (width i v : Nat) : Nat := if i * width ≤ v then v + width else v

theorem shift_injective (width i : Nat) : Function.Injective (shift width i) := by
  intro v w h
  unfold shift at h
  split at h <;> split at h <;> omega

@[simp] theorem length_insertBlock (blocks : List (List α)) (i : Nat) (block : List α) :
    (insertBlock blocks i block).length = blocks.length + 1 := by
  rw [insertBlock, List.length_append, List.length_cons, List.length_take, List.length_drop]
  omega

theorem mem_insertBlock {b : List α} : b ∈ insertBlock blocks i block ↔ b = block ∨ b ∈ blocks := by
  have hsplit : b ∈ blocks ↔ b ∈ blocks.take i ∨ b ∈ blocks.drop i := by
    rw [← List.mem_append, List.take_append_drop]
  rw [insertBlock, List.mem_append, List.mem_cons, hsplit]
  tauto

theorem length_flatten_of_width (h : ∀ b ∈ blocks, b.length = width) :
    blocks.flatten.length = blocks.length * width := by
  rw [List.length_flatten, List.map_congr_left h, List.map_const', List.sum_replicate_nat]

theorem flatten_insertBlock_shift (h : ∀ b ∈ blocks, b.length = width)
    (hblock : block.length = width) (hi : i ≤ blocks.length) (v : Nat) :
    (insertBlock blocks i block).flatten[shift width i v]? = blocks.flatten[v]? := by
  have hbefore : (blocks.take i).flatten.length = i * width := by
    rw [length_flatten_of_width fun b hb => h b (List.mem_of_mem_take hb), List.length_take,
      Nat.min_eq_left hi]
  have hsplit : blocks.flatten = (blocks.take i).flatten ++ (blocks.drop i).flatten := by
    rw [← List.flatten_append, List.take_append_drop]
  rw [insertBlock, List.flatten_append, List.flatten_cons, hsplit]
  by_cases hv : i * width ≤ v
  · rw [shift, if_pos hv, List.getElem?_append_right (by omega),
      List.getElem?_append_right (by omega), List.getElem?_append_right (by omega)]
    congr 1
    omega
  · rw [shift, if_neg hv, List.getElem?_append_left (by omega),
      List.getElem?_append_left (by omega)]

def fillIn (present : List Bool) (filler : List α) (blocks : List (List α)) : List (List α) :=
  present.zipIdx.foldl (fun blocks member =>
    if member.1 then blocks else insertBlock blocks member.2 filler) blocks

/-- Where a position stands after all insertions. -/
def place (width : Nat) (present : List Bool) (v : Nat) : Nat :=
  present.zipIdx.foldl (fun v member => if member.1 then v else shift width member.2 v) v

theorem fillIn_append_singleton (present : List Bool) (here : Bool) (filler : List α)
    (blocks : List (List α)) : fillIn (present ++ [here]) filler blocks =
      if here then fillIn present filler blocks
      else insertBlock (fillIn present filler blocks) present.length filler := by
  rw [fillIn, List.zipIdx_append, List.foldl_append, Nat.zero_add]
  rfl

theorem place_append_singleton (width : Nat) (present : List Bool) (here : Bool) (v : Nat) :
    place width (present ++ [here]) v =
      if here then place width present v
      else shift width present.length (place width present v) := by
  rw [place, List.zipIdx_append, List.foldl_append, Nat.zero_add]
  rfl

theorem place_injective (width : Nat) (present : List Bool) :
    Function.Injective (place width present) := by
  induction present using List.reverseRecOn with
  | nil => exact fun _ _ h => h
  | append_singleton present here ih =>
      intro v w h
      rw [place_append_singleton, place_append_singleton] at h
      cases here with
      | true => exact ih h
      | false => exact ih (shift_injective width _ h)

/-- A position whose member, if it is listed, is present. -/
def Kept (width : Nat) (present : List Bool) (p : Nat) : Prop :=
  p / width < present.length → present[p / width]? = some true

theorem kept_append_true {present : List Bool} {p : Nat} :
    Kept width (present ++ [true]) p ↔ Kept width present p := by
  unfold Kept
  rw [List.length_append, List.length_singleton]
  constructor
  · intro h hlt
    have hnew := h (Nat.lt_succ_of_lt hlt)
    rwa [List.getElem?_append_left hlt] at hnew
  · intro h hlt
    obtain hlt | heq := Nat.lt_succ_iff_lt_or_eq.mp hlt
    · rw [List.getElem?_append_left hlt]
      exact h hlt
    · rw [heq, List.getElem?_concat_length]

theorem kept_append_false {present : List Bool} {p : Nat} :
    Kept width (present ++ [false]) p ↔
      p / width ≠ present.length ∧ Kept width present p := by
  unfold Kept
  rw [List.length_append, List.length_singleton]
  constructor
  · intro h
    refine ⟨fun heq => ?_, fun hlt => ?_⟩
    · have hnew := h (by omega)
      rw [heq, List.getElem?_concat_length] at hnew
      cases hnew
    · have hnew := h (Nat.lt_succ_of_lt hlt)
      rwa [List.getElem?_append_left hlt] at hnew
  · intro h hlt
    have hlt : p / width < present.length := by
      have hne := h.1
      omega
    rw [List.getElem?_append_left hlt]
    exact h.2 hlt

theorem kept_shift {present : List Bool} {p : Nat} (hwidth : 0 < width) (h : Kept width present p) :
    Kept width (present ++ [false]) (shift width present.length p) := by
  rw [kept_append_false]
  unfold shift
  split
  · next hle =>
      have hdiv : (p + width) / width = p / width + 1 := Nat.add_div_right p hwidth
      have hindex : present.length ≤ p / width := (Nat.le_div_iff_mul_le hwidth).mpr hle
      exact ⟨by omega, fun hlt => absurd hlt (by omega)⟩
  · next hnot =>
      have hindex : p / width < present.length :=
        (Nat.div_lt_iff_lt_mul hwidth).mpr (Nat.lt_of_not_le hnot)
      exact ⟨Nat.ne_of_lt hindex, h⟩

theorem exists_shift {present : List Bool} {p n : Nat} (hwidth : 0 < width)
    (hn : present.length ≤ n) (hp : p < (n + 1) * width) (h : Kept width (present ++ [false]) p) :
    ∃ q, q < n * width ∧ Kept width present q ∧ shift width present.length q = p := by
  obtain ⟨hne, hkept⟩ := kept_append_false.mp h
  have hmul : present.length * width ≤ n * width := Nat.mul_le_mul_right width hn
  rw [Nat.succ_mul] at hp
  by_cases hlt : p / width < present.length
  · have hsmall : p < present.length * width := (Nat.div_lt_iff_lt_mul hwidth).mp hlt
    exact ⟨p, by omega, hkept, if_neg (by omega)⟩
  · have hbig : (present.length + 1) * width ≤ p :=
      (Nat.le_div_iff_mul_le hwidth).mp (by omega)
    rw [Nat.succ_mul] at hbig
    have hindex : present.length ≤ (p - width) / width :=
      (Nat.le_div_iff_mul_le hwidth).mpr (by omega)
    refine ⟨p - width, by omega, fun hlt => absurd hlt (by omega), ?_⟩
    rw [shift, if_pos (by omega), Nat.sub_add_cancel (by omega)]

/-- What the insertions for the first members have done. -/
structure Filled (width : Nat) (present : List Bool) (filler : List α)
    (blocks : List (List α)) : Prop where
  length : (fillIn present filler blocks).length = blocks.length + present.count false
  width_eq : ∀ b ∈ fillIn present filler blocks, b.length = width
  place_eq (v : Nat) : (fillIn present filler blocks).flatten[place width present v]? =
    blocks.flatten[v]?
  place_kept {v : Nat} : v < blocks.length * width →
    place width present v < (blocks.length + present.count false) * width ∧
      Kept width present (place width present v)
  exists_place {p : Nat} : p < (blocks.length + present.count false) * width →
    Kept width present p → ∃ v, v < blocks.length * width ∧ place width present v = p

/-- The insertions give every member its block when there is a block for each present one. -/
theorem filled (present : List Bool) {filler : List α} (hwidth : 0 < width)
    (hfiller : filler.length = width) (hblocks : ∀ b ∈ blocks, b.length = width)
    (hcount : present.count true ≤ blocks.length) : Filled width present filler blocks := by
  induction present using List.reverseRecOn with
  | nil =>
      exact {
        length := rfl
        width_eq := hblocks
        place_eq := fun _ => rfl
        place_kept := fun hv => ⟨hv, fun h => absurd h (Nat.not_lt_zero _)⟩
        exists_place := fun hp _ => ⟨_, hp, rfl⟩ }
  | append_singleton present here ih =>
      rw [List.count_append] at hcount
      have ih := ih (by omega)
      cases here with
      | true =>
          have hfalse : (present ++ [true]).count false = present.count false := by simp
          have hfill : fillIn (present ++ [true]) filler blocks =
            fillIn present filler blocks := fillIn_append_singleton ..
          have hplace (v : Nat) : place width (present ++ [true]) v = place width present v :=
            place_append_singleton ..
          exact {
            length := by rw [hfill, hfalse, ih.length]
            width_eq := by rw [hfill]; exact ih.width_eq
            place_eq := fun v => by rw [hfill, hplace, ih.place_eq]
            place_kept := fun hv => by
              rw [hplace, hfalse, kept_append_true]
              exact ih.place_kept hv
            exists_place := fun {p} hp hkept => by
              simp only [hplace]
              rw [hfalse] at hp
              exact ih.exists_place hp (kept_append_true.mp hkept) }
      | false =>
          have hfalse : (present ++ [false]).count false = present.count false + 1 := by simp
          have hfill : fillIn (present ++ [false]) filler blocks =
              insertBlock (fillIn present filler blocks) present.length filler :=
            fillIn_append_singleton ..
          have hplace (v : Nat) : place width (present ++ [false]) v =
              shift width present.length (place width present v) :=
            place_append_singleton ..
          have hindex : present.length ≤ blocks.length + present.count false := by
            have hboth := List.count_true_add_count_false present
            omega
          exact {
            length := by rw [hfill, hfalse, length_insertBlock, ih.length]; omega
            width_eq := fun b hb => by
              rw [hfill] at hb
              obtain rfl | hb := mem_insertBlock.mp hb
              · exact hfiller
              · exact ih.width_eq b hb
            place_eq := fun v => by
              rw [hfill, hplace, flatten_insertBlock_shift ih.width_eq hfiller
                (by rw [ih.length]; exact hindex), ih.place_eq]
            place_kept := fun hv => by
              obtain ⟨hlt, hkept⟩ := ih.place_kept hv
              rw [hplace, hfalse, ← Nat.add_assoc, Nat.succ_mul]
              refine ⟨?_, kept_shift hwidth hkept⟩
              unfold shift
              split <;> omega
            exists_place := fun {p} hp hkept => by
              simp only [hplace]
              rw [hfalse, ← Nat.add_assoc] at hp
              obtain ⟨q, hq, hold, rfl⟩ := exists_shift hwidth hindex hp hkept
              obtain ⟨v, hv, rfl⟩ := ih.exists_place hq hold
              exact ⟨v, hv, rfl⟩ }

end SpecDecode.BlockInsert
