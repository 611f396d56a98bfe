import SpecDecode.Detokenizer.Manager
import SpecDecode.Lib.Strip

/-!
# The printable part of a text that is held back

A text that ends with a replacement character is shown up to a CJK character in front of it,
or else up to its last blank. When such a text grows, the part shown may become shorter:
exactly when the CJK character stops being the last one in front of the replacement and no
blank comes with the new text.
-/

namespace SpecDecode.Detokenizer

variable {y w : List Char}

def endsWithChinese (text : List Char) : Bool := endsWith text (isChineseChar ·.toNat)

def upToBlank (text : List Char) : List Char := text.rdropWhile (· != ' ')

theorem upToBlank_isPrefix (text : List Char) : upToBlank text <+: text := List.rdropWhile_prefix ..

theorem take_rfind (text : List Char) : text.take (rfind text ' ' + 1).toNat = upToBlank text := by
  rw [show (rfind text ' ' + 1).toNat = (upToBlank text).length by simp [rfind, upToBlank]]
  exact (List.prefix_iff_eq_take.mp (upToBlank_isPrefix text)).symm

@[simp] theorem endsWith_concat (text : List Char) (c : Char) (p : Char → Bool) :
    endsWith (text ++ [c]) p = p c := by
  simp [endsWith]

theorem findPrintableText_held (y : List Char) :
    findPrintableText (y ++ [Utf8.replacement]) =
      if endsWithChinese y then y else upToBlank y := by
  have hlast : upToBlank (y ++ [Utf8.replacement]) = upToBlank y := by
    rw [upToBlank, List.rdropWhile_concat_pos _ _ _ (by decide)]
    rfl
  rw [findPrintableText, take_rfind, hlast, List.dropLast_concat]
  simp only [endsWith_concat]
  rfl

theorem findPrintableText_held_isPrefix (y : List Char) :
    findPrintableText (y ++ [Utf8.replacement]) <+: y := by
  rw [findPrintableText_held]
  split
  · exact List.prefix_refl y
  · exact upToBlank_isPrefix y

theorem upToBlank_append_of_mem (y : List Char) (h : ' ' ∈ w) :
    upToBlank (y ++ w) = y ++ upToBlank w := by
  induction w using List.reverseRecOn with
  | nil => cases h
  | append_singleton w c ih =>
      rw [← List.append_assoc, upToBlank, upToBlank, List.rdropWhile_concat,
        List.rdropWhile_concat]
      split
      · next hc =>
          apply ih
          rcases List.mem_append.mp h with hw | hw
          · exact hw
          · rw [← List.mem_singleton.mp hw] at hc
            exact absurd hc (by decide)
      · rw [List.append_assoc]

theorem upToBlank_append_of_notMem (y : List Char) (h : ' ' ∉ w) :
    upToBlank (y ++ w) = upToBlank y := by
  apply rstrip_append_blank
  intro c hc
  rw [bne_iff_ne]
  rintro rfl
  exact h hc

theorem upToBlank_length_lt (h : endsWithChinese y = true) : (upToBlank y).length < y.length := by
  obtain rfl | ⟨x, c, rfl⟩ := List.eq_nil_or_concat' y
  · simp [endsWithChinese, endsWith] at h
  · rw [endsWithChinese, endsWith_concat] at h
    have hc : ' ' ∉ [c] := by
      rw [List.mem_singleton]
      rintro rfl
      exact absurd h (by decide)
    rw [upToBlank_append_of_notMem x hc, List.length_append, List.length_singleton]
    exact Nat.lt_succ_of_le (upToBlank_isPrefix x).length_le

/-- `held` grows to `text`, and a CJK character that was shown no longer ends the shown part. -/
def Shrinks (held text : List Char) : Prop :=
  ∃ y w, held = y ++ [Utf8.replacement] ∧ text = y ++ w ++ [Utf8.replacement] ∧
    endsWithChinese y = true ∧ endsWithChinese (y ++ w) = false ∧ ' ' ∉ w

theorem findPrintableText_lt_iff (y w : List Char) :
    (findPrintableText (y ++ w ++ [Utf8.replacement])).length <
        (findPrintableText (y ++ [Utf8.replacement])).length ↔
      Shrinks (y ++ [Utf8.replacement]) (y ++ w ++ [Utf8.replacement]) := by
  rw [findPrintableText_held, findPrintableText_held]
  constructor
  · intro hlt
    refine ⟨y, w, rfl, rfl, ?_⟩
    have hgrow : (upToBlank y).length ≤ (upToBlank (y ++ w)).length := by
      by_cases hw : ' ' ∈ w
      · rw [upToBlank_append_of_mem y hw, List.length_append]
        exact Nat.le_trans (upToBlank_isPrefix y).length_le (Nat.le_add_right ..)
      · rw [upToBlank_append_of_notMem y hw]
    have hle : (upToBlank y).length ≤ y.length := (upToBlank_isPrefix y).length_le
    cases hy : endsWithChinese y with
    | false =>
        rw [hy] at hlt
        split at hlt
        · simp only [List.length_append, Bool.false_eq_true, if_false] at hlt
          omega
        · simp only [Bool.false_eq_true, if_false] at hlt
          omega
    | true =>
        rw [hy, if_pos rfl] at hlt
        split at hlt
        · simp only [List.length_append] at hlt
          omega
        · next hyw =>
            refine ⟨rfl, Bool.eq_false_iff.mpr hyw, fun hw => ?_⟩
            rw [upToBlank_append_of_mem y hw, List.length_append] at hlt
            omega
  · rintro ⟨y', w', hy', hw', hcjk, hnot, hblank⟩
    obtain rfl := List.append_cancel_right hy'
    obtain rfl := List.append_cancel_left (List.append_cancel_right hw')
    rw [if_pos hcjk, if_neg (by rw [hnot]; decide), upToBlank_append_of_notMem y hblank]
    exact upToBlank_length_lt hcjk

end SpecDecode.Detokenizer
