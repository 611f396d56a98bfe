import Mathlib.Data.List.Basic

/-!
# Lists cut into pages, and common prefixes

`pages ps l` are the full pages of `ps` elements of a list. Taking and dropping whole
pages is taking and dropping multiples of `ps` elements.

`commonPrefixLen` is determined by the prefixes two lists share; over pages it is the
one over elements, rounded down to whole pages.
-/

namespace SpecDecode

variable {α : Type}

def pages (ps : Nat) (l : List α) : List (List α) :=
  (List.range (l.length / ps)).map fun i => (l.drop (i * ps)).take ps

section Pages

variable {ps : Nat} {l : List α}

@[simp] theorem length_pages (ps : Nat) (l : List α) : (pages ps l).length = l.length / ps := by
  simp [pages]

theorem getElem?_pages {i : Nat} (hi : i < l.length / ps) :
    (pages ps l)[i]? = some ((l.drop (i * ps)).take ps) := by
  simp [pages, hi]

theorem mul_add_le_length {i n : Nat} (hi : i < n / ps) : i * ps + ps ≤ n := by
  calc i * ps + ps = (i + 1) * ps := (Nat.succ_mul i ps).symm
    _ ≤ n / ps * ps := Nat.mul_le_mul_right ps hi
    _ ≤ n := Nat.div_mul_le_self n ps

theorem pages_take_div (m : Nat) : pages ps (l.take m) = (pages ps l).take (m / ps) := by
  rcases Nat.eq_zero_or_pos ps with rfl | hps
  · simp [pages]
  have hlen : (l.take m).length / ps = min (m / ps) (l.length / ps) := by
    rw [List.length_take]
    rcases Nat.le_total m l.length with hle | hle
    · rw [Nat.min_eq_left hle, Nat.min_eq_left (Nat.div_le_div_right hle)]
    · rw [Nat.min_eq_right hle, Nat.min_eq_right (Nat.div_le_div_right hle)]
  refine List.ext_getElem? fun i => ?_
  rw [List.getElem?_take]
  by_cases hi : i < min (m / ps) (l.length / ps)
  · rw [if_pos (by omega), getElem?_pages (by omega), getElem?_pages (by omega), List.drop_take,
      List.take_take, Nat.min_eq_left]
    have hdiv : i < m / ps := by omega
    have hle := mul_add_le_length hdiv
    omega
  · rw [List.getElem?_eq_none (by rw [length_pages]; omega)]
    split
    · rw [List.getElem?_eq_none (by rw [length_pages]; omega)]
    · rfl

theorem pages_take (n : Nat) : pages ps (l.take (n * ps)) = (pages ps l).take n := by
  rcases Nat.eq_zero_or_pos ps with rfl | hps
  · simp [pages]
  · rw [pages_take_div, Nat.mul_div_cancel _ hps]

theorem pages_drop (n : Nat) : pages ps (l.drop (n * ps)) = (pages ps l).drop n := by
  rcases Nat.eq_zero_or_pos ps with rfl | hps
  · simp [pages]
  have hlen : (l.drop (n * ps)).length / ps = l.length / ps - n := by
    rw [List.length_drop, Nat.mul_comm, Nat.sub_mul_div]
  refine List.ext_getElem? fun i => ?_
  rw [List.getElem?_drop]
  by_cases hi : i < l.length / ps - n
  · rw [getElem?_pages (by omega), getElem?_pages (by omega), List.drop_drop, Nat.add_mul]
  · rw [List.getElem?_eq_none (by rw [length_pages]; omega),
      List.getElem?_eq_none (by rw [length_pages]; omega)]

theorem pages_head? (hps : 0 < ps) (hle : ps ≤ l.length) :
    (pages ps l).head? = some (l.take ps) := by
  rw [List.head?_eq_getElem?, getElem?_pages (Nat.div_pos hle hps), Nat.zero_mul, List.drop_zero]

theorem flatten_pages (hps : ps ∣ l.length) : (pages ps l).flatten = l := by
  obtain ⟨n, hn⟩ := hps
  induction n generalizing l with
  | zero =>
      rw [Nat.mul_zero, List.length_eq_zero_iff] at hn
      simp [hn, pages]
  | succ n ih =>
      rcases Nat.eq_zero_or_pos ps with rfl | hpos
      · rw [Nat.zero_mul, List.length_eq_zero_iff] at hn
        simp [hn, pages]
      have hle : ps ≤ l.length := by
        rw [hn, Nat.mul_succ]
        omega
      have htail := ih (l := l.drop (1 * ps)) (by rw [List.length_drop, hn, Nat.mul_succ]; omega)
      rw [pages_drop, List.drop_one] at htail
      have hcons : pages ps l = l.take ps :: (pages ps l).tail := by
        obtain ⟨x, hx⟩ := List.head?_eq_some_iff.mp (pages_head? hpos hle)
        rw [hx, List.tail_cons]
      rw [hcons, List.flatten_cons, htail, Nat.one_mul, List.take_append_drop]

theorem take_pages_eq_iff {l' : List α} {n : Nat} (hn : n * ps ≤ l.length)
    (hn' : n * ps ≤ l'.length) :
    (pages ps l).take n = (pages ps l').take n ↔ l.take (n * ps) = l'.take (n * ps) := by
  rw [← pages_take, ← pages_take]
  constructor
  · intro heq
    have hflat := congrArg List.flatten heq
    rwa [flatten_pages ⟨n, by rw [List.length_take, Nat.min_eq_left hn, Nat.mul_comm]⟩,
      flatten_pages ⟨n, by rw [List.length_take, Nat.min_eq_left hn', Nat.mul_comm]⟩] at hflat
  · intro heq
    rw [heq]

end Pages

/-- The number of leading elements two lists share. -/
def commonPrefixLen [DecidableEq α] : List α → List α → Nat
  | a :: as, b :: bs => if a = b then commonPrefixLen as bs + 1 else 0
  | _, _ => 0

section CommonPrefix

variable [DecidableEq α]

theorem le_commonPrefixLen_iff (l l' : List α) (n : Nat) : n ≤ commonPrefixLen l l' ↔
    n ≤ l.length ∧ n ≤ l'.length ∧ l.take n = l'.take n := by
  induction l generalizing l' n with
  | nil =>
      rw [commonPrefixLen]
      constructor
      · intro hn
        obtain rfl : n = 0 := by omega
        simp
      · exact fun h => h.1
      · simp
  | cons a as ih =>
      cases l' with
      | nil =>
          rw [commonPrefixLen]
          constructor
          · intro hn
            obtain rfl : n = 0 := by omega
            simp
          · exact fun h => h.2.1
          · simp
      | cons b bs =>
          cases n with
          | zero => simp
          | succ n =>
              rw [commonPrefixLen]
              by_cases hab : a = b
              · simp [hab, ih]
              · simp [hab]

theorem eq_commonPrefixLen {l l' : List α} {m : Nat} (h : ∀ n, n ≤ m ↔
    n ≤ l.length ∧ n ≤ l'.length ∧ l.take n = l'.take n) : m = commonPrefixLen l l' := by
  apply Nat.le_antisymm
  · exact (le_commonPrefixLen_iff l l' m).mpr ((h m).mp (Nat.le_refl m))
  · exact (h _).mpr ((le_commonPrefixLen_iff l l' _).mp (Nat.le_refl _))

theorem commonPrefixLen_le (l l' : List α) :
    commonPrefixLen l l' ≤ l.length ∧ commonPrefixLen l l' ≤ l'.length := by
  have h := (le_commonPrefixLen_iff l l' _).mp (Nat.le_refl _)
  exact ⟨h.1, h.2.1⟩

theorem take_commonPrefixLen (l l' : List α) :
    l.take (commonPrefixLen l l') = l'.take (commonPrefixLen l l') :=
  ((le_commonPrefixLen_iff l l' _).mp (Nat.le_refl _)).2.2

theorem commonPrefixLen_comm (l l' : List α) : commonPrefixLen l l' = commonPrefixLen l' l := by
  refine eq_commonPrefixLen fun n => ?_
  rw [le_commonPrefixLen_iff, eq_comm, and_left_comm]

theorem commonPrefixLen_pos {l l' : List α} {a : α} (h : l.head? = some a)
    (h' : l'.head? = some a) : 0 < commonPrefixLen l l' := by
  obtain ⟨l, rfl⟩ := List.head?_eq_some_iff.mp h
  obtain ⟨l', rfl⟩ := List.head?_eq_some_iff.mp h'
  rw [commonPrefixLen, if_pos rfl]
  exact Nat.succ_pos _

theorem commonPrefixLen_pages {ps : Nat} (hps : 0 < ps) (l l' : List α) :
    commonPrefixLen (pages ps l) (pages ps l') = commonPrefixLen l l' / ps := by
  refine (eq_commonPrefixLen fun n => ?_).symm
  rw [Nat.le_div_iff_mul_le hps, le_commonPrefixLen_iff, length_pages, length_pages,
    Nat.le_div_iff_mul_le hps, Nat.le_div_iff_mul_le hps]
  refine and_congr_right fun hn => and_congr_right fun hn' => ?_
  exact (take_pages_eq_iff hn hn').symm

theorem commonPrefixLen_map {β : Type} [DecidableEq β] {f : α → β} (hf : Function.Injective f)
    (l l' : List α) : commonPrefixLen (l.map f) (l'.map f) = commonPrefixLen l l' := by
  refine (eq_commonPrefixLen fun n => ?_).symm
  rw [le_commonPrefixLen_iff, List.length_map, List.length_map, ← List.map_take, ← List.map_take,
    (List.map_injective_iff.mpr hf).eq_iff]

end CommonPrefix

end SpecDecode
