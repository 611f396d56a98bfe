import Mathlib.Data.List.Basic
import Mathlib.Data.List.Nodup
import Mathlib.Order.Defs.LinearOrder

/-!
# Balanced chunks

`n` elements are dealt out to `k` chunks in order, the first `n % k` chunks getting one element
more. `owner` finds the chunk of an element and `start`, `size` the elements of a chunk; they
describe the same assignment.
-/

namespace SpecDecode.Chunks

def owner (n k j : Nat) : Nat :=
  if j < n % k * (n / k + 1) then j / (n / k + 1)
  else n % k + (j - n % k * (n / k + 1)) / (n / k)

/-- Where a chunk starts. -/
def start (n k c : Nat) : Nat := c * (n / k) + min c (n % k)

def size (n k c : Nat) : Nat := n / k + if c < n % k then 1 else 0

variable {n k j c : Nat}

theorem div_eq_iff_mul_le {a b : Nat} (hb : 0 < b) : a / b = c ↔ c * b ≤ a ∧ a < c * b + b := by
  rw [← Nat.succ_mul, ← Nat.le_div_iff_mul_le hb, ← Nat.div_lt_iff_lt_mul hb]
  omega

theorem owner_eq_iff (hj : j < n) :
    owner n k j = c ↔ start n k c ≤ j ∧ j < start n k c + size n k c := by
  have hn : k * (n / k) + n % k = n := Nat.div_add_mod n k
  unfold owner start size
  have hzero : n / k = 0 → n % k = n := fun h => by
    rw [h, Nat.mul_zero, Nat.zero_add] at hn
    exact hn
  generalize n / k = q at *
  generalize n % k = r at *
  split
  · next hlong =>
      by_cases hc : c < r
      · rw [Nat.min_eq_left (Nat.le_of_lt hc), if_pos hc, div_eq_iff_mul_le (Nat.succ_pos q),
          Nat.mul_succ]
      · have hlt : j / (q + 1) < r := (Nat.div_lt_iff_lt_mul (Nat.succ_pos q)).mpr hlong
        have hmul : r * q ≤ c * q := Nat.mul_le_mul_right q (by omega)
        rw [Nat.min_eq_right (by omega), if_neg hc]
        rw [Nat.mul_succ] at hlong
        omega
  · next hshort =>
      have hq : 0 < q := by
        rcases Nat.eq_zero_or_pos q with rfl | hq
        · have := hzero rfl
          omega
        · exact hq
      by_cases hc : c < r
      · have hmul : (c + 1) * (q + 1) ≤ r * (q + 1) := Nat.mul_le_mul_right _ hc
        rw [Nat.succ_mul, Nat.mul_succ] at hmul
        rw [Nat.min_eq_left (Nat.le_of_lt hc), if_pos hc]
        generalize (j - r * (q + 1)) / q = z
        omega
      · obtain ⟨d, rfl⟩ := Nat.exists_eq_add_of_le (Nat.le_of_not_lt hc)
        rw [Nat.min_eq_right (by omega), if_neg hc, Nat.add_left_cancel_iff, div_eq_iff_mul_le hq,
          Nat.add_mul]
        rw [Nat.mul_succ] at hshort ⊢
        omega

theorem owner_lt (hk : 0 < k) (hj : j < n) : owner n k j < k := by
  obtain ⟨hle, _⟩ := (owner_eq_iff (c := owner n k j) hj).mp rfl
  by_contra hge
  have hn : k * (n / k) + n % k = n := Nat.div_add_mod n k
  have hmod := Nat.mod_lt n hk
  have hmul : k * (n / k) ≤ owner n k j * (n / k) := Nat.mul_le_mul_right _ (by omega)
  rw [start, Nat.min_eq_right (by omega)] at hle
  omega

end SpecDecode.Chunks
