import Mathlib.Computability.Language
import Mathlib.Algebra.Order.Ring.Int

/-!
# Lengths of the words of a language

Bounds on the lengths of concatenations and powers, and powers with fewer factors for short words.
-/

namespace SpecDecode.Words

variable {α : Type} {L M : Language α} {m n k : Nat} {w : List α}

/-- No word of the language is longer than `n`. -/
def Bounded (L : Language α) (n : Nat) : Prop := ∀ w ∈ L, w.length ≤ n

theorem bounded_one : Bounded (1 : Language α) 0 := by
  intro w hw
  rw [Language.mem_one] at hw
  exact Nat.le_of_eq (congrArg List.length hw)

theorem Bounded.mul (hL : Bounded L m) (hM : Bounded M n) : Bounded (L * M) (m + n) := by
  intro w hw
  obtain ⟨a, ha, b, hb, rfl⟩ := Language.mem_mul.mp hw
  rw [List.length_append]
  exact Nat.add_le_add (hL a ha) (hM b hb)

theorem Bounded.pow (h : Bounded L n) (k : Nat) : Bounded (L ^ k) (k * n) := by
  induction k with
  | zero =>
      rw [pow_zero, Nat.zero_mul]
      exact bounded_one
  | succ k ih =>
      rw [pow_succ, Nat.succ_mul]
      exact ih.mul h

/-- A word with fewer letters than factors has an empty factor. -/
theorem mem_pow_pred (h : w ∈ L ^ (k + 1)) (hlen : w.length ≤ k) : w ∈ L ^ k := by
  induction k generalizing w with
  | zero => exact Language.mem_one _ |>.mpr (List.length_eq_zero_iff.mp (Nat.le_zero.mp hlen))
  | succ k ih =>
      rw [pow_succ'] at h
      obtain ⟨a, ha, b, hb, rfl⟩ := Language.mem_mul.mp h
      cases a with
      | nil => exact hb
      | cons x a =>
          rw [List.cons_append, List.length_cons, List.length_append] at hlen
          rw [pow_succ']
          exact Language.mem_mul.mpr ⟨x :: a, ha, b, ih hb (by omega), rfl⟩

theorem exists_mem_pow (h : w ∈ L ^ k) (hle : m ≤ k) :
    ∃ j, m ≤ j ∧ j ≤ k ∧ j ≤ m + w.length ∧ w ∈ L ^ j := by
  induction k with
  | zero => exact ⟨0, hle, Nat.le_refl 0, Nat.zero_le _, h⟩
  | succ k ih =>
      by_cases hshort : k + 1 ≤ m + w.length
      · exact ⟨k + 1, hle, Nat.le_refl _, hshort, h⟩
      · obtain ⟨j, hmin, hmax, hj, hmem⟩ := ih (mem_pow_pred h (by omega)) (by omega)
        exact ⟨j, hmin, by omega, hj, hmem⟩

end SpecDecode.Words
