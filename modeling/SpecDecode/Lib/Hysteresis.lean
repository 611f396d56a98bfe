import Mathlib.Data.Nat.Count
import Mathlib.Algebra.Order.Ring.Int

/-!
# Levels with two hysteresis thresholds

A controller stands on one of `n + 1` levels. Between level `i` and level `i + 1` there are two
thresholds: a signal of at most `drop i` lets it step down, a signal above `rise i` lets it step
up. It descends as far as it can and then climbs as far as it can. With increasing thresholds
this clamps the level between two others, which only depend on the signal.
-/

namespace SpecDecode.Hysteresis

variable {α : Type} [LinearOrder α] {drop rise t : Nat → α} {x y : α} {n i k : Nat}

/-- Step down while the signal does not exceed the threshold below. -/
def descend (drop : Nat → α) (x : α) : Nat → Nat
  | 0 => 0
  | i + 1 => if x ≤ drop i then descend drop x i else i + 1

/-- Step up while the signal exceeds the threshold above, with `k` levels left. -/
def ascend (rise : Nat → α) (x : α) : Nat → Nat → Nat
  | 0, i => i
  | k + 1, i => if rise i < x then ascend rise x k (i + 1) else i

/-- The number of thresholds below the signal, of `n` thresholds. -/
def level (t : Nat → α) (x : α) (n : Nat) : Nat := Nat.count (fun i => t i < x) n

theorem level_le (t : Nat → α) (x : α) (n : Nat) : level t x n ≤ n := Nat.count_le _

theorem level_mono (h : x ≤ y) : level t x n ≤ level t y n :=
  Nat.count_mono_left fun _ _ hi => lt_of_lt_of_le hi h

def Increasing (t : Nat → α) (n : Nat) : Prop := ∀ i j, i ≤ j → j < n → t i ≤ t j

theorem Increasing.of_succ (h : Increasing t (n + 1)) : Increasing t n :=
  fun i j hij hj => h i j hij (Nat.lt_succ_of_lt hj)

theorem Increasing.lt_level_iff (h : Increasing t n) (hi : i < n) : i < level t x n ↔ t i < x := by
  induction n with
  | zero => exact absurd hi (Nat.not_lt_zero i)
  | succ n ih =>
      have hsucc : level t x (n + 1) = level t x n + if t n < x then 1 else 0 := Nat.count_succ _ n
      by_cases hn : t n < x
      · have hall : level t x n = n := Nat.count_iff_forall.mpr fun j hj =>
          lt_of_le_of_lt (h j n (Nat.le_of_lt hj) (Nat.lt_succ_self n)) hn
        have hlt : t i < x :=
          lt_of_le_of_lt (h i n (Nat.le_of_lt_succ hi) (Nat.lt_succ_self n)) hn
        rw [hsucc, hall, if_pos hn]
        exact iff_of_true hi hlt
      · rw [hsucc, if_neg hn, Nat.add_zero]
        obtain hlt | heq := Nat.lt_succ_iff_lt_or_eq.mp hi
        · exact ih h.of_succ hlt
        · subst heq
          exact iff_of_false (Nat.not_lt.mpr (level_le t x i)) hn

/-- The descent ends at the level of the signal, or stays where it began below it. -/
theorem descend_eq (h : Increasing drop n) (hi : i ≤ n) :
    descend drop x i = min i (level drop x n) := by
  induction i with
  | zero => exact (Nat.zero_min _).symm
  | succ i ih =>
      have hlevel := h.lt_level_iff (x := x) hi
      rw [descend]
      split
      · next hle =>
          have hnot : ¬ i < level drop x n := fun hlt => absurd (hlevel.mp hlt) (not_lt.mpr hle)
          rw [ih (Nat.le_of_succ_le hi)]
          omega
      · next hgt =>
          have hlt : i < level drop x n := hlevel.mpr (not_le.mp hgt)
          omega

/-- The climb ends at the level of the signal, or stays where it began above it. -/
theorem ascend_eq (h : Increasing rise n) (hk : i + k = n) :
    ascend rise x k i = max i (level rise x n) := by
  induction k generalizing i with
  | zero =>
      have hle := level_le rise x n
      rw [ascend]
      omega
  | succ k ih =>
      have hlevel := h.lt_level_iff (x := x) (i := i) (by omega)
      rw [ascend]
      split
      · next hlt =>
          have hlt : i < level rise x n := hlevel.mpr hlt
          rw [ih (by omega)]
          omega
      · next hge =>
          have hnot : ¬ i < level rise x n := fun hlt => hge (hlevel.mp hlt)
          omega

/-- Where the controller ends up: the level, bounded by the drop level from above and then by the
rise level from below. -/
def settle (drop rise : Nat → α) (x : α) (n i : Nat) : Nat :=
  max (min i (level drop x n)) (level rise x n)

theorem settle_le (hi : i ≤ n) : settle drop rise x n i ≤ n :=
  max_le (min_le_of_left_le hi) (level_le rise x n)

/-- Settling again changes nothing, also where the drop thresholds exceed the rise thresholds. -/
@[simp]
theorem settle_settle : settle drop rise x n (settle drop rise x n i) = settle drop rise x n i := by
  unfold settle
  omega

theorem settle_mono (h : x ≤ y) : settle drop rise x n i ≤ settle drop rise y n i :=
  max_le_max (min_le_min_left i (level_mono h)) (level_mono h)

theorem ascend_descend (hdrop : Increasing drop n) (hrise : Increasing rise n) (hi : i ≤ n) :
    ascend rise x (n - descend drop x i) (descend drop x i) = settle drop rise x n i := by
  have hdescend := descend_eq (x := x) hdrop hi
  rw [ascend_eq hrise (by omega), hdescend]
  rfl

end SpecDecode.Hysteresis
