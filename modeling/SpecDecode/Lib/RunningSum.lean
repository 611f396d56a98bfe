import Mathlib.Algebra.Order.BigOperators.Group.List
import Mathlib.MeasureTheory.Constructions.Pi
import Mathlib.MeasureTheory.Measure.Lebesgue.Basic

/-!
# Choosing by a running sum

A uniform coin chooses from a list of weights: the choice is the first weight at which the running
sum reaches the coin. `firstReach` is that search for any condition on the sum. A weight is chosen
with a chance of its own size when the sums are compared with the coin itself (`toss_reach`), and
with its share of the total when the coin is scaled by the total (`toss_share`).
-/

namespace SpecDecode

section Search

variable {K : Type} [AddCommMonoid K] {p : K → Prop} [DecidablePred p] {acc : K} {ws vs : List K}

/-- The first weight behind which the running sum, started at `acc`, satisfies `p`. -/
def firstReach (p : K → Prop) [DecidablePred p] : K → List K → Option Nat
  | _, [] => none
  | acc, w :: ws => if p (acc + w) then some 0 else (firstReach p (acc + w) ws).map (· + 1)

theorem firstReach_append : firstReach p acc (ws ++ vs) =
    (firstReach p acc ws).or ((firstReach p (acc + ws.sum) vs).map (· + ws.length)) := by
  induction ws generalizing acc with
  | nil =>
      rw [List.nil_append, List.sum_nil, add_zero]
      cases firstReach p acc vs <;> rfl
  | cons w ws ih =>
      rw [List.cons_append, firstReach, firstReach]
      split
      · rfl
      · rw [ih, List.sum_cons, ← add_assoc]
        cases firstReach p (acc + w) ws <;> cases firstReach p (acc + w + ws.sum) vs <;> rfl

theorem firstReach_lt {i : Nat} (h : firstReach p acc ws = some i) : i < ws.length := by
  induction ws generalizing acc i with
  | nil => cases h
  | cons w ws ih =>
      rw [firstReach] at h
      split at h
      · obtain rfl := Option.some.inj h
        exact Nat.succ_pos _
      · obtain ⟨j, hj, rfl⟩ := Option.map_eq_some_iff.mp h
        exact Nat.succ_lt_succ (ih hj)

end Search

section Ordered

variable {K : Type} [AddCommMonoid K] [LinearOrder K] [IsOrderedAddMonoid K]
variable {p : K → Prop} [DecidablePred p] {acc : K} {ws : List K}

/-- With weights that are not negative the search stops between two sums. -/
theorem firstReach_eq_some_iff (hp : ∀ x y, x ≤ y → p x → p y) (hws : ∀ w ∈ ws, 0 ≤ w)
    (hacc : ¬ p acc) {i : Nat} : firstReach p acc ws = some i ↔
      i < ws.length ∧ p (acc + (ws.take (i + 1)).sum) ∧ ¬ p (acc + (ws.take i).sum) := by
  induction ws generalizing acc i with
  | nil => simp [firstReach]
  | cons w ws ih =>
      obtain ⟨hw, hws⟩ := List.forall_mem_cons.mp hws
      rw [firstReach]
      split
      · next hreach =>
          cases i with
          | zero => simp [hreach, hacc]
          | succ i =>
              refine iff_of_false (fun h => by cases h) fun h => h.2.2 (hp _ _ ?_ hreach)
              rw [List.take_succ_cons, List.sum_cons, ← add_assoc]
              exact le_add_of_nonneg_right
                (List.sum_nonneg fun x hx => hws x (List.mem_of_mem_take hx))
      · next hreach =>
          cases i with
          | zero =>
              refine iff_of_false (fun h => ?_) fun h => hreach ?_
              · obtain ⟨j, -, hj⟩ := Option.map_eq_some_iff.mp h
                cases hj
              · simpa using h.2.1
          | succ i =>
              simp only [Option.map_eq_some_iff, Nat.add_right_cancel_iff, exists_eq_right,
                ih hws hreach, List.take_succ_cons, List.sum_cons, ← add_assoc, List.length_cons,
                Nat.add_lt_add_iff_right]

theorem firstReach_eq_none_iff (hp : ∀ x y, x ≤ y → p x → p y) (hws : ∀ w ∈ ws, 0 ≤ w)
    (hacc : ¬ p acc) : firstReach p acc ws = none ↔ ¬ p (acc + ws.sum) := by
  induction ws generalizing acc with
  | nil => simpa [firstReach] using hacc
  | cons w ws ih =>
      obtain ⟨hw, hws⟩ := List.forall_mem_cons.mp hws
      rw [firstReach, List.sum_cons, ← add_assoc]
      split
      · next hreach =>
          refine iff_of_false (fun h => by cases h) fun h => h (hp _ _ ?_ hreach)
          exact le_add_of_nonneg_right (List.sum_nonneg hws)
      · next hreach => rw [Option.map_eq_none_iff, ih hws hreach]

end Ordered

open MeasureTheory Set

/-- A coin that is uniform on `[0, 1)`. -/
noncomputable def toss : Measure ℝ := volume.restrict (Ico 0 1)

instance : IsProbabilityMeasure toss := by
  refine ⟨?_⟩
  rw [toss, Measure.restrict_apply_univ, Real.volume_Ico, sub_zero, ENNReal.ofReal_one]

theorem toss_between {s : Set ℝ} {a b : ℝ} (ha : 0 ≤ a) (hb : b ≤ 1) (hin : Ioo a b ⊆ s)
    (hout : ∀ x ∈ s, 0 < x → x < 1 → a ≤ x ∧ x ≤ b) : toss s = ENNReal.ofReal (b - a) := by
  rw [toss, Measure.restrict_apply' measurableSet_Ico]
  apply le_antisymm
  · have hsub : s ∩ Ico 0 1 ⊆ insert 0 (Icc a b) := by
      rintro x ⟨hx, hzero, hone⟩
      rcases hzero.eq_or_lt with rfl | hpos
      · exact mem_insert _ _
      · exact mem_insert_of_mem _ (hout x hx hpos hone)
    calc volume (s ∩ Ico 0 1) ≤ volume (insert 0 (Icc a b)) := measure_mono hsub
      _ ≤ volume {(0 : ℝ)} + volume (Icc a b) := measure_union_le _ _
      _ = ENNReal.ofReal (b - a) := by rw [Real.volume_singleton, zero_add, Real.volume_Icc]
  · rw [← Real.volume_Ioo]
    refine measure_mono fun x hx => ⟨hin hx, ?_, ?_⟩
    · exact ha.trans hx.1.le
    · exact hx.2.trans_le hb

section Toss

variable {ws : List ℝ} {i : Nat}

theorem take_sum_nonneg (hws : ∀ w ∈ ws, 0 ≤ w) (i : Nat) : 0 ≤ (ws.take i).sum :=
  List.sum_nonneg fun x hx => hws x (List.mem_of_mem_take hx)

theorem toss_reach (hws : ∀ w ∈ ws, 0 ≤ w) (hsum : ws.sum ≤ 1) (hi : i < ws.length) :
    toss {x | firstReach (x ≤ ·) 0 ws = some i} = ENNReal.ofReal ws[i] := by
  have hchoice : ∀ x : ℝ, 0 < x → (firstReach (x ≤ ·) 0 ws = some i ↔
      x ≤ (ws.take (i + 1)).sum ∧ (ws.take i).sum < x) := by
    intro x hx
    rw [firstReach_eq_some_iff (fun y z hyz hy => hy.trans hyz) hws hx.not_ge, zero_add, zero_add,
      not_le]
    exact and_iff_right hi
  have hwidth : ws[i] = (ws.take (i + 1)).sum - (ws.take i).sum := by
    rw [List.sum_take_succ ws i hi, add_sub_cancel_left]
  rw [hwidth]
  refine toss_between (take_sum_nonneg hws i)
    (((List.take_sublist _ _).sum_le_sum hws).trans hsum) ?_ ?_
  · intro x hx
    exact (hchoice x ((take_sum_nonneg hws i).trans_lt hx.1)).mpr ⟨hx.2.le, hx.1⟩
  · intro x hx hpos _
    obtain ⟨hle, hlt⟩ := (hchoice x hpos).mp hx
    exact ⟨hlt.le, hle⟩

theorem toss_reach_none (hws : ∀ w ∈ ws, 0 ≤ w) :
    toss {x | firstReach (x ≤ ·) 0 ws = none} = ENNReal.ofReal (1 - ws.sum) := by
  have hchoice : ∀ x : ℝ, 0 < x → (firstReach (x ≤ ·) 0 ws = none ↔ ws.sum < x) := by
    intro x hx
    rw [firstReach_eq_none_iff (fun y z hyz hy => hy.trans hyz) hws hx.not_ge, zero_add, not_le]
  refine toss_between (List.sum_nonneg hws) le_rfl ?_ ?_
  · intro x hx
    exact (hchoice x ((List.sum_nonneg hws).trans_lt hx.1)).mpr hx.1
  · intro x hx hpos hone
    exact ⟨((hchoice x hpos).mp hx).le, hone.le⟩

theorem toss_share (hws : ∀ w ∈ ws, 0 ≤ w) (hsum : 0 < ws.sum) (hi : i < ws.length) :
    toss {x | firstReach (x * ws.sum < ·) 0 ws = some i} = ENNReal.ofReal (ws[i] / ws.sum) := by
  have hchoice : ∀ x : ℝ, 0 < x → (firstReach (x * ws.sum < ·) 0 ws = some i ↔
      x < (ws.take (i + 1)).sum / ws.sum ∧ (ws.take i).sum / ws.sum ≤ x) := by
    intro x hx
    rw [firstReach_eq_some_iff (fun y z hyz hy => hy.trans_le hyz) hws
      (mul_nonneg hx.le hsum.le).not_gt, zero_add, zero_add, not_lt, lt_div_iff₀ hsum,
      div_le_iff₀ hsum]
    exact and_iff_right hi
  have hwidth : ws[i] / ws.sum = (ws.take (i + 1)).sum / ws.sum - (ws.take i).sum / ws.sum := by
    rw [← sub_div, List.sum_take_succ ws i hi, add_sub_cancel_left]
  rw [hwidth]
  have hstart : 0 ≤ (ws.take i).sum / ws.sum := div_nonneg (take_sum_nonneg hws i) hsum.le
  refine toss_between hstart ((div_le_one hsum).mpr ((List.take_sublist _ _).sum_le_sum hws)) ?_ ?_
  · intro x hx
    exact (hchoice x (hstart.trans_lt hx.1)).mpr ⟨hx.2, hx.1.le⟩
  · intro x hx hpos _
    obtain ⟨hlt, hle⟩ := (hchoice x hpos).mp hx
    exact ⟨hle, hlt.le⟩

end Toss

theorem toss_inside : ∀ᵐ x ∂toss, 0 < x ∧ x < 1 := by
  rw [ae_iff, toss_between (a := 1) (b := 1) zero_le_one le_rfl, sub_self, ENNReal.ofReal_zero]
  · simp
  · exact fun x hx hpos hone => absurd ⟨hpos, hone⟩ hx

/-- Of a coin only what happens strictly inside of `(0, 1)` counts. -/
theorem toss_congr {s t : Set ℝ} (h : ∀ x, 0 < x → x < 1 → (x ∈ s ↔ x ∈ t)) : toss s = toss t :=
  measure_congr (toss_inside.mono fun x hx => propext (h x hx.1 hx.2))

theorem tosses_congr {ι : Type} [Fintype ι] {s t : Set (ι → ℝ)}
    (h : ∀ ω, (∀ i, 0 < ω i ∧ ω i < 1) → (ω ∈ s ↔ ω ∈ t)) :
    Measure.pi (fun _ : ι => toss) s = Measure.pi (fun _ : ι => toss) t := by
  have hall : ∀ᵐ ω ∂Measure.pi (fun _ : ι => toss), ∀ i, 0 < ω i ∧ ω i < 1 := by
    rw [ae_all_iff]
    exact fun i => (Measure.quasiMeasurePreserving_eval (fun _ : ι => toss) i).ae toss_inside
  exact measure_congr (hall.mono fun ω hω => propext (h ω hω))

end SpecDecode
