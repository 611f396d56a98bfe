import Mathlib.Data.List.Pairwise
import Mathlib.Algebra.Order.Ring.Int

/-!
# Ranges that tile an interval

Closed ranges that follow each other without gap and overlap. Every number of the interval lies
in exactly one of them, and the ranges are in increasing order.
-/

namespace SpecDecode.Tiling

variable {β : Type} {lower upper : β → Nat} {start stop x : Nat} {b : β} {l : List β}

inductive Tiles (lower upper : β → Nat) : Nat → List β → Nat → Prop
  | nil (n : Nat) : Tiles lower upper n [] n
  | cons {start stop : Nat} {b : β} {l : List β} (hlower : lower b = start)
      (hle : start ≤ upper b) (hrest : Tiles lower upper (upper b + 1) l stop) :
      Tiles lower upper start (b :: l) stop

namespace Tiles

section

variable (h : Tiles lower upper start l stop)

include h

theorem start_le : start ≤ stop := by
  induction h with
  | nil n => exact Nat.le_refl n
  | cons _ hle _ ih => omega

theorem mem_bounds :
    ∀ b ∈ l, start ≤ lower b ∧ lower b ≤ upper b ∧ upper b < stop := by
  induction h with
  | nil => exact List.forall_mem_nil _
  | cons hlower hle hrest ih =>
      refine List.forall_mem_cons.mpr ⟨?_, fun b hb => ?_⟩
      · have hstop := hrest.start_le
        omega
      · have hrest := ih b hb
        omega

theorem pairwise : l.Pairwise fun a b => upper a < lower b := by
  induction h with
  | nil => exact .nil
  | cons _ _ hrest ih => exact .cons (fun b hb => (hrest.mem_bounds b hb).1) ih

theorem exists_range (hstart : start ≤ x) (hstop : x < stop) :
    ∃ b ∈ l, lower b ≤ x ∧ x ≤ upper b := by
  induction h with
  | nil => omega
  | @cons _ _ b _ hlower hle _ ih =>
      by_cases hx : x ≤ upper b
      · exact ⟨_, List.mem_cons_self, by omega, hx⟩
      · obtain ⟨b, hb, hrange⟩ := ih (by omega) hstop
        exact ⟨b, List.mem_cons_of_mem _ hb, hrange⟩

end

end Tiles

end SpecDecode.Tiling
