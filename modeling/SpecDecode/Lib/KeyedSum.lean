import Mathlib.Algebra.Order.Ring.Int
import Mathlib.Data.Finmap

/-!
# Sums over finite maps

`valueSum f m` adds the weights `f` of the values of an `AList`. It follows insertions and
removals, and it depends only on the weights that lookups return.
-/

namespace SpecDecode

variable {α β γ : Type}

def valueSum (f : β → Nat) (m : AList fun _ : α => β) : Nat :=
  (m.entries.map fun e => f e.2).sum

variable [DecidableEq α] {f : β → Nat} {g : γ → Nat} {m : AList fun _ : α => β} {a : α} {b : β}

theorem valueSum_insert (h : a ∉ m) : valueSum f (m.insert a b) = valueSum f m + f b := by
  unfold valueSum
  rw [AList.entries_insert_of_notMem h, List.map_cons, List.sum_cons, Nat.add_comm]

theorem valueSum_erase_add :
    valueSum f (m.erase a) + ((m.lookup a).map f).getD 0 = valueSum f m := by
  cases hlookup : m.lookup a with
  | none =>
      have hmem : a ∉ m.entries.keys := AList.lookup_eq_none.mp hlookup
      simp only [valueSum, AList.erase, List.kerase_of_notMem_keys hmem, Option.map_none,
        Option.getD_none, Nat.add_zero]
  | some b =>
      have hmem : a ∈ m := AList.lookup_isSome.mp (by rw [hlookup]; rfl)
      obtain ⟨b', l₁, l₂, hnot, hl, hk⟩ := List.exists_of_kerase hmem
      obtain rfl : b' = b := by
        have hfound := List.dlookup_append l₁ (⟨a, b'⟩ :: l₂) a
        rw [List.dlookup_eq_none.mpr hnot, Option.none_or, List.dlookup_cons_eq, ← hl] at hfound
        exact Option.some.inj (hfound.symm.trans hlookup)
      simp only [valueSum, AList.erase, hk]
      rw [hl]
      simp only [List.map_append, List.map_cons, List.sum_append, List.sum_cons, Option.map_some,
        Option.getD_some]
      omega

theorem valueSum_erase_of_lookup (h : m.lookup a = some b) :
    valueSum f (m.erase a) + f b = valueSum f m := by
  have hsum := @valueSum_erase_add α β _ f m a
  rwa [h, Option.map_some, Option.getD_some] at hsum

/-- A map into which every entry of `m` goes weighs at least as much. -/
theorem valueSum_le {m' : AList fun _ : α => γ}
    (h : ∀ a b, m.lookup a = some b → ∃ c, m'.lookup a = some c ∧ g c = f b) :
    valueSum f m ≤ valueSum g m' := by
  induction m using AList.insertRec generalizing m' with
  | H0 => exact Nat.zero_le _
  | IH a b m hnot ih =>
      obtain ⟨c, hc, hweight⟩ := h a b (AList.lookup_insert m)
      have hrest : valueSum f m ≤ valueSum g (m'.erase a) := by
        refine ih fun a' b' hb' => ?_
        have hne : a' ≠ a := by
          rintro rfl
          rw [AList.lookup_eq_none.mpr hnot] at hb'
          cases hb'
        rw [AList.lookup_erase_ne hne]
        exact h a' b' (by rwa [AList.lookup_insert_ne hne])
      rw [valueSum_insert hnot, ← valueSum_erase_of_lookup hc, hweight]
      exact Nat.add_le_add_right hrest _

theorem valueSum_congr {m' : AList fun _ : α => γ}
    (h : ∀ a, (m'.lookup a).map g = (m.lookup a).map f) : valueSum f m = valueSum g m' := by
  refine Nat.le_antisymm (valueSum_le fun a b hb => ?_) (valueSum_le fun a c hc => ?_)
  · have ha := h a
    rw [hb, Option.map_some] at ha
    exact Option.map_eq_some_iff.mp ha
  · have ha := (h a).symm
    rw [hc, Option.map_some] at ha
    exact Option.map_eq_some_iff.mp ha

end SpecDecode
