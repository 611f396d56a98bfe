import Mathlib.Data.List.Basic

/-!
# Ranges

The numbers below or above a bound inside a range, and a list read through its indices.
-/

namespace SpecDecode.Ranges

variable {α : Type} {c n : Nat}

theorem filter_range_lt (hc : c ≤ n) :
    (List.range n).filter (fun j => decide (j < c)) = List.range c := by
  obtain ⟨d, rfl⟩ := Nat.exists_eq_add_of_le hc
  rw [List.range_add, List.filter_append, List.filter_eq_self.mpr, List.filter_eq_nil_iff.mpr,
    List.append_nil]
  · intro j hj
    obtain ⟨k, -, rfl⟩ := List.mem_map.mp hj
    simp
  · intro j hj
    simpa using hj

theorem filter_range_ge (hc : c ≤ n) :
    (List.range n).filter (fun j => decide (c ≤ j)) = (List.range (n - c)).map (c + ·) := by
  obtain ⟨d, rfl⟩ := Nat.exists_eq_add_of_le hc
  rw [List.range_add, List.filter_append, List.filter_eq_nil_iff.mpr, List.filter_eq_self.mpr,
    List.nil_append, Nat.add_sub_cancel_left]
  · intro j hj
    obtain ⟨k, -, rfl⟩ := List.mem_map.mp hj
    simp
  · intro j hj
    simpa using hj

theorem filterMap_range_lt {m : Nat} (h : n ≤ m) (f : Nat → α) :
    ((List.range m).filterMap fun k => if k < n then some (f k) else none) =
      (List.range n).map f := by
  obtain ⟨d, rfl⟩ := Nat.exists_eq_add_of_le h
  rw [List.range_add, List.filterMap_append, List.filterMap_map]
  have hleft : ((List.range n).filterMap fun k => if k < n then some (f k) else none) =
      (List.range n).map f := by
    rw [← List.filterMap_eq_map]
    refine List.filterMap_congr fun k hk => ?_
    rw [if_pos (List.mem_range.mp hk)]
    rfl
  have hright : (List.range d).filterMap
      ((fun k => if k < n then some (f k) else none) ∘ (n + ·)) = [] := by
    rw [List.filterMap_eq_nil_iff]
    intro k _
    exact if_neg (show ¬ n + k < n by omega)
  rw [hleft, hright, List.append_nil]

theorem filterMap_range_getElem? (l : List α) : (List.range l.length).filterMap (l[·]?) = l := by
  have hmap : (List.range l.length).map (l[·]?) = l.map some := by
    refine List.ext_getElem (by simp) fun i hi _ => ?_
    rw [List.length_map, List.length_range] at hi
    simp [hi]
  calc (List.range l.length).filterMap (l[·]?)
      = ((List.range l.length).map (l[·]?)).filterMap id := by
        rw [List.filterMap_map]
        rfl
    _ = (l.map some).filterMap id := by rw [hmap]
    _ = l := by
        rw [List.filterMap_map]
        exact List.filterMap_some

end SpecDecode.Ranges
