import Mathlib.Data.List.Nodup
import Mathlib.Data.List.Basic

/-!
# Scattered writes

`scatter into index src` writes the elements of `src` to the positions that `index` lists. With
distinct positions in range every position holds the element written to it, and the rest stays.
-/

namespace SpecDecode.Scatter

variable {α : Type}

/-- `into.scatter_(index, src)`; a position out of range and a short source raise. -/
def scatter (into : List α) (index : List Nat) (src : List α) : Option (List α) :=
  if index.length ≤ src.length then
    (index.zip src).foldlM (fun row write =>
      if write.1 < row.length then some (row.set write.1 write.2) else none) into
  else none

structure Scattered (into : List α) (index : List Nat) (src row : List α) : Prop where
  length : row.length = into.length
  written (j : Nat) (x : Nat) : index[j]? = some x → row[x]? = src[j]?
  other (x : Nat) : x ∉ index → row[x]? = into[x]?

theorem scatter_spec {into : List α} {index : List Nat} {src : List α}
    (hlen : index.length ≤ src.length) (hlt : ∀ x ∈ index, x < into.length) (hnodup : index.Nodup) :
    ∃ row, scatter into index src = some row ∧ Scattered into index src row := by
  rw [scatter, if_pos hlen]
  induction index generalizing into src with
  | nil =>
      refine ⟨into, ?_, rfl, fun j x hx => ?_, fun x _ => rfl⟩
      · rfl
      · cases hx
  | cons first index ih =>
      cases src with
      | nil => exact absurd hlen (by simp)
      | cons value src =>
          rw [List.forall_mem_cons] at hlt
          obtain ⟨hfirst, hnodup⟩ := List.nodup_cons.mp hnodup
          have hset : (into.set first value).length = into.length := List.length_set
          have hrest : ∀ x ∈ index, x < (into.set first value).length :=
            fun x hx => hset ▸ hlt.2 x hx
          obtain ⟨row, hrow, hdone⟩ := ih (Nat.le_of_succ_le_succ hlen) hrest hnodup
          refine ⟨row, ?_, hdone.length.trans hset, fun j x hx => ?_, fun x hx => ?_⟩
          · rw [List.zip_cons_cons, List.foldlM_cons, if_pos hlt.1]
            exact hrow
          · cases j with
            | zero =>
                obtain rfl := Option.some.inj hx
                rw [hdone.other _ hfirst, List.getElem?_set_self hlt.1]
                rfl
            | succ j => exact hdone.written j x hx
          · rw [List.mem_cons, not_or] at hx
            rw [hdone.other x hx.2, List.getElem?_set_ne (Ne.symm hx.1)]

end SpecDecode.Scatter
