import Mathlib.Data.List.Basic
import Mathlib.Logic.Function.Iterate

/-!
# Breadth-first order

A queue of nodes whose children are put behind it visits a tree level by level. The
list of the visited nodes is then the root and behind it the children of the list
itself; `levels` takes such a list apart.
-/

namespace SpecDecode.BreadthFirst

variable {α : Type}

/-- The nodes at distance `k` from the root. -/
def level (children : α → List α) (root : α) : Nat → List α
  | 0 => [root]
  | k + 1 => (level children root k).flatMap children

/-- The nodes come in the order in which a queue visits them. -/
def Visits (children : α → List α) (root : α) (nodes : List α) : Prop :=
  nodes = root :: nodes.flatMap children

variable {children : α → List α} {root : α} {nodes : List α}

theorem iterate_flatMap_append (k : Nat) (l l' : List α) :
    (List.flatMap children)^[k] (l ++ l') =
      (List.flatMap children)^[k] l ++ (List.flatMap children)^[k] l' := by
  induction k generalizing l l' with
  | zero => rfl
  | succ k ih =>
      simp only [Function.iterate_succ_apply, List.flatMap_append, ih]

theorem level_eq_iterate (k : Nat) :
    level children root k = (List.flatMap children)^[k] [root] := by
  induction k with
  | zero => rfl
  | succ k ih => rw [Function.iterate_succ_apply', ← ih, level]

theorem Visits.levels_append (h : Visits children root nodes) (k : Nat) :
    nodes = (List.range k).flatMap (level children root) ++ (List.flatMap children)^[k] nodes := by
  induction k with
  | zero => rfl
  | succ k ih =>
      have hbelow : (List.flatMap children)^[k] nodes =
          level children root k ++ (List.flatMap children)^[k + 1] nodes := by
        conv_lhs => rw [h]
        rw [level_eq_iterate, ← List.singleton_append, iterate_flatMap_append,
          Function.iterate_succ_apply]
      rw [List.range_succ, List.flatMap_append, List.flatMap_singleton, List.append_assoc, ← hbelow]
      exact ih

theorem le_rank_of_mem {rank : α → Nat} (hrank : ∀ v, ∀ c ∈ children v, rank v < rank c) {k : Nat}
    {l : List α} {v : α} (hv : v ∈ (List.flatMap children)^[k] l) : k ≤ rank v := by
  induction k generalizing v with
  | zero => exact Nat.zero_le _
  | succ k ih =>
      rw [Function.iterate_succ_apply', List.mem_flatMap] at hv
      obtain ⟨u, hu, hv⟩ := hv
      exact Nat.lt_of_le_of_lt (ih hu) (hrank u v hv)

theorem Visits.eq_levels (h : Visits children root nodes) (rank : α → Nat) {bound : Nat}
    (hrank : ∀ v, ∀ c ∈ children v, rank v < rank c) (hbound : ∀ v ∈ nodes, rank v < bound) :
    nodes = (List.range bound).flatMap (level children root) := by
  have hlevels := h.levels_append bound
  have hnil : (List.flatMap children)^[bound] nodes = [] := by
    refine List.eq_nil_iff_forall_not_mem.mpr fun v hv => ?_
    have hmem : v ∈ nodes := by
      rw [hlevels]
      exact List.mem_append_right _ hv
    exact Nat.lt_irrefl _ (Nat.lt_of_le_of_lt (le_rank_of_mem hrank hv) (hbound v hmem))
  rwa [hnil, List.append_nil] at hlevels

end SpecDecode.BreadthFirst
