import SpecDecode.Lib.OptionMap
import Mathlib.Algebra.BigOperators.Group.List.Basic
import Mathlib.Algebra.Order.Group.Nat
import Mathlib.Algebra.Order.Ring.Int

/-!
# Ragged arrays

The segments of a ragged array are stored one after another. A segment is found by the sum of
the lengths before it, and a choice of segments is gathered by the positions of their elements.
-/

namespace SpecDecode.Ragged

open OptionMap

variable {α β γ : Type} {xs : List α} {indices : List Nat}

/-- `values[indices]`; an index out of range raises. -/
def gather (xs : List α) (indices : List Nat) : Option (List α) := indices.mapM fun i => xs[i]?

theorem gather_map {ys : List α} (f : α → β) (h : gather xs indices = some ys) :
    gather (xs.map f) indices = some (ys.map f) := by
  refine mapM_of_forall₂ (List.forall₂_map_right_iff.mpr ?_)
  refine (forall₂_of_mapM h).imp fun i y hy => ?_
  rw [List.getElem?_map, hy, Option.map_some]

theorem gather_append {ys zs : List α} {is js : List Nat} (hys : gather xs is = some ys)
    (hzs : gather xs js = some zs) : gather xs (is ++ js) = some (ys ++ zs) := by
  rw [gather] at *
  rw [List.mapM_append, hys, hzs]
  rfl

theorem gather_flatMap {l : List γ} {positions : γ → List Nat} {part : γ → List α}
    (h : ∀ c ∈ l, gather xs (positions c) = some (part c)) :
    gather xs (l.flatMap positions) = some (l.flatMap part) := by
  induction l with
  | nil => rfl
  | cons c l ih =>
      rw [List.forall_mem_cons] at h
      exact gather_append h.1 (ih h.2)

theorem gather_range' {start : Nat} {ys rest : List α} (h : xs.drop start = ys ++ rest) :
    gather xs (List.range' start ys.length) = some ys := by
  refine mapM_of_forall₂ (List.forall₂_iff_get.mpr ⟨List.length_range', fun i hi hi' => ?_⟩)
  rw [List.get_eq_getElem, List.get_eq_getElem, List.getElem_range', Nat.one_mul,
    ← List.getElem?_drop, h, List.getElem?_append_left hi', List.getElem?_eq_getElem hi']

theorem getElem?_flatMap_width {f : γ → List α} {w : Nat} (hw : ∀ c, (f c).length = w) (l : List γ)
    {i k : Nat} (hk : k < w) : (l.flatMap f)[i * w + k]? = l[i]?.bind fun c => (f c)[k]? := by
  induction l generalizing i with
  | nil => rfl
  | cons c l ih =>
      rw [List.flatMap_cons]
      cases i with
      | zero =>
          rw [Nat.zero_mul, Nat.zero_add, List.getElem?_append_left (by rwa [hw])]
          rfl
      | succ i =>
          rw [Nat.succ_mul, List.getElem?_append_right (by rw [hw]; omega), hw,
            show i * w + w + k - w = i * w + k by omega, ih, List.getElem?_cons_succ]

/-- The sums of the lengths before each segment, and the sum of all. -/
def offsets (lens : List Nat) : List Nat := lens.scanl (· + ·) 0

theorem getElem?_offsets_dropLast (lens : List Nat) {i : Nat} (hi : i < lens.length) :
    (offsets lens).dropLast[i]? = some (lens.take i).sum := by
  rw [offsets, List.getElem?_dropLast, List.length_scanl, if_pos (by omega),
    List.getElem?_scanl, if_pos (by omega), List.sum_eq_foldl]

theorem gather_segment (segments : List (List α)) {i : Nat} (hi : i < segments.length) :
    gather segments.flatten
      (List.range' ((segments.map List.length).take i).sum segments[i].length) =
        some segments[i] := by
  have hdrop : segments.flatten.drop ((segments.map List.length).take i).sum =
      segments[i] ++ (segments.drop (i + 1)).flatten := by
    rw [List.drop_sum_flatten, List.drop_eq_getElem_cons hi, List.flatten_cons]
  exact gather_range' hdrop

end SpecDecode.Ragged
