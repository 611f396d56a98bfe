import SpecDecode.Lib.Ranges
import Mathlib.Algebra.Order.Ring.Int
import Mathlib.Data.List.Rotate
import Mathlib.Order.Defs.LinearOrder

/-!
# Searching a cycle from a position

A sorted list is read as a cycle from the first element at or behind a position on. The search
returns the first element with a property, which comes no later than any other such element.
-/

namespace SpecDecode.CyclicSearch

open Ranges

variable {α κ : Type} [LinearOrder κ] {pos : α → κ} {k p q : κ} {l : List α}

/-- Going around from `k`, `p` is met no later than `q`: what lies at or behind `k` comes first,
and on the same side of `k` the lower one. -/
def NoLater (k p q : κ) : Prop := (k ≤ q → k ≤ p) ∧ ((k ≤ p ↔ k ≤ q) → p ≤ q)

theorem NoLater.refl (k p : κ) : NoLater k p p := ⟨fun h => h, fun _ => le_refl p⟩

theorem NoLater.antisymm (hpq : NoLater k p q) (hqp : NoLater k q p) : p = q :=
  le_antisymm (hpq.2 ⟨hqp.1, hpq.1⟩) (hqp.2 ⟨hpq.1, hqp.1⟩)

theorem le_of_mem_dropWhile (hl : l.Pairwise fun a b => pos a ≤ pos b) {a : α}
    (ha : a ∈ l.dropWhile fun a => decide (pos a < k)) : k ≤ pos a := by
  induction l with
  | nil => cases ha
  | cons b l ih =>
      obtain ⟨hb, hl⟩ := List.pairwise_cons.mp hl
      rw [List.dropWhile_cons] at ha
      split at ha
      · exact ih hl ha
      · next hnot =>
          have hle : k ≤ pos b := not_lt.mp fun hlt => hnot (decide_eq_true hlt)
          obtain rfl | ha := List.mem_cons.mp ha
          · exact hle
          · exact le_trans hle (hb a ha)

/-- The cycle of a sorted list, read from `k` on, meets its elements in order. -/
theorem pairwise_noLater (hl : l.Pairwise fun a b => pos a ≤ pos b) (k : κ) :
    ((l.dropWhile fun a => decide (pos a < k)) ++
      l.takeWhile fun a => decide (pos a < k)).Pairwise fun a b => NoLater k (pos a) (pos b) := by
  have hbelow : ∀ a ∈ l.takeWhile fun a => decide (pos a < k), ¬ k ≤ pos a :=
    fun a ha => not_le.mpr (of_decide_eq_true (List.all_eq_true.mp List.all_takeWhile a ha))
  refine List.pairwise_append.mpr ⟨?_, ?_, fun a ha b hb => ?_⟩
  · refine (hl.sublist (List.dropWhile_sublist _)).imp_of_mem fun ha _ hab => ?_
    exact ⟨fun _ => le_of_mem_dropWhile hl ha, fun _ => hab⟩
  · refine (hl.sublist (List.takeWhile_sublist _)).imp_of_mem fun _ hb hab => ?_
    exact ⟨fun hle => absurd hle (hbelow _ hb), fun _ => hab⟩
  · have hle := le_of_mem_dropWhile hl ha
    exact ⟨fun _ => hle, fun hsame => absurd (hsame.mp hle) (hbelow b hb)⟩

/-- The search returns an element that comes no later than any other with the property. -/
theorem find?_noLater {R : α → α → Prop} (hrefl : ∀ a, R a a) (hl : l.Pairwise R)
    {found : α → Bool} {a : α} (h : l.find? found = some a) :
    a ∈ l ∧ found a = true ∧ ∀ b ∈ l, found b = true → R a b := by
  obtain ⟨hfound, before, behind, rfl, hbefore⟩ := List.find?_eq_some_iff_append.mp h
  refine ⟨List.mem_append_right _ List.mem_cons_self, hfound, fun b hb hb' => ?_⟩
  obtain hb | hb := List.mem_append.mp hb
  · have hnot := hbefore b hb
    rw [hb'] at hnot
    cases hnot
  · obtain rfl | hb := List.mem_cons.mp hb
    · exact hrefl _
    · exact (List.pairwise_cons.mp (List.pairwise_append.mp hl).2.1).1 b hb

/-- The list from the first element on that fails a test, and what stands before it. -/
theorem drop_append_take_takeWhile (l : List α) (p : α → Bool) :
    l.drop (l.takeWhile p).length ++ l.take (l.takeWhile p).length =
      l.dropWhile p ++ l.takeWhile p := by
  have hsplit : l = l.takeWhile p ++ l.dropWhile p := List.takeWhile_append_dropWhile.symm
  have hdrop : l.drop (l.takeWhile p).length = l.dropWhile p :=
    (congrArg (List.drop _) hsplit).trans List.drop_left
  have htake : l.take (l.takeWhile p).length = l.takeWhile p :=
    (congrArg (List.take _) hsplit).trans List.take_left
  rw [hdrop, htake]

theorem filterMap_rotate {start : Nat} (hstart : start ≤ l.length) :
    ((List.range l.length).filterMap fun i => l[(start + i) % l.length]?) =
      l.drop start ++ l.take start := by
  rw [← List.rotate_eq_drop_append_take hstart]
  have hread : ((List.range l.length).filterMap fun i => l[(start + i) % l.length]?) =
      (List.range (l.rotate start).length).filterMap ((l.rotate start)[·]?) := by
    rw [List.length_rotate]
    refine List.filterMap_congr fun i hi => ?_
    rw [List.getElem?_rotate (List.mem_range.mp hi), Nat.add_comm]
  rw [hread, filterMap_range_getElem?]

end SpecDecode.CyclicSearch
