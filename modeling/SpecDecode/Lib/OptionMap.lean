import Mathlib.Data.List.Forall2

/-!
# Mapping a list by a function that may fail

The whole map fails as soon as one member fails. These rules say what a success gives, and what
makes it succeed.
-/

namespace SpecDecode.OptionMap

variable {α β : Type} {f : α → Option β}

theorem forall₂_mem {R : α → β → Prop} {l : List α} {l' : List β} (h : List.Forall₂ R l l') :
    (∀ a ∈ l, ∃ b ∈ l', R a b) ∧ ∀ b ∈ l', ∃ a ∈ l, R a b := by
  induction h with
  | nil => simp
  | cons hab _ ih =>
      constructor
      · intro a ha
        rcases List.mem_cons.mp ha with rfl | ha
        · exact ⟨_, List.mem_cons_self, hab⟩
        · obtain ⟨b, hb, hr⟩ := ih.1 a ha
          exact ⟨b, List.mem_cons_of_mem _ hb, hr⟩
      · intro b hb
        rcases List.mem_cons.mp hb with rfl | hb
        · exact ⟨_, List.mem_cons_self, hab⟩
        · obtain ⟨a, ha, hr⟩ := ih.2 b hb
          exact ⟨a, List.mem_cons_of_mem _ ha, hr⟩

theorem mapM_eq_some_map {g : α → β} {xs : List α} (h : ∀ x ∈ xs, f x = some (g x)) :
    xs.mapM f = some (xs.map g) := by
  induction xs with
  | nil => rfl
  | cons x xs ih =>
      rw [List.forall_mem_cons] at h
      rw [List.mapM_cons, h.1, ih h.2]
      rfl

theorem forall₂_of_mapM {xs : List α} {ys : List β} (h : xs.mapM f = some ys) :
    List.Forall₂ (fun x y => f x = some y) xs ys := by
  induction xs generalizing ys with
  | nil =>
      cases h
      exact .nil
  | cons x xs ih =>
      rw [List.mapM_cons] at h
      obtain ⟨y, hy, h⟩ := Option.bind_eq_some_iff.mp h
      obtain ⟨rest, hrest, h⟩ := Option.bind_eq_some_iff.mp h
      cases h
      exact .cons hy (ih hrest)

theorem mapM_of_forall₂ {xs : List α} {ys : List β}
    (h : List.Forall₂ (fun x y => f x = some y) xs ys) : xs.mapM f = some ys := by
  induction h with
  | nil => rfl
  | cons hy _ ih =>
      rw [List.mapM_cons, hy, ih]
      rfl

theorem exists_mapM {P : α → β → Prop} {xs : List α} (h : ∀ x ∈ xs, ∃ y, f x = some y ∧ P x y) :
    ∃ ys, xs.mapM f = some ys ∧ List.Forall₂ P xs ys := by
  induction xs with
  | nil => exact ⟨[], rfl, .nil⟩
  | cons x xs ih =>
      rw [List.forall_mem_cons] at h
      obtain ⟨⟨y, hy, hP⟩, h⟩ := h
      obtain ⟨ys, hys, hall⟩ := ih h
      refine ⟨y :: ys, ?_, .cons hP hall⟩
      rw [List.mapM_cons, hy, hys]
      rfl

end SpecDecode.OptionMap
