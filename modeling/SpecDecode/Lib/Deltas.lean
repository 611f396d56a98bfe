import Mathlib.Data.List.Infix
import Mathlib.Tactic.Common

/-!
# Sending a growing text piece by piece

A sender that knows only the length of what it sent last cuts that many elements off the next
version and sends the rest. The pieces put together are the last version exactly when no
version is shorter than the one before, as long as a version that is not shorter extends it.
-/

namespace SpecDecode.Deltas

variable {α : Type}

/-- The pieces sent for the versions `os`, after a version of length `sent`. -/
def deltas : Nat → List (List α) → List (List α)
  | _, [] => []
  | sent, o :: os => o.drop sent :: deltas o.length os

def Grows : Nat → List (List α) → Prop
  | _, [] => True
  | sent, o :: os => sent ≤ o.length ∧ Grows o.length os

def latest : List α → List (List α) → List α
  | o, [] => o
  | _, o :: os => latest o os

variable {prev : List α} {os : List (List α)}

@[simp] theorem latest_concat (o : List α) : latest prev (os ++ [o]) = o := by
  induction os generalizing prev with
  | nil => rfl
  | cons o' os ih => exact ih

theorem latest_length_le :
    (latest prev os).length ≤ prev.length + (deltas prev.length os).flatten.length := by
  induction os generalizing prev with
  | nil => exact Nat.le_add_right ..
  | cons o os ih =>
      have := @ih o
      simp only [latest, deltas, List.flatten_cons, List.length_append, List.length_drop] at this ⊢
      omega

theorem grows_of_length
    (h : (deltas prev.length os).flatten.length + prev.length = (latest prev os).length) :
    Grows prev.length os := by
  induction os generalizing prev with
  | nil => trivial
  | cons o os ih =>
      have hle := @latest_length_le α o os
      simp only [latest, deltas, List.flatten_cons, List.length_append, List.length_drop] at h hle ⊢
      exact ⟨by omega, ih (by omega)⟩

def Extends : List α → List (List α) → Prop
  | _, [] => True
  | prev, o :: os => prev <+: o ∧ Extends o os

theorem Extends.grows (h : Extends prev os) : Grows prev.length os := by
  induction os generalizing prev with
  | nil => trivial
  | cons o os ih => exact ⟨h.1.length_le, ih h.2⟩

theorem append_deltas (h : Extends prev os) :
    prev ++ (deltas prev.length os).flatten = latest prev os := by
  induction os generalizing prev with
  | nil => exact List.append_nil prev
  | cons o os ih =>
      obtain ⟨w, rfl⟩ := h.1
      simp only [deltas, List.flatten_cons, List.drop_left, latest]
      rw [← List.append_assoc]
      exact ih h.2

theorem deltas_take (sent k : Nat) (os : List (List α)) :
    (deltas sent os).take k = deltas sent (os.take k) := by
  induction os generalizing sent k with
  | nil => rw [List.take_nil, deltas, List.take_nil]
  | cons o os ih =>
      cases k with
      | zero => rfl
      | succ k => simp only [deltas, List.take_succ_cons, ih]

theorem Extends.take (h : Extends prev os) (k : Nat) : Extends prev (os.take k) := by
  induction os generalizing prev k with
  | nil => rwa [List.take_nil]
  | cons o os ih =>
      cases k with
      | zero => trivial
      | succ k => exact ⟨h.1, ih h.2 k⟩

end SpecDecode.Deltas
