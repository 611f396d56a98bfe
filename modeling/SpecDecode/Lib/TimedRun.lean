import Mathlib.Data.Nat.Basic

/-!
# Runs of machines that answer timed inputs

A machine takes an input at a time, answers it and moves. Two machines whose states stay related
as time goes on give the same answers.
-/

namespace SpecDecode.TimedRun

variable {σ σ' ι ω : Type}

/-- The answers of a machine to the inputs, one after another. -/
def answers (step : Nat → ι → σ → ω × σ) : σ → List (Nat × ι) → List ω
  | _, [] => []
  | s, (now, i) :: inputs => (step now i s).1 :: answers step (step now i s).2 inputs

/-- Every input comes no earlier than the one before it, the first no earlier than `last`. -/
def Nondecreasing : Nat → List (Nat × ι) → Prop
  | _, [] => True
  | last, (now, _) :: inputs => last ≤ now ∧ Nondecreasing now inputs

/-- A relation between two machines at a time that every step keeps, with equal answers. -/
structure Simulation (step : Nat → ι → σ → ω × σ) (step' : Nat → ι → σ' → ω × σ')
    (R : Nat → σ → σ' → Prop) : Prop where
  answer : ∀ last now i s s', R last s s' → last ≤ now → (step now i s).1 = (step' now i s').1
  next : ∀ last now i s s', R last s s' → last ≤ now → R now (step now i s).2 (step' now i s').2

variable {step : Nat → ι → σ → ω × σ} {step' : Nat → ι → σ' → ω × σ'} {R : Nat → σ → σ' → Prop}

theorem Simulation.answers_eq (h : Simulation step step' R) {inputs : List (Nat × ι)} :
    ∀ {last : Nat} {s : σ} {s' : σ'}, R last s s' → Nondecreasing last inputs →
      answers step s inputs = answers step' s' inputs := by
  induction inputs with
  | nil => exact fun _ _ => rfl
  | cons input inputs ih =>
      intro last s s' hR hmono
      obtain ⟨now, i⟩ := input
      have hanswer := h.answer last now i s s' hR hmono.1
      have hrest := ih (h.next last now i s s' hR hmono.1) hmono.2
      exact congrArg₂ List.cons hanswer hrest

end SpecDecode.TimedRun
