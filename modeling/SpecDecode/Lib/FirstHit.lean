import Mathlib.Data.Nat.Find
import Mathlib.Algebra.Order.Ring.Int

/-!
# The first hit of a sequence of checks

A check is made after every step, and the first one that hits decides. When a hit returns a thing
to find and what is found stays there, the decisions agree with the things to find after every
step if and only if the check hits at the first step with something to find.
-/

namespace SpecDecode.FirstHit

variable {α : Type} {hit : Nat → Option α} {Found : Nat → α → Prop} {a : α} {k n : Nat}

/-- What the first check that hits after one of the steps up to `n` returns. -/
def firstHit (hit : Nat → Option α) : Nat → Option α
  | 0 => none
  | n + 1 => (firstHit hit n).or (hit (n + 1))

theorem firstHit_succ_of_none (h : firstHit hit n = none) : firstHit hit (n + 1) = hit (n + 1) := by
  rw [firstHit, h, Option.none_or]

theorem firstHit_succ_of_some (h : firstHit hit n = some a) : firstHit hit (n + 1) = some a := by
  rw [firstHit, h, Option.some_or]

theorem exists_hit (h : firstHit hit n = some a) : ∃ k, 0 < k ∧ k ≤ n ∧ hit k = some a := by
  induction n with
  | zero => cases h
  | succ n ih =>
      cases hbefore : firstHit hit n with
      | none =>
          rw [firstHit_succ_of_none hbefore] at h
          exact ⟨n + 1, Nat.succ_pos n, Nat.le_refl _, h⟩
      | some b =>
          rw [firstHit_succ_of_some hbefore] at h
          obtain ⟨k, hpos, hk, hhit⟩ := ih (hbefore.trans h)
          exact ⟨k, hpos, Nat.le_succ_of_le hk, hhit⟩

theorem isSome_of_hit (hpos : 0 < k) (hk : k ≤ n) (h : (hit k).isSome) :
    (firstHit hit n).isSome := by
  induction n with
  | zero => omega
  | succ n ih =>
      rw [firstHit, Option.isSome_or]
      obtain hlt | rfl := Nat.lt_or_eq_of_le hk
      · rw [ih (Nat.lt_succ_iff.mp hlt)]
        rfl
      · rw [h, Bool.or_true]

/-- After every step there is a decision if and only if there is something to find, and the
decision is a thing to find. -/
def Agrees (Found : Nat → α → Prop) (decision : Nat → Option α) (n : Nat) : Prop :=
  ∀ k ≤ n, (decision k = none ∧ ∀ a, ¬ Found k a) ∨ ∃ a, decision k = some a ∧ Found k a

theorem agrees_congr {decision decision' : Nat → Option α} (h : ∀ k ≤ n, decision k = decision' k) :
    Agrees Found decision n ↔ Agrees Found decision' n :=
  forall₂_congr fun k hk => by rw [h k hk]

def First (Found : Nat → α → Prop) (k : Nat) : Prop :=
  (∃ a, Found k a) ∧ ∀ j < k, ∀ a, ¬ Found j a

theorem exists_first (h : Found n a) : ∃ k ≤ n, First Found k := by
  classical
  have hex : ∃ k a, Found k a := ⟨n, a, h⟩
  exact ⟨Nat.find hex, Nat.find_min' hex ⟨a, h⟩, Nat.find_spec hex,
    fun j hj a ha => Nat.find_min hex hj ⟨a, ha⟩⟩

/-- The first hits agree with what there is to find if and only if the first step with something
to find is a hit. -/
theorem agrees_iff (hsound : ∀ k, 0 < k → k ≤ n → ∀ a, hit k = some a → Found k a)
    (hmono : ∀ {j k a}, Found j a → j ≤ k → Found k a) (hzero : ∀ a, ¬ Found 0 a) :
    Agrees Found (firstHit hit) n ↔ ∀ k ≤ n, First Found k → (hit k).isSome := by
  constructor
  · intro hagree k hk ⟨⟨a, ha⟩, hfirst⟩
    obtain ⟨_, hnone⟩ | ⟨b, hb, _⟩ := hagree k hk
    · exact absurd ha (hnone a)
    · obtain ⟨j, hpos, hj, hhit⟩ := exists_hit hb
      obtain rfl | hlt := Nat.eq_or_lt_of_le hj
      · rw [hhit]
        rfl
      · exact absurd (hsound j hpos (hj.trans hk) b hhit) (hfirst j hlt b)
  · intro hcover k hk
    cases hdecision : firstHit hit k with
    | none =>
        refine Or.inl ⟨rfl, fun a ha => ?_⟩
        obtain ⟨j, hj, hfirst⟩ := exists_first ha
        have hpos : 0 < j := Nat.pos_of_ne_zero fun h0 => by
          obtain ⟨b, hb⟩ := hfirst.1
          exact hzero b (h0 ▸ hb)
        have hsome := isSome_of_hit hpos hj (hcover j (hj.trans hk) hfirst)
        rw [hdecision] at hsome
        cases hsome
    | some a =>
        obtain ⟨j, hpos, hj, hhit⟩ := exists_hit hdecision
        exact Or.inr ⟨a, rfl, hmono (hsound j hpos (hj.trans hk) a hhit) hj⟩

end SpecDecode.FirstHit
