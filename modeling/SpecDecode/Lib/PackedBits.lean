import Mathlib.Tactic.Common
import Mathlib.Logic.Function.Basic

/-!
# Rows of bits in a buffer of bytes

A row starts at the byte `base`; its bit `j` is bit `j % 8` of byte `j / 8`, the little-endian
order of a packed word.
-/

namespace SpecDecode.PackedBits

open Function

/-- Bit `j` of the row at `base`. -/
def bit (m : Nat → BitVec 8) (base j : Nat) : Bool := (m (base + j / 8)).getLsbD (j % 8)

def setBit (m : Nat → BitVec 8) (base j : Nat) : Nat → BitVec 8 :=
  update m (base + j / 8) (m (base + j / 8) ||| 1#8 <<< (j % 8))

def setBits (m : Nat → BitVec 8) (base : Nat) (js : List Nat) : Nat → BitVec 8 :=
  js.foldl (fun m j => setBit m base j) m

variable {m : Nat → BitVec 8} {base : Nat}

@[simp] theorem setBits_nil : setBits m base [] = m := rfl

@[simp] theorem setBits_cons (j : Nat) (js : List Nat) :
    setBits m base (j :: js) = setBits (setBit m base j) base js := rfl

theorem bit_congr {m' : Nat → BitVec 8} {j : Nat} (h : m' (base + j / 8) = m (base + j / 8)) :
    bit m' base j = bit m base j :=
  congrArg (fun byte : BitVec 8 => byte.getLsbD (j % 8)) h

theorem getLsbD_shifted_one {i j : Nat} (hj : j < 8) : (1#8 <<< i).getLsbD j = decide (j = i) := by
  rw [BitVec.getLsbD_shiftLeft, BitVec.getLsbD_one, Bool.eq_iff_iff]
  simp only [Bool.and_eq_true, decide_eq_true_eq, Bool.not_eq_true']
  simp only [decide_eq_false_iff_not]
  omega

@[simp] theorem bit_setBit (i j : Nat) :
    bit (setBit m base i) base j = (decide (j = i) || bit m base j) := by
  rw [bit, setBit]
  by_cases hbyte : j / 8 = i / 8
  · rw [hbyte, update_self, BitVec.getLsbD_or, bit, hbyte,
      getLsbD_shifted_one (Nat.mod_lt j (by omega)), Bool.or_comm]
    congr 1
    rw [Bool.eq_iff_iff, decide_eq_true_eq, decide_eq_true_eq]
    omega
  · have hne : j ≠ i := fun h => hbyte (h ▸ rfl)
    rw [update_of_ne (by omega), decide_eq_false hne]
    rfl

theorem bit_setBits (js : List Nat) (j : Nat) :
    bit (setBits m base js) base j = (decide (j ∈ js) || bit m base j) := by
  induction js generalizing m with
  | nil => simp
  | cons i js ih =>
      rw [setBits_cons, ih, bit_setBit, Bool.eq_iff_iff]
      simp only [Bool.or_eq_true, decide_eq_true_eq, List.mem_cons]
      exact ⟨fun h => by tauto, fun h => by tauto⟩

theorem setBits_outside {width : Nat} {js : List Nat} (hjs : ∀ j ∈ js, j < 8 * width) {x : Nat}
    (hx : x < base ∨ base + width ≤ x) : setBits m base js x = m x := by
  induction js generalizing m with
  | nil => rfl
  | cons j js ih =>
      have hj := hjs j List.mem_cons_self
      rw [setBits_cons, ih fun i hi => hjs i (List.mem_cons_of_mem _ hi)]
      exact update_of_ne (by omega) _ _

end SpecDecode.PackedBits
