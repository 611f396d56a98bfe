import Mathlib.Data.Nat.ModEq

/-!
# Slots of a ring with slack

Allocations number their elements 0, 1, 2, ... over a whole run. A block that starts at element
`before` takes the slots `before % limit + 1`, `before % limit + 2`, ... in a row: it runs past
the limit into the slack instead of wrapping inside. Elements less than a limit apart still get
different slots.
-/

namespace SpecDecode.SlackRing

variable {limit before before' i i' : Nat}

/-- The slot of the `i`-th element of the block that starts at `before`. -/
def slot (limit before i : Nat) : Nat := before % limit + 1 + i

theorem slot_pos (limit before i : Nat) : 0 < slot limit before i := by
  unfold slot
  omega

theorem slot_lt (hlimit : 0 < limit) {size : Nat} (hi : i < size) :
    slot limit before i < limit + size := by
  have hmod := Nat.mod_lt before hlimit
  unfold slot
  omega

theorem slot_mod (limit before i : Nat) :
    slot limit before i % limit = (before + i + 1) % limit := by
  have hmod : before % limit + (i + 1) ≡ before + (i + 1) [MOD limit] :=
    (Nat.mod_modEq before limit).add_right (i + 1)
  rw [slot, Nat.add_assoc, Nat.add_comm 1 i, Nat.add_assoc]
  exact hmod

/-- Two elements less than a limit apart have different slots. -/
theorem slot_ne (hlt : before + i < before' + i') (hclose : before' + i' < before + i + limit) :
    slot limit before i ≠ slot limit before' i' := by
  intro heq
  have hmod : (before + i + 1) % limit = (before' + i' + 1) % limit := by
    rw [← slot_mod, ← slot_mod, heq]
  have hdvd : limit ∣ before' + i' + 1 - (before + i + 1) :=
    (Nat.modEq_iff_dvd' (by omega)).mp hmod
  have hzero := Nat.eq_zero_of_dvd_of_lt hdvd (by omega)
  omega

end SpecDecode.SlackRing
