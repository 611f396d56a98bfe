import Mathlib.Algebra.Order.Ring.Int
import Mathlib.Data.List.GetD
import Mathlib.Tactic.Common

/-!
# Windows of a zero-padded array

An array that is read past its end reads zeros. `window xs start len` is what such a reader
sees from `start` on. A slice that is filled up with zeros is a window, a window of a window
is a window as long as it stays inside, and adjacent windows put one after the other are
one long window.
-/

namespace SpecDecode.ZeroPad

variable {α β γ : Type} [Zero α] [Zero β] [Zero γ] {xs : List α} {start len : Nat}

/-- The `len` entries of `xs` from `start` on, zero past its end. -/
def window (xs : List α) (start len : Nat) : List α :=
  (List.range len).map fun i => xs.getD (start + i) 0

/-- `xs`, filled up with zeros to `len` entries. -/
def zeroExtend (len : Nat) (xs : List α) : List α := xs ++ List.replicate (len - xs.length) 0

@[simp] theorem window_length : (window xs start len).length = len := by simp [window]

@[simp] theorem window_zero : window xs start 0 = [] := rfl

theorem window_getD {i : Nat} (hi : i < len) :
    (window xs start len).getD i 0 = xs.getD (start + i) 0 := by
  simp [window, hi]

theorem getD_window_of_le {i : Nat} (hi : len ≤ i) : (window xs start len).getD i 0 = 0 := by
  simp [window, hi]

theorem eq_window {ys : List α} (hlen : ys.length = len)
    (h : ∀ i, i < len → ys.getD i 0 = xs.getD (start + i) 0) : ys = window xs start len := by
  apply List.ext_getElem
  · rw [hlen, window_length]
  · intro i hi _
    have hget := h i (hlen ▸ hi)
    rw [List.getD_eq_getElem _ _ hi] at hget
    simp only [window, List.getElem_map, List.getElem_range]
    exact hget

@[simp] theorem window_self (xs : List α) : window xs 0 xs.length = xs :=
  (eq_window rfl fun i _ => by rw [Nat.zero_add]).symm

theorem zeroExtend_getD (i : Nat) : (zeroExtend len xs).getD i 0 = xs.getD i 0 := by
  rcases Nat.lt_or_ge i xs.length with hi | hi
  · simp [zeroExtend, List.getElem?_append_left hi]
  · simp only [zeroExtend, List.getD_eq_getElem?_getD, List.getElem?_append_right hi,
      List.getElem?_eq_none hi, List.getElem?_replicate]
    split <;> rfl

theorem zeroExtend_slice (stop : Nat) (hstop : stop ≤ start + len)
    (hend : xs.length ≤ start + len → stop = min (start + len) xs.length)
    (hfull : start + len ≤ xs.length → stop = start + len) :
    zeroExtend len ((xs.take stop).drop start) = window xs start len := by
  apply eq_window
  · simp only [zeroExtend, List.length_append, List.length_replicate, List.length_drop,
      List.length_take]
    omega
  · intro i hi
    rw [zeroExtend_getD, List.getD_eq_getElem?_getD, List.getD_eq_getElem?_getD,
      List.getElem?_drop]
    rcases Nat.lt_or_ge (start + i) stop with hlt | hge
    · rw [List.getElem?_take_of_lt hlt]
    · rw [List.getElem?_take_eq_none hge, List.getElem?_eq_none (by omega)]

theorem window_window {k m : Nat} (h : k + m ≤ len) :
    window (window xs start len) k m = window xs (start + k) m := by
  symm
  apply eq_window window_length
  intro i hi
  rw [window_getD hi, window_getD (by omega), Nat.add_assoc]

theorem take_window (m : Nat) (h : m ≤ len) : (window xs start len).take m = window xs start m := by
  apply eq_window
  · rw [List.length_take, window_length]
    omega
  · intro i hi
    have hget : ((window xs start len).take m).getD i 0 = (window xs start len).getD i 0 := by
      rw [List.getD_eq_getElem?_getD, List.getElem?_take_of_lt hi, List.getD_eq_getElem?_getD]
    rw [hget, window_getD (by omega)]

theorem drop_window (k : Nat) : (window xs start len).drop k = window xs (start + k) (len - k) := by
  apply eq_window
  · rw [List.length_drop, window_length]
  · intro i hi
    rw [List.getD_eq_getElem?_getD, List.getElem?_drop, ← List.getD_eq_getElem?_getD,
      window_getD (by omega), Nat.add_assoc]

theorem drop_eq_window {k : Nat} (xs : List α) : xs.drop k = window xs k (xs.length - k) := by
  apply eq_window (List.length_drop ..)
  intro i _
  rw [List.getD_eq_getElem?_getD, List.getElem?_drop, List.getD_eq_getElem?_getD]

/-- A reader that starts inside the array and runs into zeros behind it. -/
theorem take_drop_append_zeros {k m n : Nat} (xs : List α) (h : k + m ≤ xs.length + n) :
    ((xs ++ List.replicate n 0).drop k).take m = window xs k m := by
  apply eq_window
  · simp only [List.length_take, List.length_drop, List.length_append, List.length_replicate]
    omega
  · intro i hi
    have hget := @zeroExtend_getD _ _ xs (xs.length + n) (k + i)
    simp only [zeroExtend, Nat.add_sub_cancel_left] at hget
    rw [← hget, List.getD_eq_getElem?_getD, List.getElem?_take_of_lt hi, List.getElem?_drop,
      List.getD_eq_getElem?_getD]

/-- A window that reaches the end of the array may be filled up with zeros. -/
theorem zeroExtend_window {m : Nat} (hend : xs.length ≤ start + len) (hle : len ≤ m) :
    zeroExtend m (window xs start len) = window xs start m := by
  apply eq_window
  · simp only [zeroExtend, List.length_append, window_length, List.length_replicate]
    omega
  · intro i _
    rw [zeroExtend_getD]
    rcases Nat.lt_or_ge i len with hlt | hge
    · exact window_getD hlt
    · rw [getD_window_of_le hge, List.getD_eq_default _ _ (by omega)]

theorem zeroExtend_drop {m : Nat} (k : Nat) (h : xs.length ≤ m) :
    zeroExtend m (xs.drop k) = window xs k m := by
  rw [drop_eq_window]
  exact zeroExtend_window (by omega) (by omega)

theorem window_append (m : Nat) :
    window xs start len ++ window xs (start + len) m = window xs start (len + m) := by
  simp only [window, List.range_add, List.map_append, List.map_map, Function.comp_def,
    Nat.add_assoc]

theorem flatMap_window (xs : List α) (d c k : Nat) :
    ((List.range k).flatMap fun r => window xs (r * c + d) c) = window xs d (k * c) := by
  induction k with
  | zero => rw [Nat.zero_mul]; rfl
  | succ k ih =>
      rw [List.range_succ, List.flatMap_append, ih, List.flatMap_singleton, Nat.succ_mul,
        ← window_append, Nat.add_comm d]

theorem map_window (f : α → β) (hf : f 0 = 0) :
    (window xs start len).map f = window (xs.map f) start len := by
  simp only [window, List.map_map]
  apply List.map_congr_left
  intro i _
  simp only [Function.comp_apply, List.getD_eq_getElem?_getD, List.getElem?_map]
  cases xs[start + i]? with
  | none => exact hf
  | some x => rfl

theorem zipWith_window (f : α → β → γ) (hf : f 0 0 = 0) {ys : List β}
    (hlen : xs.length = ys.length) :
    List.zipWith f (window xs start len) (window ys start len) =
      window (List.zipWith f xs ys) start len := by
  apply eq_window
  · rw [List.length_zipWith, window_length, window_length, Nat.min_self]
  · intro i hi
    rcases Nat.lt_or_ge (start + i) xs.length with hlt | hge
    · have hlt' : start + i < ys.length := hlen ▸ hlt
      simp [window, List.getElem?_zipWith, hi, List.getElem?_eq_getElem hlt,
        List.getElem?_eq_getElem hlt']
    · have hge' : ys.length ≤ start + i := hlen ▸ hge
      simp [window, List.getElem?_zipWith, hi, List.getElem?_eq_none hge,
        List.getElem?_eq_none hge', hf]

end SpecDecode.ZeroPad
