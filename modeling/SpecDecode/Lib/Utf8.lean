import Mathlib.Data.List.Basic
import Mathlib.Tactic.Common

/-!
# UTF-8

`encode` writes characters as bytes. `decode` reads any bytes: a machine that takes one byte
at a time and stands between two characters (`start`) or inside one, with one replacement
character for every maximal part that begins no character. What it has emitted depends on the
bytes seen so far only; a character that is still incomplete is replaced at the end of the
input, not before.
-/

namespace SpecDecode.Utf8

/-- Where the machine stands: between characters, or in front of a byte from `lo` to `hi`
with `more` further bytes owed after it, the bits so far being `acc`. -/
inductive State where
  | start
  | owed (more lo hi acc : Nat)
deriving DecidableEq, Repr

def replacement : Char := '\uFFFD'

def first (b : Nat) : State × List Char :=
  if b < 0x80 then (.start, [Char.ofNat b])
  else if b < 0xC2 then (.start, [replacement])
  else if b < 0xE0 then (.owed 0 0x80 0xBF (b - 0xC0), [])
  else if b < 0xF0 then
    (.owed 1 (if b = 0xE0 then 0xA0 else 0x80) (if b = 0xED then 0x9F else 0xBF) (b - 0xE0), [])
  else if b < 0xF5 then
    (.owed 2 (if b = 0xF0 then 0x90 else 0x80) (if b = 0xF4 then 0x8F else 0xBF) (b - 0xF0), [])
  else (.start, [replacement])

/-- One byte: the state after it and the characters that are complete with it. -/
def step : State → Nat → State × List Char
  | .start, b => first b
  | .owed more lo hi acc, b =>
      if lo ≤ b ∧ b ≤ hi then
        match more with
        | 0 => (.start, [Char.ofNat (acc * 64 + (b - 0x80))])
        | more + 1 => (.owed more 0x80 0xBF (acc * 64 + (b - 0x80)), [])
      else ((first b).1, replacement :: (first b).2)

def stateAfter : State → List UInt8 → State
  | s, [] => s
  | s, b :: bs => stateAfter (step s b.toNat).1 bs

/-- The characters that are complete when all bytes are read. -/
def emits : State → List UInt8 → List Char
  | _, [] => []
  | s, b :: bs => (step s b.toNat).2 ++ emits (step s b.toNat).1 bs

def flush : State → List Char
  | .start => []
  | .owed .. => [replacement]

/-- Lossy decoding. -/
def decode (bs : List UInt8) : List Char := emits .start bs ++ flush (stateAfter .start bs)

/-- The bytes end where a character ends. -/
def AtBoundary (bs : List UInt8) : Prop := stateAfter .start bs = .start

instance (bs : List UInt8) : Decidable (AtBoundary bs) := decEq ..

variable {s : State} {xs ys : List UInt8}

theorem stateAfter_append : stateAfter s (xs ++ ys) = stateAfter (stateAfter s xs) ys := by
  induction xs generalizing s with
  | nil => rfl
  | cons b xs ih => exact ih

theorem emits_append : emits s (xs ++ ys) = emits s xs ++ emits (stateAfter s xs) ys := by
  induction xs generalizing s with
  | nil => rfl
  | cons b xs ih =>
      simp only [List.cons_append, emits, stateAfter, List.append_assoc]
      rw [ih]

theorem AtBoundary.append (h : AtBoundary xs) :
    stateAfter .start (xs ++ ys) = stateAfter .start ys := by
  rw [stateAfter_append, h]

theorem AtBoundary.decode_eq (h : AtBoundary xs) : decode xs = emits .start xs := by
  rw [decode, h, flush, List.append_nil]

theorem AtBoundary.decode_append (h : AtBoundary xs) :
    decode (xs ++ ys) = decode xs ++ decode ys := by
  rw [h.decode_eq, decode, h.append, emits_append, h, decode, List.append_assoc]

theorem emits_prefix_decode (bs : List UInt8) : emits .start bs <+: decode bs :=
  List.prefix_append ..

theorem emits_prefix_append : emits s xs <+: emits s (xs ++ ys) := by
  rw [emits_append]
  exact List.prefix_append ..

/-- A character that was begun is emitted when it ends, if only as a replacement. -/
theorem emits_ne_nil (hs : s ≠ .start) (hend : stateAfter s ys = .start) : emits s ys ≠ [] := by
  induction ys generalizing s with
  | nil => exact absurd hend hs
  | cons b ys ih =>
      cases s with
      | start => exact absurd rfl hs
      | owed more lo hi acc =>
          simp only [stateAfter, emits, step] at hend ⊢
          split
          · next hin =>
              simp only [if_pos hin] at hend
              cases more with
              | zero => simp
              | succ more => exact ih (fun h => by cases h) hend
          · simp

theorem decode_length_le (xs ys : List UInt8) :
    (decode xs).length ≤ (decode (xs ++ ys)).length := by
  rw [decode, decode, stateAfter_append, emits_append]
  simp only [List.length_append]
  cases hx : stateAfter .start xs with
  | start => simp only [flush, List.length_nil]; omega
  | owed more lo hi acc =>
      cases hy : stateAfter (.owed more lo hi acc) ys with
      | start =>
          have := List.length_pos_iff.mpr (emits_ne_nil (fun h => by cases h) hy)
          simp only [flush, List.length_cons, List.length_nil]
          omega
      | owed more' lo' hi' acc' =>
          simp only [flush, List.length_cons, List.length_nil]
          omega

theorem decode_ne_nil (h : xs ≠ []) : decode xs ≠ [] := by
  cases xs with
  | nil => exact absurd rfl h
  | cons b xs =>
      have hone : 0 < (decode [b]).length := by
        simp only [decode, emits, stateAfter, step, first]
        split
        · exact Nat.succ_pos _
        split
        · exact Nat.succ_pos _
        split
        · exact Nat.succ_pos _
        split
        · exact Nat.succ_pos _
        split <;> exact Nat.succ_pos _
      exact List.length_pos_iff.mp (Nat.lt_of_lt_of_le hone (decode_length_le [b] xs))

section Encode

def encodeNat (n : Nat) : List Nat :=
  if n < 0x80 then [n]
  else if n < 0x800 then [0xC0 + n / 64, 0x80 + n % 64]
  else if n < 0x10000 then [0xE0 + n / 4096, 0x80 + n / 64 % 64, 0x80 + n % 64]
  else [0xF0 + n / 262144, 0x80 + n / 4096 % 64, 0x80 + n / 64 % 64, 0x80 + n % 64]

def encodeChar (c : Char) : List UInt8 := (encodeNat c.toNat).map UInt8.ofNat

def encode (text : List Char) : List UInt8 := text.flatMap encodeChar

/-- The bytes `bs` take the machine from `s` to `start` and emit `out`. -/
def Reads (s : State) (bs : List Nat) (out : List Char) : Prop :=
  stateAfter s (bs.map UInt8.ofNat) = .start ∧ emits s (bs.map UInt8.ofNat) = out

theorem Reads.nil : Reads .start [] [] := ⟨rfl, rfl⟩

theorem Reads.cons {b : Nat} {bs : List Nat} {s' : State} {out out' : List Char} (hb : b < 256)
    (hstep : step s b = (s', out)) (h : Reads s' bs out') : Reads s (b :: bs) (out ++ out') := by
  have hnat : (UInt8.ofNat b).toNat = b := UInt8.toNat_ofNat_of_lt' hb
  simp only [Reads, List.map_cons, stateAfter, emits, hnat, hstep]
  exact ⟨h.1, congrArg (out ++ ·) h.2⟩

theorem Reads.last {hi lo acc d n : Nat} (hlo : lo ≤ 0x80 + d) (hhi : 0x80 + d ≤ hi)
    (hbyte : hi < 256) (hn : acc * 64 + d = n) :
    Reads (.owed 0 lo hi acc) [0x80 + d] [Char.ofNat n] := by
  have hstep : step (.owed 0 lo hi acc) (0x80 + d) = (.start, [Char.ofNat n]) := by
    simp only [step, if_pos (And.intro hlo hhi), Nat.add_sub_cancel_left, hn]
  exact .cons (by omega) hstep .nil

theorem Reads.more {hi lo acc d n more : Nat} {bs : List Nat} {out : List Char}
    (hlo : lo ≤ 0x80 + d) (hhi : 0x80 + d ≤ hi) (hbyte : hi < 256) (hn : acc * 64 + d = n)
    (h : Reads (.owed more 0x80 0xBF n) bs out) :
    Reads (.owed (more + 1) lo hi acc) ((0x80 + d) :: bs) out := by
  have hstep : step (.owed (more + 1) lo hi acc) (0x80 + d) = (.owed more 0x80 0xBF n, []) := by
    simp only [step, if_pos (And.intro hlo hhi), Nat.add_sub_cancel_left, hn]
  exact .cons (by omega) hstep h

theorem encodeNat_reads {n : Nat} (hn : n.isValidChar) :
    Reads .start (encodeNat n) [Char.ofNat n] := by
  have hmax : n < 0xD800 ∨ 0xDFFF < n ∧ n < 0x110000 := hn
  simp only [encodeNat]
  split
  · next h =>
      have hstep : step .start n = (.start, [Char.ofNat n]) := by rw [step, first, if_pos h]
      exact .cons (by omega) hstep .nil
  split
  · next h =>
      have hstep : step .start (0xC0 + n / 64) = (.owed 0 0x80 0xBF (n / 64), []) := by
        rw [step, first, if_neg (by omega), if_neg (by omega), if_pos (by omega),
          Nat.add_sub_cancel_left]
      apply Reads.cons (by omega) hstep
      exact .last (by omega) (by omega) (by omega) (Nat.div_add_mod' n 64)
  -- the bounds on the second byte keep out what a shorter sequence or no character has
  split
  · next h =>
      have hstep : step .start (0xE0 + n / 4096) =
          (.owed 1 (if 0xE0 + n / 4096 = 0xE0 then 0xA0 else 0x80)
            (if 0xE0 + n / 4096 = 0xED then 0x9F else 0xBF) (n / 4096), []) := by
        rw [step, first, if_neg (by omega), if_neg (by omega), if_neg (by omega),
          if_pos (by omega), Nat.add_sub_cancel_left]
      apply Reads.cons (by omega) hstep
      apply Reads.more (n := n / 64) (by split <;> omega) (by split <;> omega)
        (by split <;> omega) (by omega)
      exact .last (by omega) (by omega) (by omega) (Nat.div_add_mod' n 64)
  · next h =>
      have hstep : step .start (0xF0 + n / 262144) =
          (.owed 2 (if 0xF0 + n / 262144 = 0xF0 then 0x90 else 0x80)
            (if 0xF0 + n / 262144 = 0xF4 then 0x8F else 0xBF) (n / 262144), []) := by
        rw [step, first, if_neg (by omega), if_neg (by omega), if_neg (by omega),
          if_neg (by omega), if_pos (by omega), Nat.add_sub_cancel_left]
      apply Reads.cons (by omega) hstep
      apply Reads.more (n := n / 4096) (by split <;> omega) (by split <;> omega)
        (by split <;> omega) (by omega)
      apply Reads.more (n := n / 64) (by omega) (by omega) (by omega) (by omega)
      exact .last (by omega) (by omega) (by omega) (Nat.div_add_mod' n 64)

theorem encodeChar_reads (c : Char) :
    stateAfter .start (encodeChar c) = .start ∧ emits .start (encodeChar c) = [c] := by
  have h := encodeNat_reads c.valid
  rw [show c.val.toNat = c.toNat from rfl, Char.ofNat_toNat] at h
  exact h

theorem encode_atBoundary (text : List Char) : AtBoundary (encode text) := by
  induction text with
  | nil => rfl
  | cons c text ih =>
      rw [encode, List.flatMap_cons, AtBoundary, stateAfter_append, (encodeChar_reads c).1]
      exact ih

@[simp] theorem decode_encode (text : List Char) : decode (encode text) = text := by
  rw [(encode_atBoundary text).decode_eq]
  induction text with
  | nil => rfl
  | cons c text ih =>
      rw [encode, List.flatMap_cons, emits_append, (encodeChar_reads c).1, (encodeChar_reads c).2]
      exact congrArg (c :: ·) ih

end Encode

end SpecDecode.Utf8
