import SpecDecode.Lib.Strip

/-!
# Decimal numerals

`parseInt` reads an integer the way a scripting language converts a text: white space around it
is dropped, it may have a sign, single underscores may stand between digits, and every decimal
digit of Unicode counts. It reads the decimal text of a number back.
-/

namespace SpecDecode.Decimal

/-- The characters that are dropped around a number. The separators from 0x1c to 0x1f are white
space elsewhere, but not here. -/
def spaces : List Nat :=
  [0x9, 0xa, 0xb, 0xc, 0xd, 0x20, 0x85, 0xa0, 0x1680, 0x2000, 0x2001, 0x2002, 0x2003,
    0x2004, 0x2005, 0x2006, 0x2007, 0x2008, 0x2009, 0x200a, 0x2028, 0x2029, 0x202f, 0x205f, 0x3000]

def isSpace (c : Char) : Bool := spaces.contains c.toNat

/-- The code points of the digits zero outside ASCII; each of them begins a run of ten digits. -/
def otherZeros : List Nat :=
  [0x660, 0x6f0, 0x7c0, 0x966, 0x9e6, 0xa66, 0xae6, 0xb66, 0xbe6, 0xc66, 0xce6, 0xd66,
    0xde6, 0xe50, 0xed0, 0xf20, 0x1040, 0x1090, 0x17e0, 0x1810, 0x1946, 0x19d0, 0x1a80, 0x1a90,
    0x1b50, 0x1bb0, 0x1c40, 0x1c50, 0xa620, 0xa8d0, 0xa900, 0xa9d0, 0xa9f0, 0xaa50, 0xabf0,
    0xff10, 0x104a0, 0x10d30, 0x11066, 0x110f0, 0x11136, 0x111d0, 0x112f0, 0x11450, 0x114d0,
    0x11650, 0x116c0, 0x11730, 0x118e0, 0x11950, 0x11c50, 0x11d50, 0x11da0, 0x16a60, 0x16ac0,
    0x16b50, 0x1d7ce, 0x1d7d8, 0x1d7e2, 0x1d7ec, 0x1d7f6, 0x1e140, 0x1e2f0, 0x1e950, 0x1fbf0]

def digitValue (c : Char) : Option Nat :=
  (('0'.toNat :: otherZeros).find? fun z => z ≤ c.toNat && c.toNat < z + 10).map (c.toNat - ·)

/-- The digits of a number, with single underscores between them. `afterDigit` says that the
character before this text was a digit. -/
def readDigits (acc : Nat) (afterDigit : Bool) : List Char → Option Nat
  | [] => if afterDigit then some acc else none
  | c :: t =>
      match digitValue c with
      | some d => readDigits (10 * acc + d) true t
      | none => if afterDigit && c == '_' then readDigits acc false t else none

def readSigned : List Char → Option Int
  | '-' :: t => (readDigits 0 false t).map fun n => -(n : Int)
  | '+' :: t => (readDigits 0 false t).map Int.ofNat
  | t => (readDigits 0 false t).map Int.ofNat

def parseInt (t : List Char) : Option Int := readSigned (strip isSpace t)

theorem digitValue_of_isDigit {c : Char} (h : c.isDigit = true) :
    digitValue c = some (c.toNat - '0'.toNat) := by
  obtain ⟨hzero, hnine⟩ := Char.isDigit_iff_toNat.mp h
  have hlt : c.toNat < '0'.toNat + 10 := Nat.lt_of_le_of_lt hnine (by decide)
  unfold digitValue
  rw [List.find?_cons, decide_eq_true hzero, decide_eq_true hlt]
  rfl

theorem readDigits_of_isDigit {t : List Char} (h : ∀ c ∈ t, c.isDigit = true) (acc : Nat) :
    readDigits acc true t = some (Nat.ofDigitChars 10 t acc) := by
  induction t generalizing acc with
  | nil => simp [readDigits]
  | cons c t ih =>
      rw [readDigits, digitValue_of_isDigit (h c List.mem_cons_self)]
      simp only
      rw [ih (fun d hd => h d (List.mem_cons_of_mem c hd)), Nat.ofDigitChars_cons]

theorem isSpace_of_isDigit {c : Char} (h : c.isDigit = true) : isSpace c = false := by
  have hspaces : ∀ n ∈ spaces, n < '0'.toNat ∨ '9'.toNat < n := by decide
  obtain ⟨hzero, hnine⟩ := Char.isDigit_iff_toNat.mp h
  rw [isSpace, List.contains_eq_mem, decide_eq_false_iff_not]
  intro hmem
  have := hspaces c.toNat hmem
  omega

theorem isDigit_of_mem {n : Nat} {c : Char} (h : c ∈ Nat.toDigits 10 n) : c.isDigit = true :=
  Nat.isDigit_of_mem_toDigits (by decide) (by decide) h

@[simp]
theorem strip_toDigits (n : Nat) : strip isSpace (Nat.toDigits 10 n) = Nat.toDigits 10 n := by
  have htight : Tight isSpace (Nat.toDigits 10 n) := {
    ne_nil := Nat.toDigits_ne_nil
    head := fun hc => isSpace_of_isDigit (isDigit_of_mem (List.mem_of_mem_head? hc))
    last := fun hc => isSpace_of_isDigit (isDigit_of_mem (List.mem_of_getLast? hc)) }
  simpa [lstrip, rstrip] using htight.strip_mid [] []

@[simp] theorem parseInt_toDigits (n : Nat) : parseInt (Nat.toDigits 10 n) = some (n : Int) := by
  have hvalue : Nat.ofDigitChars 10 (Nat.toDigits 10 n) 0 = n := Nat.ofDigitChars_ten_toDigits
  rw [parseInt, strip_toDigits]
  cases hdigits : Nat.toDigits 10 n with
  | nil => exact absurd hdigits Nat.toDigits_ne_nil
  | cons c t =>
      have hdigit : ∀ d ∈ c :: t, d.isDigit = true := fun d hd => isDigit_of_mem (hdigits ▸ hd)
      have hc := hdigit c List.mem_cons_self
      have hread : readDigits 0 false (c :: t) = some n := by
        rw [readDigits, digitValue_of_isDigit hc]
        simp only
        rw [readDigits_of_isDigit fun d hd => hdigit d (List.mem_cons_of_mem c hd),
          ← Nat.ofDigitChars_cons, ← hdigits, hvalue]
      have hminus : c ≠ '-' := by
        rintro rfl
        exact absurd hc (by decide)
      have hplus : c ≠ '+' := by
        rintro rfl
        exact absurd hc (by decide)
      unfold readSigned
      split
      · next h => exact absurd (List.cons.inj h).1 hminus
      · next h => exact absurd (List.cons.inj h).1 hplus
      · rw [hread]
        rfl

end SpecDecode.Decimal
