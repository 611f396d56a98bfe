import SpecDecode.Lib.Pages

/-!
# Character counts on UTF-8 text

The gateway's tree counts characters but works on bytes as long as it sees ASCII. These are
its text functions over the bytes of a text, and each computes what it would on characters.
-/

namespace SpecDecode.Gateway

def utf8 (s : List Char) : List UInt8 := s.flatMap String.utf8EncodeChar

def isAscii (bytes : List UInt8) : Bool := bytes.all fun b => decide (b.toNat < 128)

def dropBytes : List Char → Nat → List Char
  | s, 0 => s
  | [], _ + 1 => []
  | c :: s, n + 1 => dropBytes s (n + 1 - (String.utf8EncodeChar c).length)

def advanceByChars (s : List Char) (n : Nat) : List Char :=
  if n = 0 then s
  else if (utf8 s).length ≤ n then []
  else if isAscii ((utf8 s).take n) then dropBytes s n
  else s.drop n

def takeChars (s : List Char) (n : Nat) : List Char :=
  if n = 0 then [] else s.take n

def sharedPrefixCount (a b : List Char) : Nat :=
  let commonByteLen := commonPrefixLen (utf8 a) (utf8 b)
  if isAscii ((utf8 a).take commonByteLen) then commonByteLen else commonPrefixLen a b

@[simp] theorem takeChars_eq (s : List Char) (n : Nat) : takeChars s n = s.take n := by
  unfold takeChars
  split
  · next h => rw [h, List.take_zero]
  · rfl

variable {c d : Char} {s : List Char} {n : Nat}

theorem utf8_cons (c : Char) (s : List Char) : utf8 (c :: s) = String.utf8EncodeChar c ++ utf8 s :=
  List.flatMap_cons

/-- A character is one ASCII byte of its own value, or its first byte is no ASCII. -/
theorem utf8EncodeChar_cases (c : Char) :
    (c.toNat < 128 ∧ String.utf8EncodeChar c = [UInt8.ofNat c.toNat]) ∨
      ∃ b bs, String.utf8EncodeChar c = b :: bs ∧ 128 ≤ b.toNat := by
  have hv : c.val.toNat = c.toNat := rfl
  unfold String.utf8EncodeChar
  dsimp only
  rw [hv]
  by_cases h₁ : c.toNat ≤ 0x7f
  · exact .inl ⟨by omega, if_pos h₁⟩
  · right
    rw [if_neg h₁]
    by_cases h₂ : c.toNat ≤ 0x7ff
    · rw [if_pos h₂]
      exact ⟨_, _, rfl, by rw [UInt8.toNat_ofNat']; omega⟩
    · rw [if_neg h₂]
      by_cases h₃ : c.toNat ≤ 0xffff
      · rw [if_pos h₃]
        exact ⟨_, _, rfl, by rw [UInt8.toNat_ofNat']; omega⟩
      · rw [if_neg h₃]
        exact ⟨_, _, rfl, by rw [UInt8.toNat_ofNat']; omega⟩

theorem toNat_ofNat_of_ascii (h : c.toNat < 128) : (UInt8.ofNat c.toNat).toNat = c.toNat := by
  rw [UInt8.toNat_ofNat']
  omega

theorem length_le_utf8 (s : List Char) : s.length ≤ (utf8 s).length := by
  induction s with
  | nil => exact Nat.zero_le _
  | cons c s ih =>
      rw [utf8_cons, List.length_append, List.length_cons]
      have hpos := List.length_pos_iff.mpr (@String.utf8EncodeChar_ne_nil c)
      omega

theorem dropBytes_eq (h : isAscii ((utf8 s).take n)) (hn : n < (utf8 s).length) :
    dropBytes s n = s.drop n := by
  induction s generalizing n with
  | nil => exact absurd hn (Nat.not_lt_zero n)
  | cons c s ih =>
      cases n with
      | zero => rfl
      | succ n =>
          rw [utf8_cons] at h hn
          rcases utf8EncodeChar_cases c with ⟨-, hc⟩ | ⟨b, bs, hc, hb⟩
          · rw [hc] at h hn
            have htail : isAscii ((utf8 s).take n) := (Bool.and_eq_true_iff.mp h).2
            have hlen : n < (utf8 s).length := by
              rw [List.length_append, List.length_singleton] at hn
              omega
            rw [dropBytes, hc, List.length_singleton, Nat.add_sub_cancel, ih htail hlen]
            rfl
          · rw [hc] at h
            have hhead := of_decide_eq_true (Bool.and_eq_true_iff.mp h).1
            omega

@[simp] theorem advanceByChars_eq (s : List Char) (n : Nat) : advanceByChars s n = s.drop n := by
  unfold advanceByChars
  split
  · next h => rw [h, List.drop_zero]
  · split
    · next h => rw [List.drop_eq_nil_of_le (Nat.le_trans (length_le_utf8 s) h)]
    · next h =>
        split
        · next hascii => exact dropBytes_eq hascii (Nat.not_le.mp h)
        · rfl

/-- Characters whose encodings begin with the same ASCII byte are the same. -/
private theorem eq_of_head_ascii (hc : c.toNat < 128) {b : UInt8} {bs : List UInt8}
    (hd : String.utf8EncodeChar d = b :: bs) (hb : b = UInt8.ofNat c.toNat) : d = c := by
  have hval : b.toNat = c.toNat := by rw [hb, toNat_ofNat_of_ascii hc]
  rcases utf8EncodeChar_cases d with ⟨hascii, hone⟩ | ⟨b', bs', hmany, hb'⟩
  · rw [hone] at hd
    have heq := congrArg UInt8.toNat (List.cons.inj hd).1
    rw [toNat_ofNat_of_ascii hascii, hval] at heq
    exact Char.toNat_inj.mp heq
  · rw [hmany] at hd
    have heq := congrArg UInt8.toNat (List.cons.inj hd).1
    omega

/-- The shared bytes count the shared characters as long as they are ASCII. -/
theorem commonPrefixLen_utf8 {a b : List Char}
    (h : isAscii ((utf8 a).take (commonPrefixLen (utf8 a) (utf8 b)))) :
    commonPrefixLen (utf8 a) (utf8 b) = commonPrefixLen a b := by
  induction a generalizing b with
  | nil => rfl
  | cons c a ih =>
      cases b with
      | nil =>
          rcases utf8EncodeChar_cases c with ⟨-, hc⟩ | ⟨x, xs, hc, -⟩ <;>
          · rw [utf8_cons, hc]
            rfl
      | cons d b =>
          rw [utf8_cons, utf8_cons] at h ⊢
          obtain ⟨y, ys, hd⟩ := List.exists_cons_of_ne_nil (@String.utf8EncodeChar_ne_nil d)
          rcases utf8EncodeChar_cases c with ⟨hascii, hc⟩ | ⟨x, xs, hc, hx⟩
          · by_cases hcd : c = d
            · subst hcd
              rw [hc] at h ⊢
              simp only [List.singleton_append, commonPrefixLen, if_true] at h ⊢
              rw [List.take_succ_cons] at h
              rw [ih (Bool.and_eq_true_iff.mp h).2]
            · have hne : ¬ UInt8.ofNat c.toNat = y := fun heq =>
                hcd (eq_of_head_ascii hascii hd heq.symm).symm
              rw [hc, hd]
              simp only [List.cons_append, commonPrefixLen]
              rw [if_neg hne, if_neg hcd]
          · -- a first byte that is no ASCII cannot be shared
            rw [hc, hd] at h ⊢
            simp only [List.cons_append, commonPrefixLen] at h ⊢
            by_cases hxy : x = y
            · rw [if_pos hxy, List.take_succ_cons] at h
              have hhead := of_decide_eq_true (Bool.and_eq_true_iff.mp h).1
              omega
            · have hcd : ¬ c = d := by
                rintro rfl
                rw [hc] at hd
                exact hxy (List.cons.inj hd).1
              rw [if_neg hxy, if_neg hcd]

@[simp] theorem sharedPrefixCount_eq (a b : List Char) :
    sharedPrefixCount a b = commonPrefixLen a b := by
  unfold sharedPrefixCount
  dsimp only
  split
  · next h => exact commonPrefixLen_utf8 h
  · rfl

end SpecDecode.Gateway
