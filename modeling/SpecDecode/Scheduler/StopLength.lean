import SpecDecode.Lib.Words

/-!
# The look-back of a stop regex

A stop regex is looked for in the decoded tail of the output. The tail is long enough for the
longest match, which `get_max_seq_length` computes over the tokens of the parsed expression.

A character set is a predicate on characters, and `MAXREPEAT` is `none`. The language of an
expression has no words for the tokens that `get_max_seq_length` does not handle and for the
assertions, which look at the text around a match.
-/

namespace SpecDecode.Scheduler.Sre

open Words

inductive Token where
  | literal (c : Char)
  | notLiteral (c : Char)
  | charSet (chars : Char → Bool)
  | any
  | subpattern (p : List Token)
  | branch (branches : List (List Token))
  | maxRepeat (min : Nat) (max : Option Nat) (p : List Token)
  | minRepeat (min : Nat) (max : Option Nat) (p : List Token)
  | assertion
  | unhandled

abbrev SubPattern : Type := List Token

/-- `MAX_LEN`. -/
def maxLen : Nat := 2 ^ 30

mutual

def maxLengthFromToken : Token → Nat
  | .literal _ => 1
  | .notLiteral _ => maxLen
  | .charSet _ => 1
  | .any => 1
  | .subpattern p => maxLengthFromSubpattern p
  | .branch branches => maxLengthFromBranches branches
  | .maxRepeat _ none _ => maxLen
  | .maxRepeat _ (some max) p => max * maxLengthFromSubpattern p
  | .minRepeat _ none _ => maxLen
  | .minRepeat _ (some max) p => max * maxLengthFromSubpattern p
  | .assertion => 0
  | .unhandled => maxLen

/-- `_max_length_from_subpattern`. -/
def maxLengthFromSubpattern : List Token → Nat
  | [] => 0
  | token :: p => maxLengthFromToken token + maxLengthFromSubpattern p

def maxLengthFromBranches : List (List Token) → Nat
  | [] => 0
  | p :: branches => max (maxLengthFromSubpattern p) (maxLengthFromBranches branches)

end

def letters (chars : Char → Bool) : Language Char :=
  fun w => ∃ c, chars c = true ∧ w = [c]

/-- The concatenations of at least `min` and at most `max` words. -/
def repeated (L : Language Char) (min : Nat) (max : Option Nat) : Language Char :=
  fun w => ∃ k, min ≤ k ∧ (∀ m ∈ max, k ≤ m) ∧ w ∈ L ^ k

mutual

def tokenLang : Token → Language Char
  | .literal c => letters (· == c)
  | .notLiteral c => letters (· != c)
  | .charSet chars => letters chars
  | .any => letters (· != '\n')
  | .subpattern p => lang p
  | .branch branches => branchesLang branches
  | .maxRepeat min max p => repeated (lang p) min max
  | .minRepeat min max p => repeated (lang p) min max
  | .assertion => 0
  | .unhandled => 0

/-- The texts that an expression matches. -/
def lang : List Token → Language Char
  | [] => 1
  | token :: p => tokenLang token * lang p

def branchesLang : List (List Token) → Language Char
  | [] => 0
  | p :: branches => lang p + branchesLang branches

end

mutual

def plainToken : Token → Bool
  | .literal _ => true
  | .notLiteral _ => true
  | .charSet _ => true
  | .any => true
  | .subpattern p => plain p
  | .branch branches => plainBranches branches
  | .maxRepeat _ _ p => plain p
  | .minRepeat _ _ p => plain p
  | .assertion => false
  | .unhandled => false

/-- Expressions of literals, character sets, any-char, groups, branches and repeats. -/
def plain : List Token → Bool
  | [] => true
  | token :: p => plainToken token && plain p

def plainBranches : List (List Token) → Bool
  | [] => true
  | p :: branches => plain p && plainBranches branches

end

def iterate (rests : List Char → List (List Char)) : Nat → List Char → List (List Char)
  | 0, s => [s]
  | k + 1, s => (rests s).flatMap (iterate rests k)

/-- The numbers of repetitions to try in a text of the length. -/
def repeatCounts (min : Nat) (max : Option Nat) (length : Nat) : List Nat :=
  (List.range (min + length + 1)).filter fun k => min ≤ k && max.all (k ≤ ·)

def letterRests (chars : Char → Bool) : List Char → List (List Char)
  | [] => []
  | c :: s => if chars c then [s] else []

mutual

/-- The tails of a text that a match of the token at its start leaves. -/
def tokenRests : Token → List Char → List (List Char)
  | .literal c => letterRests (· == c)
  | .notLiteral c => letterRests (· != c)
  | .charSet chars => letterRests chars
  | .any => letterRests (· != '\n')
  | .subpattern p => rests p
  | .branch branches => branchesRests branches
  | .maxRepeat min max p => fun s =>
      (repeatCounts min max s.length).flatMap fun k => iterate (rests p) k s
  | .minRepeat min max p => fun s =>
      (repeatCounts min max s.length).flatMap fun k => iterate (rests p) k s
  | .assertion => fun _ => []
  | .unhandled => fun _ => []

def rests : List Token → List Char → List (List Char)
  | [] => fun s => [s]
  | token :: p => fun s => (tokenRests token s).flatMap (rests p)

def branchesRests : List (List Token) → List Char → List (List Char)
  | [] => fun _ => []
  | p :: branches => fun s => rests p s ++ branchesRests branches s

end

/-- `re.search`: the expression matches somewhere in the text. -/
def search (p : SubPattern) (text : List Char) : Bool :=
  text.tails.any fun s => !(rests p s).isEmpty

/-- A length bounds the language unless it is at least `MAX_LEN`. -/
def Covers (n : Nat) (L : Language Char) : Prop := maxLen ≤ n ∨ Bounded L n

theorem covers_zero : Covers 0 0 := Or.inr fun _ hw => absurd hw (Language.notMem_zero _)

theorem covers_letters (chars : Char → Bool) : Covers 1 (letters chars) := by
  refine Or.inr fun w hw => ?_
  obtain ⟨c, _, rfl⟩ := hw
  exact Nat.le_refl 1

theorem Covers.mul {m n : Nat} {L M : Language Char} (hL : Covers m L) (hM : Covers n M) :
    Covers (m + n) (L * M) := by
  obtain hm | hL := hL
  · exact Or.inl (hm.trans (Nat.le_add_right m n))
  · obtain hn | hM := hM
    · exact Or.inl (hn.trans (Nat.le_add_left n m))
    · exact Or.inr (hL.mul hM)

theorem Covers.add {m n : Nat} {L M : Language Char} (hL : Covers m L) (hM : Covers n M) :
    Covers (max m n) (L + M) := by
  obtain hm | hL := hL
  · exact Or.inl (hm.trans (Nat.le_max_left m n))
  · obtain hn | hM := hM
    · exact Or.inl (hn.trans (Nat.le_max_right m n))
    · refine Or.inr fun w hw => ?_
      obtain hw | hw := hw
      · exact (hL w hw).trans (Nat.le_max_left m n)
      · exact (hM w hw).trans (Nat.le_max_right m n)

theorem Covers.repeated {n : Nat} {L : Language Char} (hL : Covers n L) (min max : Nat) :
    Covers (max * n) (repeated L min (some max)) := by
  obtain hn | hL := hL
  · cases max with
    | zero =>
        refine Or.inr fun w hw => ?_
        obtain ⟨k, _, hk, hw⟩ := hw
        rw [Nat.le_zero.mp (hk 0 rfl), pow_zero] at hw
        rw [Nat.zero_mul]
        exact bounded_one w hw
    | succ max => exact Or.inl (hn.trans (Nat.le_mul_of_pos_left n (Nat.succ_pos max)))
  · refine Or.inr fun w hw => ?_
    obtain ⟨k, _, hk, hw⟩ := hw
    exact (hL.pow k w hw).trans (Nat.mul_le_mul_right n (hk max rfl))

mutual

theorem covers_token : (token : Token) → Covers (maxLengthFromToken token) (tokenLang token)
  | .literal c => covers_letters (· == c)
  | .notLiteral _ => Or.inl (Nat.le_refl maxLen)
  | .charSet chars => covers_letters chars
  | .any => covers_letters (· != '\n')
  | .subpattern p => covers p
  | .branch branches => covers_branches branches
  | .maxRepeat _ none _ => Or.inl (Nat.le_refl maxLen)
  | .maxRepeat min (some max) p => (covers p).repeated min max
  | .minRepeat _ none _ => Or.inl (Nat.le_refl maxLen)
  | .minRepeat min (some max) p => (covers p).repeated min max
  | .assertion => covers_zero
  | .unhandled => Or.inl (Nat.le_refl maxLen)

theorem covers : (p : List Token) → Covers (maxLengthFromSubpattern p) (lang p)
  | [] => Or.inr bounded_one
  | token :: p => (covers_token token).mul (covers p)

theorem covers_branches :
    (branches : List (List Token)) → Covers (maxLengthFromBranches branches) (branchesLang branches)
  | [] => covers_zero
  | p :: branches => (covers p).add (covers_branches branches)

end

/-- A function leaves the tails behind the words of a language. -/
def Leaves (f : List Char → List (List Char)) (L : Language Char) : Prop :=
  ∀ s t, t ∈ f s ↔ ∃ w ∈ L, w ++ t = s

theorem leaves_letters (chars : Char → Bool) : Leaves (letterRests chars) (letters chars) := by
  intro s t
  constructor
  · intro h
    cases s with
    | nil => cases h
    | cons c s =>
        by_cases hc : chars c
        · rw [letterRests, if_pos hc] at h
          cases List.mem_singleton.mp h
          exact ⟨[c], ⟨c, hc, rfl⟩, rfl⟩
        · rw [letterRests, if_neg hc] at h
          cases h
  · rintro ⟨w, ⟨c, hc, rfl⟩, rfl⟩
    show t ∈ letterRests chars (c :: t)
    rw [letterRests, if_pos hc]
    exact List.mem_singleton_self t

theorem leaves_zero : Leaves (fun _ => []) 0 := by
  intro s t
  constructor
  · intro h
    cases h
  · rintro ⟨w, hw, _⟩
    exact absurd hw (Language.notMem_zero w)

theorem leaves_one : Leaves (fun s => [s]) 1 := by
  intro s t
  constructor
  · intro h
    exact ⟨[], Language.nil_mem_one, List.mem_singleton.mp h⟩
  · rintro ⟨w, hw, rfl⟩
    cases (Language.mem_one w).mp hw
    exact List.mem_singleton_self t

theorem Leaves.mul {f g : List Char → List (List Char)} {L M : Language Char} (hf : Leaves f L)
    (hg : Leaves g M) : Leaves (fun s => (f s).flatMap g) (L * M) := by
  intro s t
  rw [List.mem_flatMap]
  constructor
  · rintro ⟨u, hu, ht⟩
    obtain ⟨a, ha, rfl⟩ := (hf s u).mp hu
    obtain ⟨b, hb, rfl⟩ := (hg u t).mp ht
    exact ⟨a ++ b, Language.mem_mul.mpr ⟨a, ha, b, hb, rfl⟩, List.append_assoc a b t⟩
  · rintro ⟨w, hw, rfl⟩
    obtain ⟨a, ha, b, hb, rfl⟩ := Language.mem_mul.mp hw
    exact ⟨b ++ t, (hf _ _).mpr ⟨a, ha, (List.append_assoc a b t).symm⟩, (hg _ _).mpr ⟨b, hb, rfl⟩⟩

theorem Leaves.add {f g : List Char → List (List Char)} {L M : Language Char} (hf : Leaves f L)
    (hg : Leaves g M) : Leaves (fun s => f s ++ g s) (L + M) := by
  intro s t
  rw [List.mem_append, hf s t, hg s t]
  constructor
  · rintro (⟨w, hw, h⟩ | ⟨w, hw, h⟩)
    · exact ⟨w, Or.inl hw, h⟩
    · exact ⟨w, Or.inr hw, h⟩
  · rintro ⟨w, hw | hw, h⟩
    · exact Or.inl ⟨w, hw, h⟩
    · exact Or.inr ⟨w, hw, h⟩

theorem Leaves.iterate {f : List Char → List (List Char)} {L : Language Char} (hf : Leaves f L)
    (k : Nat) : Leaves (Sre.iterate f k) (L ^ k) := by
  induction k with
  | zero =>
      rw [pow_zero]
      exact leaves_one
  | succ k ih =>
      rw [pow_succ']
      exact hf.mul ih

/-- Repetitions beyond the minimum and the length of the text match nothing new. -/
theorem Leaves.repeated {f : List Char → List (List Char)} {L : Language Char} (hf : Leaves f L)
    (min : Nat) (max : Option Nat) :
    Leaves (fun s => (repeatCounts min max s.length).flatMap fun k => Sre.iterate f k s)
      (repeated L min max) := by
  intro s t
  rw [List.mem_flatMap]
  have hcount (k : Nat) : k ∈ repeatCounts min max s.length ↔
      k ≤ min + s.length ∧ min ≤ k ∧ ∀ m ∈ max, k ≤ m := by
    rw [repeatCounts, List.mem_filter, List.mem_range, Nat.lt_succ_iff]
    cases max <;> simp
  constructor
  · rintro ⟨k, hk, ht⟩
    obtain ⟨_, hmin, hmax⟩ := (hcount k).mp hk
    obtain ⟨w, hw, rfl⟩ := (hf.iterate k s t).mp ht
    exact ⟨w, ⟨k, hmin, hmax, hw⟩, rfl⟩
  · rintro ⟨w, ⟨k, hmin, hmax, hw⟩, rfl⟩
    obtain ⟨j, hj, hle, hlen, hw⟩ := exists_mem_pow hw hmin
    refine ⟨j, (hcount j).mpr ⟨?_, hj, fun m hm => hle.trans (hmax m hm)⟩,
      (hf.iterate j _ t).mpr ⟨w, hw, rfl⟩⟩
    rw [List.length_append]
    omega

mutual

theorem leaves_token : (token : Token) → Leaves (tokenRests token) (tokenLang token)
  | .literal c => leaves_letters (· == c)
  | .notLiteral c => leaves_letters (· != c)
  | .charSet chars => leaves_letters chars
  | .any => leaves_letters (· != '\n')
  | .subpattern p => leaves p
  | .branch branches => leaves_branches branches
  | .maxRepeat min max p => (leaves p).repeated min max
  | .minRepeat min max p => (leaves p).repeated min max
  | .assertion => leaves_zero
  | .unhandled => leaves_zero

theorem leaves : (p : List Token) → Leaves (rests p) (lang p)
  | [] => leaves_one
  | token :: p => (leaves_token token).mul (leaves p)

theorem leaves_branches :
    (branches : List (List Token)) → Leaves (branchesRests branches) (branchesLang branches)
  | [] => leaves_zero
  | p :: branches => (leaves p).add (leaves_branches branches)

end

theorem search_iff {p : SubPattern} {text : List Char} :
    search p text = true ↔ ∃ w ∈ lang p, w <:+: text := by
  rw [search, List.any_eq_true]
  constructor
  · rintro ⟨s, hs, hrest⟩
    rw [Bool.not_eq_true', List.isEmpty_eq_false_iff_exists_mem] at hrest
    obtain ⟨t, ht⟩ := hrest
    obtain ⟨w, hw, rfl⟩ := (leaves p s t).mp ht
    exact ⟨w, hw, (List.prefix_append w t).isInfix.trans ((List.mem_tails _ _).mp hs).isInfix⟩
  · rintro ⟨w, hw, u, t, rfl⟩
    refine ⟨w ++ t, (List.mem_tails _ _).mpr ⟨u, (List.append_assoc u w t).symm⟩, ?_⟩
    rw [Bool.not_eq_true', List.isEmpty_eq_false_iff_exists_mem]
    exact ⟨t, (leaves p _ t).mpr ⟨w, hw, rfl⟩⟩

end SpecDecode.Scheduler.Sre
