import Mathlib.Algebra.Order.Ring.Int
import Mathlib.Data.List.Infix
import Mathlib.Data.List.Induction
import Mathlib.Logic.Function.Basic

/-!
# Suffix automata

The states of a suffix automaton of a text stand for the substrings of the text: a state has a
longest word, and its words are the suffixes of that word that are longer than the longest word
of its suffix link. `Indexes` says that a word leads to a state exactly when it is one of its
words, and leads somewhere exactly when it is a substring of the text.

The text grows by a letter in two steps that keep `Indexes`. `split` divides the words of a state
by their length, and `append` adds a state for the suffixes of the text that are new.
-/

namespace SpecDecode.SuffixAutomaton

open Function

variable {α : Type}

structure Automaton (α : Type) where
  live : Nat → Prop
  next : Nat → α → Option Nat
  link : Nat → Option Nat
  maxLen : Nat → Nat

namespace Automaton

variable (A : Automaton α)

/-- The state that a word leads to. -/
def run (w : List α) : Option Nat := w.foldlM A.next 0

def minLen (v : Nat) : Nat := (A.link v).elim 0 fun u => A.maxLen u + 1

inductive Chain : Nat → List Nat → Prop where
  | root {v : Nat} (h : A.link v = none) : Chain v [v]
  | step {v u : Nat} {l : List Nat} (h : A.link v = some u) (hl : Chain u l) : Chain v (v :: l)

@[simp] theorem run_nil : A.run [] = some 0 := rfl

theorem run_concat (w : List α) (a : α) : A.run (w ++ [a]) = (A.run w).bind (A.next · a) := by
  rw [run, List.foldlM_append]
  cases h : w.foldlM A.next 0 with
  | none => simp [run, h]
  | some v => simp [run, h]

theorem run_append (w w' : List α) : A.run (w ++ w') = (A.run w).bind (w'.foldlM A.next ·) := by
  rw [run, List.foldlM_append]
  rfl

variable {A}

theorem Chain.unique {v : Nat} {l l' : List Nat} (h : A.Chain v l) (h' : A.Chain v l') :
    l = l' := by
  induction h generalizing l' with
  | root hlink =>
      cases h' with
      | root => rfl
      | step hlink' => rw [hlink] at hlink'; cases hlink'
  | step hlink _ ih =>
      cases h' with
      | root hlink' => rw [hlink] at hlink'; cases hlink'
      | step hlink' h' =>
          obtain rfl := Option.some.inj (hlink.symm.trans hlink')
          rw [ih h']

theorem Chain.congr {B : Automaton α} {v : Nat} {l : List Nat} (h : A.Chain v l)
    (hlink : ∀ x ∈ l, B.link x = A.link x) : B.Chain v l := by
  induction h with
  | root hroot => exact .root ((hlink _ List.mem_cons_self).trans hroot)
  | step hstep _ ih =>
      exact .step ((hlink _ List.mem_cons_self).trans hstep)
        (ih fun x hx => hlink x (List.mem_cons_of_mem _ hx))

theorem Chain.self_mem {v : Nat} {l : List Nat} (h : A.Chain v l) : v ∈ l := by
  cases h <;> exact List.mem_cons_self

theorem Chain.drop {v p : Nat} {front l : List Nat} (h : A.Chain v (front ++ p :: l)) :
    A.Chain p (p :: l) := by
  induction front generalizing v with
  | nil =>
      have heq : p = v := by cases h <;> rfl
      exact heq ▸ h
  | cons x front ih =>
      cases hrest : front ++ p :: l with
      | nil => simp at hrest
      | cons y rest =>
          rw [List.cons_append, hrest] at h
          cases h with
          | step _ hl => exact ih (hrest ▸ hl)

end Automaton

/-- The automaton indexes `text`: `longest v` is the longest word of the state `v`, and `last` is
the state of the whole text. -/
structure Indexes (A : Automaton α) (text : List α) (longest : Nat → List α) (last : Nat) :
    Prop where
  live_root : A.live 0
  longest_root : longest 0 = []
  link_root : A.link 0 = none
  live_last : A.live last
  longest_last : longest last = text
  length : ∀ v, A.live v → A.maxLen v = (longest v).length
  link : ∀ v, A.live v → v ≠ 0 → ∃ u, A.live u ∧ A.link v = some u ∧ longest u <:+ longest v ∧
    A.maxLen u < A.maxLen v
  closed : ∀ v, A.live v → ∀ a u, A.next v a = some u → A.live u
  run : ∀ v, A.live v → ∀ w, A.run w = some v ↔ w <:+ longest v ∧ A.minLen v ≤ w.length
  words : ∀ w, (A.run w).isSome ↔ w <:+: text

/-- The empty text. -/
def empty : Automaton α where
  live v := v = 0
  next _ _ := none
  link _ := none
  maxLen _ := 0

theorem run_empty (w : List α) : (empty : Automaton α).run w = if w = [] then some 0 else none := by
  cases w with
  | nil => rfl
  | cons a w => rfl

theorem indexes_empty : Indexes (empty : Automaton α) [] (fun _ => []) 0 where
  live_root := rfl
  longest_root := rfl
  link_root := rfl
  live_last := rfl
  longest_last := rfl
  length _ _ := rfl
  link v hv hne := absurd hv hne
  closed v hv a u h := by cases h
  run v hv w := by
    obtain rfl : v = 0 := hv
    rw [run_empty]
    by_cases hw : w = [] <;> simp [hw, Automaton.minLen, empty]
  words w := by
    rw [run_empty]
    by_cases hw : w = [] <;> simp [hw]

namespace Indexes

variable {A : Automaton α} {text : List α} {longest : Nat → List α} {last : Nat}
variable {v u x y : Nat} {w w' : List α} {l : List Nat} {a : α}

section

variable (h : Indexes A text longest last)

include h

theorem run_live (hw : A.run w = some v) : A.live v := by
  induction w using List.reverseRecOn generalizing v with
  | nil =>
      obtain rfl := Option.some.inj hw
      exact h.live_root
  | append_singleton w a ih =>
      rw [A.run_concat] at hw
      obtain ⟨u, hu, hnext⟩ := Option.bind_eq_some_iff.mp hw
      exact h.closed u (ih hu) a v hnext

@[simp] theorem minLen_root : A.minLen 0 = 0 := by
  rw [Automaton.minLen, h.link_root]
  rfl

theorem minLen_le (hv : A.live v) : A.minLen v ≤ A.maxLen v := by
  by_cases hroot : v = 0
  · rw [hroot, h.minLen_root]
    exact Nat.zero_le _
  · obtain ⟨u, _, hlink, _, hlt⟩ := h.link v hv hroot
    rw [Automaton.minLen, hlink]
    exact hlt

theorem run_longest (hv : A.live v) : A.run (longest v) = some v :=
  (h.run v hv _).mpr ⟨List.suffix_rfl, h.length v hv ▸ h.minLen_le hv⟩

theorem length_le (hw : A.run w = some v) : w.length ≤ A.maxLen v := by
  have hv := h.run_live hw
  rw [h.length v hv]
  exact ((h.run v hv w).mp hw).1.length_le

theorem maxLen_lt (hv : A.live v) (hnext : A.next v a = some u) : A.maxLen v < A.maxLen u := by
  have hrun : A.run (longest v ++ [a]) = some u := by
    rw [A.run_concat, h.run_longest hv]
    exact hnext
  have hle := h.length_le hrun
  rw [List.length_append, ← h.length v hv] at hle
  exact hle

theorem exists_chain (hv : A.live v) : ∃ l, A.Chain v l := by
  induction hn : A.maxLen v using Nat.strong_induction_on generalizing v with
  | _ n ih =>
      by_cases hroot : v = 0
      · exact ⟨[v], .root (hroot ▸ h.link_root)⟩
      · obtain ⟨u, hu, hlink, _, hlt⟩ := h.link v hv hroot
        obtain ⟨l, hl⟩ := ih _ (hn ▸ hlt) hu rfl
        exact ⟨v :: l, .step hlink hl⟩

theorem chain_mem (hv : A.live v) (hl : A.Chain v l)
    (hx : x ∈ l) : A.live x ∧ longest x <:+ longest v ∧ A.maxLen x ≤ A.maxLen v := by
  induction hl with
  | root =>
      obtain rfl := List.mem_singleton.mp hx
      exact ⟨hv, List.suffix_rfl, Nat.le_refl _⟩
  | @step v u l hlink hl ih =>
      rcases List.mem_cons.mp hx with rfl | hx
      · exact ⟨hv, List.suffix_rfl, Nat.le_refl _⟩
      · have hroot : v ≠ 0 := fun heq => by
          rw [heq, h.link_root] at hlink
          cases hlink
        obtain ⟨u', hu', hlink', hsuffix, hlt⟩ := h.link v hv hroot
        obtain rfl := Option.some.inj (hlink.symm.trans hlink')
        obtain ⟨hlt', hsuffix', hle⟩ := ih hu' hx
        exact ⟨hlt', hsuffix'.trans hsuffix, Nat.le_trans hle (Nat.le_of_lt hlt)⟩

/-- Every suffix of the longest word of a state is a word of a state of its chain. -/
theorem chain_run (hv : A.live v) (hl : A.Chain v l)
    (hw : w <:+ longest v) : ∃ x ∈ l, A.run w = some x := by
  induction hl with
  | @root v hlink =>
      refine ⟨v, List.mem_singleton_self v, (h.run v hv w).mpr ⟨hw, ?_⟩⟩
      rw [Automaton.minLen, hlink]
      exact Nat.zero_le _
  | @step v u l hlink hl ih =>
      have hroot : v ≠ 0 := fun heq => by
        rw [heq, h.link_root] at hlink
        cases hlink
      obtain ⟨u', hu', hlink', hsuffix, _⟩ := h.link v hv hroot
      obtain rfl := Option.some.inj (hlink.symm.trans hlink')
      by_cases hlen : A.minLen v ≤ w.length
      · exact ⟨v, List.mem_cons_self, (h.run v hv w).mpr ⟨hw, hlen⟩⟩
      · have hle : w.length ≤ (longest u).length := by
          rw [Automaton.minLen, hlink, Option.elim_some] at hlen
          rw [← h.length u hu']
          omega
        obtain ⟨x, hx, hrun⟩ := ih hu' (List.suffix_of_suffix_length_le hw hsuffix hle)
        exact ⟨x, List.mem_cons_of_mem _ hx, hrun⟩

/-- A word of `v` is a suffix of the longest word of the states whose chain has `v`. -/
theorem mem_chain_iff (hx : A.live x) (hl : A.Chain x l)
    (hw : A.run w = some v) : v ∈ l ↔ w <:+ longest x := by
  constructor
  · intro hv
    exact (((h.run v (h.run_live hw) w).mp hw).1).trans (h.chain_mem hx hl hv).2.1
  · intro hsuffix
    obtain ⟨y, hy, hrun⟩ := h.chain_run hx hl hsuffix
    exact Option.some.inj (hw.symm.trans hrun) ▸ hy

/-- The words of a state of a chain are shorter the further back it stands. -/
theorem chain_pairwise (hv : A.live v) (hl : A.Chain v l) :
    l.Pairwise fun x y => A.maxLen y < A.minLen x := by
  induction hl with
  | root => exact List.pairwise_singleton _ _
  | @step v u l hlink hl ih =>
      have hroot : v ≠ 0 := fun heq => by
        rw [heq, h.link_root] at hlink
        cases hlink
      obtain ⟨u', hu', hlink', _⟩ := h.link v hv hroot
      obtain rfl := Option.some.inj (hlink.symm.trans hlink')
      refine List.pairwise_cons.mpr ⟨fun y hy => ?_, ih hu'⟩
      rw [Automaton.minLen, hlink]
      exact Nat.lt_succ_of_le (h.chain_mem hu' hl hy).2.2

theorem chain_nodup (hv : A.live v) (hl : A.Chain v l) : l.Nodup := by
  refine (h.chain_pairwise hv hl).imp_of_mem fun {x y} hx _ hlt heq => ?_
  have hle := h.minLen_le (h.chain_mem hv hl hx).1
  rw [heq] at hlt hle
  omega

/-- A suffix of a word that can go on can go on as well. -/
theorem next_isSome (hw : A.run w = some v)
    (hx : A.run w' = some x) (hsuffix : w <:+ w') (hnext : (A.next x a).isSome) :
    (A.next v a).isSome := by
  have hlong : (A.run (w' ++ [a])).isSome := by
    rw [A.run_concat, hx]
    exact hnext
  have hshort : (A.run (w ++ [a])).isSome := by
    rw [h.words] at hlong ⊢
    obtain ⟨front, rfl⟩ := hsuffix
    rw [List.append_assoc] at hlong
    exact (List.suffix_append _ _).isInfix.trans hlong
  rw [A.run_concat, hw] at hshort
  exact hshort

theorem chain_suffix (hv : A.live v) (hl : A.Chain v l) :
    l.Pairwise fun x y => longest y <:+ longest x := by
  refine (h.chain_pairwise hv hl).imp_of_mem fun {x y} hx hy hlt => ?_
  obtain ⟨hxlive, hxlong, _⟩ := h.chain_mem hv hl hx
  obtain ⟨hylive, hylong, _⟩ := h.chain_mem hv hl hy
  refine List.suffix_of_suffix_length_le hylong hxlong ?_
  rw [← h.length x hxlive, ← h.length y hylive]
  exact Nat.le_of_lt (Nat.lt_of_lt_of_le hlt (h.minLen_le hxlive))

/-- The states of a chain that cannot go on with a letter stand in front. -/
theorem chain_next_none (hv : A.live v) (hl : A.Chain v l)
    (a : α) : l.Pairwise fun x y => A.next y a = none → A.next x a = none := by
  refine (h.chain_suffix hv hl).imp_of_mem fun {x y} hx hy hsuffix hnone => ?_
  rw [← Option.not_isSome_iff_eq_none] at hnone ⊢
  exact mt (h.next_isSome (h.run_longest (h.chain_mem hv hl hy).1)
    (h.run_longest (h.chain_mem hv hl hx).1) hsuffix) hnone

/-- The states of a chain that go on to the same state as the first one stand in front. -/
theorem chain_next_same (hv : A.live v) (hl : A.Chain v l) (hnext : A.next v a = some u) :
    l.Pairwise fun x y => A.next y a = some u → A.next x a = some u := by
  have hu := h.closed v hv a u hnext
  have hword : ∀ x, A.live x → (A.next x a = some u ↔ A.run (longest x ++ [a]) = some u) := by
    intro x hx
    rw [A.run_concat, h.run_longest hx]
    rfl
  refine (h.chain_suffix hv hl).imp_of_mem fun {x y} hx hy hsuffix hsame => ?_
  obtain ⟨hxlive, hxlong, _⟩ := h.chain_mem hv hl hx
  have hylive := (h.chain_mem hv hl hy).1
  rw [hword x hxlive, h.run u hu]
  have hlong := ((h.run u hu _).mp ((hword v hv).mp hnext)).1
  have hmin := ((h.run u hu _).mp ((hword y hylive).mp hsame)).2
  constructor
  · obtain ⟨front, hfront⟩ := hxlong
    exact List.IsSuffix.trans ⟨front, by rw [← List.append_assoc, hfront]⟩ hlong
  · rw [List.length_append] at hmin ⊢
    exact Nat.le_trans hmin (Nat.add_le_add_right hsuffix.length_le 1)

theorem longest_of_prefix (hw : A.run w = some v) (hpref : w <+: text) : longest v = w := by
  have hv := h.run_live hw
  obtain ⟨rest, rfl⟩ := hpref
  -- whatever follows the word follows the longest word as well
  have hlong : (A.run (longest v ++ rest)).isSome := by
    rw [A.run_append, h.run_longest hv, ← hw, ← A.run_append, h.words]
  have hle := ((h.words _).mp hlong).length_le
  rw [List.length_append, List.length_append] at hle
  exact ((((h.run v hv w).mp hw).1).eq_of_length_le (by omega)).symm

end

end Indexes

section Split

variable {A : Automaton α} {text : List α} {longest : Nat → List α} {last : Nat}
variable {p q : Nat} {a : α} {redirected l : List Nat}

/-- What can be split: `p` leads to `q` by the letter `a`, and so do the states of `redirected`,
all of the chain of `p` that do. -/
structure Splits (A : Automaton α) (p q : Nat) (a : α) (l redirected : List Nat) : Prop where
  live : A.live p
  next : A.next p a = some q
  longer : A.maxLen p + 1 < A.maxLen q
  chain : A.Chain p l
  redirected : ∀ v, v ∈ redirected ↔ v ∈ l ∧ A.next v a = some q

section Words

variable (h : Indexes A text longest last) (hs : Splits A p q a l redirected)
include h hs

theorem Splits.run_long : A.run (longest p ++ [a]) = some q := by
  rw [A.run_concat, h.run_longest hs.live]
  exact hs.next

theorem Splits.live_q : A.live q := h.closed p hs.live a q hs.next

theorem Splits.suffix : longest p ++ [a] <:+ longest q ∧ A.minLen q ≤ A.maxLen p + 1 := by
  have hword := (h.run q (hs.live_q h) _).mp (hs.run_long h)
  rwa [List.length_append, ← h.length p hs.live] at hword

theorem Splits.q_ne_root : q ≠ 0 := by
  intro heq
  have hword := (hs.suffix h).1
  rw [heq, h.longest_root] at hword
  simpa using hword.length_le

/-- A short word leads to `q` from a state whose transition is redirected. -/
theorem Splits.mem_redirected {v : Nat} {w : List α} (hw : A.run w = some v) {b : α} :
    v ∈ redirected ∧ b = a ↔ A.next v b = some q ∧ w.length ≤ A.maxLen p := by
  constructor
  · rintro ⟨hv, rfl⟩
    obtain ⟨hmem, hnext⟩ := (hs.redirected v).mp hv
    exact ⟨hnext, Nat.le_trans (h.length_le hw) (h.chain_mem hs.live hs.chain hmem).2.2⟩
  · rintro ⟨hnext, hlen⟩
    have hrun : A.run (w ++ [b]) = some q := by
      rw [A.run_concat, hw]
      exact hnext
    have hword := ((h.run q (hs.live_q h) _).mp hrun).1
    have hsuffix : w ++ [b] <:+ longest p ++ [a] := by
      refine List.suffix_of_suffix_length_le hword (hs.suffix h).1 ?_
      rw [List.length_append, List.length_append, ← h.length p hs.live]
      exact Nat.add_le_add_right hlen 1
    obtain ⟨front, hfront⟩ := hsuffix
    rw [← List.append_assoc] at hfront
    obtain ⟨hwords, hletter⟩ := List.append_inj' hfront rfl
    obtain rfl := (List.cons.inj hletter).1
    obtain ⟨x, hx, hrunx⟩ := h.chain_run hs.live hs.chain ⟨front, hwords⟩
    obtain rfl := Option.some.inj (hw.symm.trans hrunx)
    exact ⟨(hs.redirected v).mpr ⟨hx, hnext⟩, rfl⟩

end Words

variable [DecidableEq α]

/-- A new state takes the words of `q` that are at most as long as a word of `p` and a letter;
the transitions of the states of `redirected` lead to it. -/
def split (A : Automaton α) (n p q : Nat) (a : α) (redirected : List Nat) : Automaton α where
  live v := A.live v ∨ v = n
  next v b :=
    if v = n then A.next q b
    else if v ∈ redirected ∧ b = a then some n
    else A.next v b
  link v := if v = n then A.link q else if v = q then some n else A.link v
  maxLen v := if v = n then A.maxLen p + 1 else A.maxLen v

variable (h : Indexes A text longest last) (hs : Splits A p q a l redirected) {n : Nat}
variable (hfresh : ¬ A.live n)
include h hs hfresh

/-- The short words of `q` lead to the new state and the others where they led before. -/
theorem Splits.run_split (w : List α) : (split A n p q a redirected).run w =
    if A.run w = some q ∧ w.length ≤ A.maxLen p + 1 then some n else A.run w := by
  induction w using List.reverseRecOn with
  | nil =>
      have hne : (0 : Nat) ≠ q := (hs.q_ne_root h).symm
      simp [Automaton.run_nil, hne]
  | append_singleton w b ih =>
      rw [Automaton.run_concat, ih, A.run_concat]
      cases hw : A.run w with
      | none => simp
      | some v =>
          have hv := h.run_live hw
          by_cases hmoved : v = q ∧ w.length ≤ A.maxLen p + 1
          · -- the new state goes on as `q` does, and nothing leads from `q` to `q`
            have hnot : A.next q b ≠ some q := fun hnext =>
              Nat.lt_irrefl _ (h.maxLen_lt (hs.live_q h) hnext)
            simp [hmoved, split, hnot]
          · have hsize : v ≠ n := fun heq => hfresh (heq ▸ hv)
            have hiff := hs.mem_redirected h hw (b := b)
            rw [if_neg (by simpa using hmoved)]
            simp only [Option.bind_some, split, if_neg hsize, hiff, List.length_append,
              List.length_singleton, Nat.add_le_add_iff_right]

theorem Splits.link_old {v : Nat} (hv : A.live v) (hroot : v ≠ 0) : ∃ u,
    (A.live u ∨ u = n) ∧ (split A n p q a redirected).link v = some u ∧
      update longest n (longest p ++ [a]) u <:+ longest v ∧
      (split A n p q a redirected).maxLen u < (split A n p q a redirected).maxLen v := by
  have hsize : ∀ v, A.live v → v ≠ n := fun v hv heq => hfresh (heq ▸ hv)
  by_cases hvq : v = q
  · subst hvq
    refine ⟨n, .inr rfl, by simp [split, hsize v hv], ?_, by simp [split, hsize v hv, hs.longer]⟩
    rw [update_self]
    exact (hs.suffix h).1
  · obtain ⟨u, hu, hlink, hlonger, hlt⟩ := h.link v hv hroot
    refine ⟨u, .inl hu, by simp [split, hsize v hv, hvq, hlink], ?_,
      by simp [split, hsize v hv, hsize u hu, hlt]⟩
    rw [update_of_ne (hsize u hu)]
    exact hlonger

omit hfresh in
theorem Splits.link_new : ∃ u, A.live u ∧ (split A n p q a redirected).link n = some u ∧
    longest u <:+ longest p ++ [a] ∧ A.maxLen u < A.maxLen p + 1 := by
  obtain ⟨u, hu, hlink, hlonger, -⟩ := h.link q (hs.live_q h) (hs.q_ne_root h)
  obtain ⟨hsuffix, hmin⟩ := hs.suffix h
  rw [Automaton.minLen, hlink] at hmin
  refine ⟨u, hu, by simp [split, hlink], List.suffix_of_suffix_length_le hlonger hsuffix ?_, hmin⟩
  rw [List.length_append, ← h.length u hu, ← h.length p hs.live]
  exact Nat.le_of_lt hmin

omit hs in
theorem Indexes.minLen_split {v : Nat} (hv : A.live v) (hvq : v ≠ q) :
    (split A n p q a redirected).minLen v = A.minLen v := by
  have hsize : ∀ v, A.live v → v ≠ n := fun v hv heq => hfresh (heq ▸ hv)
  by_cases hroot : v = 0
  · subst hroot
    simp [Automaton.minLen, split, hsize 0 hv, hvq, h.link_root]
  · obtain ⟨u, hu, hlink, _⟩ := h.link v hv hroot
    simp [Automaton.minLen, split, hsize v hv, hvq, hlink, hsize u hu]

theorem Splits.run_old {v : Nat} (hv : A.live v) (hvq : v ≠ q) (w : List α) :
    (split A n p q a redirected).run w = some v ↔
      w <:+ longest v ∧ (split A n p q a redirected).minLen v ≤ w.length := by
  rw [hs.run_split h hfresh, h.minLen_split hfresh hv hvq, ← h.run v hv w]
  constructor
  · intro hrun
    split at hrun
    · exact absurd (Option.some.inj hrun).symm fun heq => hfresh (heq ▸ hv)
    · exact hrun
  · intro hrun
    rw [if_neg (fun hmoved => hvq (Option.some.inj (hrun.symm.trans hmoved.1))), hrun]

/-- The words of `q` that are left are longer than those of the new state. -/
theorem Splits.run_q (w : List α) : (split A n p q a redirected).run w = some q ↔
    w <:+ longest q ∧ (split A n p q a redirected).minLen q ≤ w.length := by
  have hq := hs.live_q h
  have hqn : q ≠ n := fun heq => hfresh (heq ▸ hq)
  have hminq : (split A n p q a redirected).minLen q = A.maxLen p + 2 := by
    simp [Automaton.minLen, split, hqn]
  rw [hs.run_split h hfresh, hminq]
  constructor
  · intro hrun
    split at hrun
    · exact absurd (Option.some.inj hrun).symm hqn
    · next hnot =>
        refine ⟨((h.run q hq w).mp hrun).1, ?_⟩
        by_contra hshort
        exact hnot ⟨hrun, by omega⟩
  · rintro ⟨hword, hlen⟩
    have hmin := (hs.suffix h).2
    have hrun := (h.run q hq w).mpr ⟨hword, by omega⟩
    rw [if_neg (by omega), hrun]

theorem Splits.run_new (w : List α) : (split A n p q a redirected).run w = some n ↔
    w <:+ longest p ++ [a] ∧ (split A n p q a redirected).minLen n ≤ w.length := by
  have hsize : ∀ v, A.live v → v ≠ n := fun v hv heq => hfresh (heq ▸ hv)
  obtain ⟨hsuffix, -⟩ := hs.suffix h
  have hminsize : (split A n p q a redirected).minLen n = A.minLen q := by
    obtain ⟨u, hu, hlink, _⟩ := h.link q (hs.live_q h) (hs.q_ne_root h)
    simp [Automaton.minLen, split, hlink, hsize u hu]
  rw [hs.run_split h hfresh, hminsize]
  constructor
  · intro hrun
    split at hrun
    · next hmoved =>
        obtain ⟨hword, hlen⟩ := (h.run q (hs.live_q h) w).mp hmoved.1
        refine ⟨List.suffix_of_suffix_length_le hword hsuffix ?_, hlen⟩
        rw [List.length_append, ← h.length p hs.live]
        exact hmoved.2
    · exact absurd (h.run_live hrun) hfresh
  · rintro ⟨hword, hlen⟩
    have hrun := (h.run q (hs.live_q h) w).mpr ⟨hword.trans hsuffix, hlen⟩
    have hle := hword.length_le
    rw [List.length_append, ← h.length p hs.live] at hle
    rw [if_pos ⟨hrun, hle⟩]

theorem Splits.indexes : Indexes (split A n p q a redirected) text
    (update longest n (longest p ++ [a])) last := by
  have hsize : ∀ v, A.live v → v ≠ n := fun v hv heq => hfresh (heq ▸ hv)
  refine ⟨.inl h.live_root, ?_, ?_, .inl h.live_last, ?_, fun v hv => ?_, fun v hv hroot => ?_,
    fun v hv b u hnext => ?_, fun v hv w => ?_, fun w => ?_⟩
  · rw [update_of_ne (hsize 0 h.live_root), h.longest_root]
  · simp [split, hsize 0 h.live_root, (hs.q_ne_root h).symm, h.link_root]
  · rw [update_of_ne (hsize last h.live_last), h.longest_last]
  · rcases hv with hold | rfl
    · simp [split, hsize v hold, h.length v hold]
    · simp [split, h.length p hs.live]
  · rcases hv with hold | rfl
    · rw [update_of_ne (hsize v hold)]
      exact hs.link_old h hfresh hold hroot
    · obtain ⟨u, hu, hlink, hlonger, hlt⟩ := hs.link_new h
      refine ⟨u, .inl hu, hlink, ?_, by simpa [split, hsize u hu] using hlt⟩
      rw [update_self, update_of_ne (hsize u hu)]
      exact hlonger
  · rcases hv with hold | rfl
    · simp only [split, if_neg (hsize v hold)] at hnext
      split at hnext
      · exact .inr (Option.some.inj hnext).symm
      · exact .inl (h.closed v hold b u hnext)
    · simp only [split, if_true] at hnext
      exact .inl (h.closed q (hs.live_q h) b u hnext)
  · rcases hv with hold | rfl
    · rw [update_of_ne (hsize v hold)]
      by_cases hvq : v = q
      · exact hvq ▸ hs.run_q h hfresh w
      · exact hs.run_old h hfresh hold hvq w
    · rw [update_self]
      exact hs.run_new h hfresh w
  · rw [hs.run_split h hfresh, ← h.words]
    split
    · next hmoved => simp [hmoved.1]
    · rfl

end Split

section Append

variable {A : Automaton α} {text : List α} {longest : Nat → List α} {last : Nat}
variable {a : α} {linked : Nat} {before l : List Nat}

/-- What the new state hangs on: the states of `before` are those of the chain of the text that
cannot go on with `a`. The others lead to `linked`, whose words are all one of the first of them
and the letter, or there are none and `linked` is the initial state. -/
structure Appends (A : Automaton α) (last : Nat) (a : α) (l before : List Nat) (linked : Nat) :
    Prop where
  chain : A.Chain last l
  before : ∀ v, v ∈ before ↔ v ∈ l ∧ A.next v a = none
  linked : (linked = 0 ∧ ∀ v ∈ l, A.next v a = none) ∨
    ∃ p ∈ l, A.next p a = some linked ∧ A.maxLen linked = A.maxLen p + 1 ∧
      ∀ v ∈ l, A.next v a ≠ none → A.maxLen v ≤ A.maxLen p

section Words

variable (h : Indexes A text longest last) (hp : Appends A last a l before linked)
include h hp

theorem Appends.mem_before {v : Nat} {w : List α} (hw : A.run w = some v) (b : α) :
    v ∈ before ∧ b = a ↔ A.next v b = none ∧ w ++ [b] <:+ text ++ [a] := by
  constructor
  · rintro ⟨hv, rfl⟩
    obtain ⟨hmem, hnext⟩ := (hp.before v).mp hv
    refine ⟨hnext, ?_⟩
    have hword := ((h.run v (h.run_live hw) w).mp hw).1
    have hsuffix := hword.trans (h.chain_mem h.live_last hp.chain hmem).2.1
    rw [h.longest_last] at hsuffix
    obtain ⟨front, rfl⟩ := hsuffix
    exact ⟨front, (List.append_assoc _ _ _).symm⟩
  · rintro ⟨hnext, front, hfront⟩
    rw [← List.append_assoc] at hfront
    obtain ⟨hwords, hletter⟩ := List.append_inj' hfront rfl
    obtain rfl := (List.cons.inj hletter).1
    obtain ⟨x, hx, hrunx⟩ := h.chain_run h.live_last hp.chain
      (h.longest_last.symm ▸ ⟨front, hwords⟩ : w <:+ longest last)
    obtain rfl := Option.some.inj (hw.symm.trans hrunx)
    exact ⟨(hp.before v).mpr ⟨hx, hnext⟩, rfl⟩

theorem Appends.link_spec : A.live linked ∧ longest linked <:+ text ++ [a] ∧
    A.maxLen linked < text.length + 1 := by
  rcases hp.linked with ⟨rfl, _⟩ | ⟨p, hpl, hnext, hlen, _⟩
  · refine ⟨h.live_root, ?_, ?_⟩
    · rw [h.longest_root]
      exact List.nil_suffix
    · rw [h.length 0 h.live_root, h.longest_root]
      exact Nat.succ_pos _
  · obtain ⟨hplt, hsuffix, _⟩ := h.chain_mem h.live_last hp.chain hpl
    have hlt := h.closed p hplt a linked hnext
    have hrun : A.run (longest p ++ [a]) = some linked := by
      rw [A.run_concat, h.run_longest hplt]
      exact hnext
    have hword := ((h.run linked hlt _).mp hrun).1
    have heq : longest p ++ [a] = longest linked := hword.eq_of_length (by
      rw [List.length_append, ← h.length p hplt, ← h.length linked hlt, hlen]
      rfl)
    rw [h.longest_last] at hsuffix
    obtain ⟨front, hfront⟩ := hsuffix
    refine ⟨hlt, heq ▸ ⟨front, by rw [← hfront, List.append_assoc]⟩, ?_⟩
    have hinfix : longest p ++ [a] <:+: text := (h.words _).mp (by rw [hrun]; rfl)
    have hle := hinfix.length_le
    rw [heq, ← h.length linked hlt] at hle
    exact Nat.lt_succ_of_le hle

end Words

variable [DecidableEq α]

/-- A new state for the suffixes of the longer text that are no substrings yet. -/
def append (A : Automaton α) (n : Nat) (a : α) (len linked : Nat) (before : List Nat) :
    Automaton α where
  live v := A.live v ∨ v = n
  next v b :=
    if v = n then none
    else if v ∈ before ∧ b = a then some n
    else A.next v b
  link v := if v = n then some linked else A.link v
  maxLen v := if v = n then len + 1 else A.maxLen v

variable (h : Indexes A text longest last) (hp : Appends A last a l before linked) {n : Nat}
variable (hfresh : ¬ A.live n)
include h hp hfresh

/-- The words that led nowhere lead to the new state when they end the longer text. -/
theorem Appends.run_append (w : List α) : (append A n a text.length linked before).run w =
    (A.run w).or (if A.run w = none ∧ w <:+ text ++ [a] then some n else none) := by
  induction w using List.reverseRecOn with
  | nil => simp [Automaton.run_nil]
  | append_singleton w b ih =>
      rw [Automaton.run_concat, ih, A.run_concat]
      cases hw : A.run w with
      | none =>
          have hlast : ¬ w ++ [b] <:+ text ++ [a] := by
            rintro ⟨front, hfront⟩
            rw [← List.append_assoc] at hfront
            have hinfix : w <:+: text := ⟨front, [], by
              rw [List.append_nil]
              exact (List.append_inj' hfront rfl).1⟩
            rw [← h.words, hw] at hinfix
            cases hinfix
          simp only [hlast, and_false, if_false, Option.bind_none, Option.or_none, true_and,
            Option.none_or]
          split
          · simp [append]
          · rfl
      | some v =>
          have hsize : v ≠ n := fun heq => hfresh (heq ▸ h.run_live hw)
          have hiff := hp.mem_before h hw b
          simp only [Option.some_or, Option.bind_some, append, if_neg hsize, hiff]
          by_cases hnone : A.next v b = none
          · simp [hnone]
          · obtain ⟨u, hu⟩ := Option.ne_none_iff_exists'.mp hnone
            simp [hu]

theorem Appends.new_iff (w : List α) : A.run w = none ∧ w <:+ text ++ [a] ↔
    w <:+ text ++ [a] ∧ (append A n a text.length linked before).minLen n ≤ w.length := by
  rw [and_comm]
  refine and_congr_right fun hw => ?_
  rcases List.eq_nil_or_concat w with rfl | ⟨w', b, rfl⟩
  · simp [Automaton.run_nil, Automaton.minLen, append]
  · rw [List.concat_eq_append] at hw ⊢
    obtain ⟨front, hfront⟩ := hw
    rw [← List.append_assoc] at hfront
    obtain ⟨hwords, hletter⟩ := List.append_inj' hfront rfl
    obtain rfl := (List.cons.inj hletter).1
    obtain ⟨x, hx, hrun⟩ := h.chain_run h.live_last hp.chain
      (h.longest_last.symm ▸ ⟨front, hwords⟩ : w' <:+ longest last)
    have hxlt := h.run_live hrun
    rw [A.run_concat, hrun, Option.bind_some, List.length_append, List.length_singleton]
    rcases hp.linked with ⟨rfl, hall⟩ | ⟨p, hpl, hnext, hlen, hfirst⟩
    · have hroot : (0 : Nat) ≠ n := fun heq => hfresh (heq ▸ h.live_root)
      have hzero : A.maxLen 0 = 0 := by
        rw [h.length 0 h.live_root, h.longest_root]
        rfl
      simp [hall x hx, Automaton.minLen, append, hroot, hzero]
    · obtain ⟨hplt, _, _⟩ := h.chain_mem h.live_last hp.chain hpl
      have hlinked : linked ≠ n := fun heq => hfresh (heq ▸ h.closed p hplt b linked hnext)
      simp only [Automaton.minLen, append, if_true, Option.elim_some, if_neg hlinked, hlen]
      have hpsuffix := (h.chain_mem h.live_last hp.chain hpl).2.1
      rw [h.longest_last] at hpsuffix
      constructor
      · intro hnone
        by_contra hshort
        have hle : w'.length ≤ (longest p).length := by
          rw [← h.length p hplt]
          omega
        have hsome := h.next_isSome hrun (h.run_longest hplt)
          (List.suffix_of_suffix_length_le ⟨front, hwords⟩ hpsuffix hle)
          (by rw [hnext]; rfl : (A.next p b).isSome)
        rw [hnone] at hsome
        cases hsome
      · intro hlong
        by_contra hsome
        have hle := Nat.le_trans (h.length_le hrun) (hfirst x hx hsome)
        omega

theorem Appends.indexes : Indexes (append A n a text.length linked before) (text ++ [a])
    (update longest n (text ++ [a])) n := by
  have hsize : ∀ v, A.live v → v ≠ n := fun v hv heq => hfresh (heq ▸ hv)
  obtain ⟨hlinked, hlonger, hlt⟩ := hp.link_spec h
  refine ⟨Or.inl h.live_root, ?_, ?_, Or.inr rfl, update_self _ _ _, fun v hv => ?_,
    fun v hv hroot => ?_, fun v hv b u hnext => ?_, fun v hv w => ?_, fun w => ?_⟩
  · rw [update_of_ne (hsize 0 h.live_root), h.longest_root]
  · simp [append, hsize 0 h.live_root, h.link_root]
  · rcases hv with hv | rfl
    · simp [append, hsize v hv, h.length v hv]
    · simp [append]
  · rcases hv with hv | rfl
    · obtain ⟨u, hu, hlink, hlonger', hlt'⟩ := h.link v hv hroot
      refine ⟨u, Or.inl hu, by simp [append, hsize v hv, hlink], ?_, ?_⟩
      · rw [update_of_ne (hsize u hu), update_of_ne (hsize v hv)]
        exact hlonger'
      · simp [append, hsize v hv, hsize u hu, hlt']
    · refine ⟨linked, Or.inl hlinked, by simp [append], ?_, ?_⟩
      · rw [update_self, update_of_ne (hsize linked hlinked)]
        exact hlonger
      · simp [append, hsize linked hlinked, hlt]
  · rcases hv with hv | rfl
    · simp only [append, if_neg (hsize v hv)] at hnext
      split at hnext
      · obtain rfl := Option.some.inj hnext
        exact Or.inr rfl
      · exact Or.inl (h.closed v hv b u hnext)
    · simp [append] at hnext
  · rw [hp.run_append h hfresh]
    rcases hv with hv | rfl
    · have hmin : (append A n a text.length linked before).minLen v = A.minLen v := by
        by_cases hroot : v = 0
        · subst hroot
          simp [Automaton.minLen, append, hsize 0 hv, h.link_root]
        · obtain ⟨u, hu, hlink, _⟩ := h.link v hv hroot
          simp [Automaton.minLen, append, hsize v hv, hlink, hsize u hu]
      rw [update_of_ne (hsize v hv), hmin, ← h.run v hv w]
      cases hw : A.run w with
      | none =>
          have hne : ¬ n = v := (hsize v hv).symm
          simp [hne]
      | some u => simp
    · rw [update_self, ← hp.new_iff h hfresh]
      cases hw : A.run w with
      | none => simp
      | some u => simp [hsize u (h.run_live hw)]
  · rw [hp.run_append h hfresh, List.infix_concat_iff, ← h.words]
    cases hw : A.run w with
    | none => simp
    | some u => simp

end Append

end SpecDecode.SuffixAutomaton
