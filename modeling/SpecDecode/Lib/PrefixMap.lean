import SpecDecode.Lib.RadixTree

/-!
# Prefix maps

What a radix tree is for: a partial map from words to values, of which one looks up the
longest prefix of a word. Inserting a word gives a value to each of its prefixes that
has none.
-/

namespace SpecDecode

/-- A value for each stored word. -/
def PrefixMap (α β : Type) := List α → Option β

namespace PrefixMap

variable {α β : Type}

def empty : PrefixMap α β := fun _ => none

/-- The values along `w` behind `q`, up to the first word without one. -/
def lookup (A : PrefixMap α β) (q : List α) : List α → List β
  | [] => []
  | a :: w =>
      match A (q ++ [a]) with
      | none => []
      | some b => b :: A.lookup (q ++ [a]) w

/-- Gives a value to each prefix of `w` that has none. -/
def insert [DecidableEq α] (A : PrefixMap α β) (w : List α) (vals : List β) : PrefixMap α β :=
  fun p => (A p).or (if p ≠ [] ∧ p <+: w then vals[p.length - 1]? else none)

open Classical in
noncomputable def remove (A : PrefixMap α β) (gone : List α → Prop) : PrefixMap α β :=
  fun p => if gone p then none else A p

theorem length_lookup_le (A : PrefixMap α β) (q w : List α) : (A.lookup q w).length ≤ w.length := by
  induction w generalizing q with
  | nil => exact Nat.le_refl _
  | cons a w ih =>
      unfold lookup
      split
      · exact Nat.zero_le _
      · exact Nat.succ_le_succ (ih _)

variable {A : PrefixMap α β}

theorem getElem?_lookup {q w : List α} {i : Nat} {b : β}
    (hget : (A.lookup q w)[i]? = some b) : A (q ++ w.take (i + 1)) = some b := by
  induction w generalizing q i with
  | nil => simp [lookup] at hget
  | cons a w ih =>
      unfold lookup at hget
      split at hget
      · simp at hget
      · next b' hb =>
          cases i with
          | zero =>
              obtain rfl : b' = b := by simpa using hget
              simpa using hb
          | succ i =>
              have hrest := ih (q := q ++ [a]) (i := i) (by simpa using hget)
              rwa [List.append_assoc, List.singleton_append, ← List.take_succ_cons] at hrest

theorem lookup_stop {q w : List α} (hlt : (A.lookup q w).length < w.length) :
    A (q ++ w.take ((A.lookup q w).length + 1)) = none := by
  induction w generalizing q with
  | nil => cases hlt
  | cons a w ih =>
      unfold lookup at hlt ⊢
      split at hlt
      · next hnone => simp only [hnone, List.length_nil, List.take_succ_cons, List.take_zero]
      · next b hb =>
          have hrest := ih (q := q ++ [a]) (Nat.lt_of_succ_lt_succ hlt)
          simp only [List.length_cons, List.take_succ_cons]
          rwa [List.append_assoc, List.singleton_append] at hrest

/-- A lookup is the only list of values along a word that stops at a gap. -/
theorem eq_lookup {q w : List α} {bs : List β} (hle : bs.length ≤ w.length)
    (hentry : ∀ i b, bs[i]? = some b → A (q ++ w.take (i + 1)) = some b)
    (hstop : bs.length < w.length → A (q ++ w.take (bs.length + 1)) = none) :
    bs = A.lookup q w := by
  have hboth : ∀ (i : Nat) (b b' : β), bs[i]? = some b → (A.lookup q w)[i]? = some b' →
      b = b' := by
    intro i b b' hb hb'
    exact Option.some.inj ((hentry i b hb).symm.trans (getElem?_lookup hb'))
  have hlen : bs.length = (A.lookup q w).length := by
    have hle' := A.length_lookup_le q w
    rcases Nat.lt_trichotomy bs.length (A.lookup q w).length with hlt | heq | hlt
    · have hsome := getElem?_lookup (List.getElem?_eq_getElem hlt)
      rw [hstop (by omega)] at hsome
      cases hsome
    · exact heq
    · have hsome := hentry _ _ (List.getElem?_eq_getElem hlt)
      have hnone := lookup_stop (A := A) (q := q) (w := w) (by omega)
      rw [hnone] at hsome
      cases hsome
  refine List.ext_getElem hlen fun i hi hi' => ?_
  exact hboth i _ _ (List.getElem?_eq_getElem hi) (List.getElem?_eq_getElem hi')

/-- The first `n` prefixes of `w` have values and no longer one has. -/
structure IsLongest (A : PrefixMap α β) (w : List α) (n : Nat) : Prop where
  le : n ≤ w.length
  stored : ∀ i, i < n → A (w.take (i + 1)) ≠ none
  maximal : ∀ i, n ≤ i → i < w.length → A (w.take (i + 1)) = none

/-- In a map that is closed under prefixes a lookup finds the longest prefix. -/
theorem isLongest_lookup
    (hclosed : ∀ p q, p ≠ [] → A p = none → A (p ++ q) = none) (w : List α) :
    A.IsLongest w (A.lookup [] w).length := by
  refine ⟨A.length_lookup_le [] w, fun i hi => ?_, fun i hle hi => ?_⟩
  · have hsome := getElem?_lookup (List.getElem?_eq_getElem hi)
    rw [List.nil_append] at hsome
    simp [hsome]
  · have hstop := lookup_stop (A := A) (q := []) (w := w) (by omega)
    rw [List.nil_append] at hstop
    have htake : w.take (i + 1) = w.take ((A.lookup [] w).length + 1) ++
        (w.drop ((A.lookup [] w).length + 1)).take (i - (A.lookup [] w).length) := by
      rw [← List.take_add]
      congr 1
      omega
    have hne : w.take ((A.lookup [] w).length + 1) ≠ [] := by
      intro hnil
      have hlen := congrArg List.length hnil
      rw [List.length_take, List.length_nil] at hlen
      omega
    rw [htake]
    exact hclosed _ _ hne hstop

/-- Inserting gives the new values to the prefixes that had none. -/
theorem insert_eq_some_iff [DecidableEq α] {w p : List α} {vals : List β}
    {b : β} : A.insert w vals p = some b ↔ A p = some b ∨
      A p = none ∧ ∃ i, i < w.length ∧ p = w.take (i + 1) ∧ vals[i]? = some b := by
  rw [insert, Option.or_eq_some_iff]
  refine or_congr_right (and_congr_right fun _ => ?_)
  constructor
  · intro hnew
    split at hnew
    · next hp =>
        have hpos := List.length_pos_of_ne_nil hp.1
        have hle := hp.2.length_le
        refine ⟨p.length - 1, by omega, ?_, hnew⟩
        rw [Nat.sub_add_cancel hpos]
        exact List.prefix_iff_eq_take.mp hp.2
    · cases hnew
  · rintro ⟨i, hi, rfl, hget⟩
    have hlen : (w.take (i + 1)).length = i + 1 := by
      rw [List.length_take]
      omega
    have hne : w.take (i + 1) ≠ [] := List.ne_nil_of_length_eq_add_one hlen
    rw [if_pos ⟨hne, List.take_prefix _ _⟩, hlen, Nat.add_sub_cancel, hget]

theorem remove_eq_some_iff {gone : List α → Prop} {p : List α} {b : β} :
    A.remove gone p = some b ↔ A p = some b ∧ ¬ gone p := by
  rw [remove]
  split
  · next hgone => simp [hgone]
  · next hgone => simp [hgone]

end PrefixMap

namespace RadixTree

variable {α β : Type} {t : Nat → Node α β} {root : Nat} {A : PrefixMap α β}

/-- The tree holds the map. -/
def Holds (t : Nat → Node α β) (root : Nat) (A : PrefixMap α β) : Prop :=
  ∀ p b, Entry t root p b ↔ A p = some b

theorem Holds.eq_none (h : Holds t root A) {p : List α} (hno : ∀ b, ¬ Entry t root p b) :
    A p = none := by
  rw [Option.eq_none_iff_forall_ne_some]
  exact fun b hb => hno b ((h p b).mpr hb)

theorem Holds.closed {live : Finset Nat} (h : Holds t root A) (hwf : Wf t root live)
    (p q : List α) (hp : p ≠ []) (hnone : A p = none) : A (p ++ q) = none := by
  refine h.eq_none fun b hb => ?_
  obtain ⟨b', hb'⟩ := hwf.entry_of_append hb hp
  rw [h, hnone] at hb'
  cases hb'

theorem Longest.eq_lookup {q w : List α} {bs : List β} (hs : Longest t root q w bs)
    (h : Holds t root A) : bs = A.lookup q w :=
  PrefixMap.eq_lookup hs.length_le (fun i b hget => (h _ b).mp (hs.entry i b hget))
    fun hlt => h.eq_none (hs.stop hlt)

end RadixTree

end SpecDecode
