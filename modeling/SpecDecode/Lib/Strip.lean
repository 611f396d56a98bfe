import SpecDecode.Lib.Occurrence
import Mathlib.Data.List.DropRight

/-!
# Stripping both ends of a list

`strip p` drops the elements that satisfy `p` from both ends. Lists that differ only in such
elements at their ends have the same strip, and a word that neither begins nor ends with one
is found at the same place before and after.
-/

namespace SpecDecode

variable {α : Type} (p : α → Bool)

def lstrip (t : List α) : List α := t.dropWhile p

def rstrip (t : List α) : List α := t.rdropWhile p

def strip (t : List α) : List α := rstrip p (lstrip p t)

def Blank (t : List α) : Prop := ∀ a ∈ t, p a = true

variable {p} {t u w g a b : List α}

theorem lstrip_suffix (p : α → Bool) (t : List α) : lstrip p t <:+ t := List.dropWhile_suffix p

theorem exists_lstrip (p : α → Bool) (t : List α) : ∃ w, Blank p w ∧ t = w ++ lstrip p t :=
  ⟨t.takeWhile p, fun _ h => List.mem_takeWhile_imp h, List.takeWhile_append_dropWhile.symm⟩

theorem exists_rstrip (p : α → Bool) (t : List α) : ∃ u, Blank p u ∧ t = rstrip p t ++ u :=
  ⟨t.rtakeWhile p, fun _ h => List.mem_rtakeWhile_imp h,
    (List.rdropWhile_append_rtakeWhile ..).symm⟩

theorem lstrip_append_blank (hw : Blank p w) (t : List α) : lstrip p (w ++ t) = lstrip p t :=
  List.dropWhile_append_of_pos hw

theorem rstrip_append_blank (hu : Blank p u) (t : List α) : rstrip p (t ++ u) = rstrip p t := by
  unfold rstrip List.rdropWhile
  rw [List.reverse_append, List.dropWhile_append_of_pos fun a ha => hu a (List.mem_reverse.mp ha)]

theorem lstrip_eq_nil : lstrip p t = [] ↔ Blank p t := List.dropWhile_eq_nil_iff

theorem lstrip_append (t u : List α) :
    lstrip p (t ++ u) = if lstrip p t = [] then lstrip p u else lstrip p t ++ u := by
  unfold lstrip
  rw [List.dropWhile_append]
  simp only [List.isEmpty_iff]

theorem strip_pad (hw : Blank p w) (hu : Blank p u) : strip p (w ++ t ++ u) = strip p t := by
  unfold strip
  rw [List.append_assoc, lstrip_append_blank hw, lstrip_append]
  split
  · next ht => rw [lstrip_eq_nil.mpr hu, ht]
  · rw [rstrip_append_blank hu]

@[simp] theorem strip_lstrip (t : List α) : strip p (lstrip p t) = strip p t := by
  obtain ⟨w, hw, ht⟩ := exists_lstrip p t
  have hpad := strip_pad (t := lstrip p t) hw (u := []) nofun
  rw [List.append_nil, ← ht] at hpad
  exact hpad.symm

@[simp] theorem strip_rstrip (t : List α) : strip p (rstrip p t) = strip p t := by
  obtain ⟨u, hu, ht⟩ := exists_rstrip p t
  have hpad := strip_pad (t := rstrip p t) (w := []) nofun hu
  rw [List.nil_append, ← ht] at hpad
  exact hpad.symm

@[simp] theorem strip_strip (t : List α) : strip p (strip p t) = strip p t := by
  show strip p (rstrip p (lstrip p t)) = _
  rw [strip_rstrip, strip_lstrip]

theorem strip_isInfix (p : α → Bool) (t : List α) : strip p t <:+: t := by
  obtain ⟨w, -, hw⟩ := exists_lstrip p t
  obtain ⟨u, -, hu⟩ := exists_rstrip p (lstrip p t)
  refine ⟨w, u, ?_⟩
  unfold strip
  rw [List.append_assoc, ← hu, ← hw]

structure Tight (p : α → Bool) (g : List α) : Prop where
  ne_nil : g ≠ []
  head {c : α} : g.head? = some c → p c = false
  last {c : α} : g.getLast? = some c → p c = false

theorem Tight.lstrip_append (h : Tight p g) (b : List α) : lstrip p (g ++ b) = g ++ b := by
  cases g with
  | nil => exact absurd rfl h.ne_nil
  | cons c g =>
      unfold lstrip
      rw [List.cons_append, List.dropWhile_cons_of_neg
        (by rw [h.head rfl]; exact Bool.false_ne_true)]

theorem Tight.reverse (h : Tight p g) : Tight p g.reverse where
  ne_nil := by simpa using h.ne_nil
  head hc := h.last (by rwa [List.head?_reverse] at hc)
  last hc := h.head (by rwa [List.getLast?_reverse] at hc)

theorem rstrip_eq_reverse (t : List α) : rstrip p t = (lstrip p t.reverse).reverse := rfl

theorem Tight.lstrip_mid (h : Tight p g) (a b : List α) :
    lstrip p (a ++ g ++ b) = lstrip p a ++ g ++ b := by
  rw [List.append_assoc, SpecDecode.lstrip_append]
  split
  · next ha => rw [ha, List.nil_append, h.lstrip_append]
  · rw [List.append_assoc]

theorem Tight.strip_mid (h : Tight p g) (a b : List α) :
    strip p (a ++ g ++ b) = lstrip p a ++ g ++ rstrip p b := by
  unfold strip
  rw [h.lstrip_mid, rstrip_eq_reverse]
  have hreverse : (lstrip p a ++ g ++ b).reverse = b.reverse ++ g.reverse ++
      (lstrip p a).reverse := by
    simp
  rw [hreverse, h.reverse.lstrip_mid]
  simp [rstrip_eq_reverse]

/-- A tight word is not part of a blank text, nor does it begin there. -/
theorem Tight.not_straddles_blank (h : Tight p g) (ha : Blank p a) : ¬ Straddles g a b := by
  rintro ⟨g₁, g₂, h₁, -, rfl, hsuffix, -⟩
  cases g₁ with
  | nil => exact h₁ rfl
  | cons c g₁ =>
      have hblank := ha c (hsuffix.subset List.mem_cons_self)
      rw [h.head rfl] at hblank
      cases hblank

theorem Tight.not_infix_blank (h : Tight p g) (ha : Blank p a) : ¬ g <:+: a := by
  intro hin
  cases g with
  | nil => exact h.ne_nil rfl
  | cons c g =>
      have hblank := ha c (hin.subset List.mem_cons_self)
      rw [h.head rfl] at hblank
      cases hblank

section Cut

variable [DecidableEq α]

theorem Tight.cut_strip (h : Tight p g) (hcut : cut g t = some (a, b)) :
    cut g (strip p t) = some (lstrip p a, rstrip p b) := by
  have ht := cut_eq_append hcut
  rw [ht] at hcut ⊢
  rw [h.strip_mid]
  exact cut_suffix hcut (lstrip_suffix p a) _

theorem cut_strip_none (hcut : cut g t = none) : cut g (strip p t) = none := by
  rw [cut_eq_none] at hcut ⊢
  exact fun hin => hcut (hin.trans (strip_isInfix p t))

end Cut

end SpecDecode
