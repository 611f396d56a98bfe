import Mathlib.Data.List.Infix
import Mathlib.Data.List.TakeDrop

/-!
# First occurrences of a word

`cut g t` splits a list at the first occurrence of the word `g`. It depends on a prefix of
the list only: text behind an occurrence does not move it, and text in front of it does not
either, unless an occurrence begins there. `Straddles g x z` says that one crosses the
border between `x` and `z`.
-/

namespace SpecDecode

variable {α : Type}

/-- A word begins in `x` and ends in `z`. -/
def Straddles (g x z : List α) : Prop :=
  ∃ g₁ g₂, g₁ ≠ [] ∧ g₂ ≠ [] ∧ g = g₁ ++ g₂ ∧ g₁ <:+ x ∧ g₂ <+: z

variable {g t x y z : List α}

theorem Straddles.cons {a : α} (h : Straddles g x z) : Straddles g (a :: x) z := by
  obtain ⟨g₁, g₂, h₁, h₂, heq, hx, hz⟩ := h
  exact ⟨g₁, g₂, h₁, h₂, heq, hx.trans (List.suffix_cons a x), hz⟩

/-- A word that begins at the head of `x ++ z` lies in `x` or straddles the border. -/
theorem starts_append (hx : x ≠ []) (h : g <+: x ++ z) : g <+: x ∨ Straddles g x z := by
  rcases Nat.le_total g.length x.length with hle | hle
  · exact .inl (List.prefix_of_prefix_length_le h (List.prefix_append x z) hle)
  · obtain ⟨g₂, rfl⟩ := List.prefix_of_prefix_length_le (List.prefix_append x z) h hle
    by_cases hg₂ : g₂ = []
    · exact .inl (by rw [hg₂, List.append_nil])
    · exact .inr ⟨x, g₂, hx, hg₂, rfl, List.suffix_refl x,
        (List.prefix_append_right_inj x).mp h⟩

theorem straddles_iff : Straddles g x z ↔
    ∃ k ∈ List.range g.length, 0 < k ∧ g.take k <:+ x ∧ g.drop k <+: z := by
  constructor
  · rintro ⟨g₁, g₂, h₁, h₂, rfl, hx, hz⟩
    have hpos₁ := List.length_pos_iff.mpr h₁
    have hpos₂ := List.length_pos_iff.mpr h₂
    refine ⟨g₁.length, ?_, hpos₁, ?_, ?_⟩
    · rw [List.mem_range, List.length_append]
      omega
    · rwa [List.take_left]
    · rwa [List.drop_left]
  · rintro ⟨k, hk, hpos, hx, hz⟩
    have hk := List.mem_range.mp hk
    refine ⟨g.take k, g.drop k, ?_, ?_, (List.take_append_drop k g).symm, hx, hz⟩
    · exact List.length_pos_iff.mp (by rw [List.length_take]; omega)
    · exact List.length_pos_iff.mp (by rw [List.length_drop]; omega)

variable [DecidableEq α]

instance (g x z : List α) : Decidable (Straddles g x z) := decidable_of_iff _ straddles_iff.symm

def cut (g : List α) : List α → Option (List α × List α)
  | [] => if g = [] then some ([], []) else none
  | a :: t =>
      if g <+: a :: t then some ([], (a :: t).drop g.length)
      else (cut g t).map fun p => (a :: p.1, p.2)

theorem cut_of_starts (h : g <+: t) : cut g t = some ([], t.drop g.length) := by
  cases t with
  | nil =>
      rw [List.prefix_nil] at h
      simp [cut, h]
  | cons a t => simp [cut, h]

theorem cut_cons_of_not {a : α} (h : ¬ g <+: a :: t) :
    cut g (a :: t) = (cut g t).map fun p => (a :: p.1, p.2) := by
  simp [cut, h]

theorem cut_eq_append (h : cut g t = some (x, y)) : t = x ++ g ++ y := by
  induction t generalizing x with
  | nil =>
      unfold cut at h
      split at h
      · next hg =>
          cases h
          simp [hg]
      · cases h
  | cons a t ih =>
      by_cases hpre : g <+: a :: t
      · rw [cut_of_starts hpre] at h
        cases h
        rw [List.nil_append]
        exact (List.prefix_append_drop hpre)
      · rw [cut_cons_of_not hpre, Option.map_eq_some_iff] at h
        obtain ⟨⟨x', y'⟩, hcut, heq⟩ := h
        cases heq
        rw [ih hcut]
        rfl

theorem cut_eq_none : cut g t = none ↔ ¬ g <:+: t := by
  induction t with
  | nil => by_cases hg : g = [] <;> simp [cut, hg]
  | cons a t ih =>
      by_cases hpre : g <+: a :: t
      · simp [cut_of_starts hpre, hpre.isInfix]
      · rw [cut_cons_of_not hpre, Option.map_eq_none_iff, ih, List.infix_cons_iff]
        simp [hpre]

theorem cut_isSome : (cut g t).isSome ↔ g <:+: t := by
  rw [← not_iff_not, Bool.not_eq_true, Option.isSome_eq_false_iff, Option.isNone_iff_eq_none,
    cut_eq_none]

theorem cut_append_right (h : cut g t = some (x, y)) (z : List α) :
    cut g (t ++ z) = some (x, y ++ z) := by
  induction t generalizing x with
  | nil =>
      unfold cut at h
      split at h
      · next hg =>
          cases h
          rw [hg]
          exact cut_of_starts List.nil_prefix
      · cases h
  | cons a t ih =>
      by_cases hpre : g <+: a :: t
      · rw [cut_of_starts hpre] at h
        cases h
        rw [cut_of_starts (hpre.trans (List.prefix_append _ z)),
          List.drop_append_of_le_length hpre.length_le]
      · rw [cut_cons_of_not hpre, Option.map_eq_some_iff] at h
        obtain ⟨⟨x', y'⟩, hcut, heq⟩ := h
        cases heq
        have hlen : g.length ≤ (a :: t).length :=
          Nat.le_succ_of_le (cut_isSome.mp (by rw [hcut]; rfl)).length_le
        have hpre' : ¬ g <+: a :: (t ++ z) := fun hlong => hpre
          (List.prefix_of_prefix_length_le hlong (List.prefix_append (a :: t) z) hlen)
        rw [List.cons_append, cut_cons_of_not hpre', ih hcut]
        rfl

theorem cut_append_left (hx : ¬ g <:+: x) (hcross : ¬ Straddles g x z) :
    cut g (x ++ z) = (cut g z).map fun p => (x ++ p.1, p.2) := by
  induction x with
  | nil => simp
  | cons a x ih =>
      have hstart : ¬ g <+: a :: (x ++ z) := by
        intro hpre
        rcases starts_append (List.cons_ne_nil a x) hpre with hin | hout
        · exact hx hin.isInfix
        · exact hcross hout
      rw [List.cons_append, cut_cons_of_not hstart,
        ih (fun h => hx (h.trans (List.suffix_cons a x).isInfix)) (fun h => hcross h.cons),
        Option.map_map]
      rfl

theorem not_infix_append (hx : ¬ g <:+: x) (hz : ¬ g <:+: z)
    (hcross : ¬ Straddles g x z) : ¬ g <:+: x ++ z := by
  rw [← cut_eq_none] at hz ⊢
  rw [cut_append_left hx hcross, hz]
  rfl

/-- The first occurrence is found from any later start, and whatever follows it. -/
theorem cut_suffix (h : cut g (x ++ g ++ y) = some (x, y)) {x' : List α} (hx : x' <:+ x)
    (y' : List α) : cut g (x' ++ g ++ y') = some (x', y') := by
  induction x generalizing x' with
  | nil =>
      rw [List.suffix_nil.mp hx, List.nil_append]
      rw [cut_of_starts (List.prefix_append g y'), List.drop_left]
  | cons a x ih =>
      have hnot (v : List α) : ¬ g <+: a :: (x ++ g ++ v) := by
        intro hpre
        have hlen : g.length ≤ (a :: x ++ g).length := by
          rw [List.length_append]
          exact Nat.le_add_left ..
        have hshort := List.prefix_of_prefix_length_le hpre
          (List.prefix_append (a :: x ++ g) v) hlen
        rw [cut_of_starts (hshort.trans (List.prefix_append _ y))] at h
        cases h
      have htail : cut g (x ++ g ++ y) = some (x, y) := by
        have hcons := h
        rw [List.cons_append, List.cons_append, cut_cons_of_not (hnot y),
          Option.map_eq_some_iff] at hcons
        obtain ⟨⟨x₀, y₀⟩, hcut, heq⟩ := hcons
        cases heq
        exact hcut
      rcases List.suffix_cons_iff.mp hx with rfl | hx
      · rw [List.cons_append, List.cons_append, cut_cons_of_not (hnot y'),
          ih htail (List.suffix_refl x)]
        rfl
      · exact ih htail hx

end SpecDecode
