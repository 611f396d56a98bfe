import Mathlib.Algebra.Order.Ring.Int
import Mathlib.Data.Finset.Card
import Mathlib.Data.Finset.Image
import Mathlib.Data.Finset.SDiff
import Mathlib.Data.Multiset.AddSub
import Mathlib.Data.Set.Function
import Mathlib.Order.Interval.Finset.Nat

/-!
# Used slots and free pages

A pool has the pages `1, …, n`, and slot `x` lies on page `x / ps`. The book of a pool is right
if a page is free exactly as long as no slot of it is used. Two pools are paired by a map of
slots, zero where there is none, that keeps the offset of a slot and what lies on one page.
-/

namespace SpecDecode

structure Booked (ps n : Nat) (pages : Multiset Nat) (used : Finset Int) : Prop where
  nodup : pages.Nodup
  mem_iff : ∀ p : Nat, p ∈ pages ↔ (1 ≤ p ∧ p ≤ n) ∧ ∀ x ∈ used, x / ps ≠ (p : Int)
  page : ∀ x ∈ used, ∃ p : Nat, (1 ≤ p ∧ p ≤ n) ∧ x / ps = (p : Int)

def WholePages (ps : Nat) (used l : Finset Int) : Prop :=
  l ⊆ used ∧ ∀ x ∈ l, ∀ y ∈ used, y / ps = x / ps → y ∈ l

instance (ps : Nat) (used l : Finset Int) : Decidable (WholePages ps used l) :=
  inferInstanceAs (Decidable (_ ∧ _))

/-- The map `m` pairs used slots of one pool with all used slots of the other. -/
structure Paired (ps : Nat) (m : Int → Int) (used used' : Finset Int) : Prop where
  held : ∀ x, 0 ≤ x → m x ≠ 0 → x ∈ used
  image : ∀ y, y ∈ used' ↔ ∃ x ∈ used, m x ≠ 0 ∧ m x = y
  offset : ∀ x ∈ used, m x ≠ 0 → m x % ps = x % ps
  page : ∀ x ∈ used, ∀ y ∈ used, m x ≠ 0 → m y ≠ 0 → (m x / ps = m y / ps ↔ x / ps = y / ps)

namespace Booked

variable {ps n : Nat} {pages rest taken : Multiset Nat} {used out l : Finset Int}

theorem new (ps n : Nat) : Booked ps n (List.range' 1 n : List Nat) ∅ where
  nodup := Multiset.coe_nodup.mpr List.nodup_range'
  mem_iff p := by
    rw [Multiset.mem_coe, List.mem_range'_1]
    simp only [Finset.notMem_empty, false_implies, implies_true, and_true]
    omega
  page x hx := absurd hx (Finset.notMem_empty x)

theorem pos (h : Booked ps n pages used) {x : Int} (hx : x ∈ used) : 0 < x := by
  obtain ⟨p, hp, hpage⟩ := h.page x hx
  rcases Nat.eq_zero_or_pos ps with rfl | hps
  · rw [Int.natCast_zero, Int.ediv_zero] at hpage
    omega
  · have hle := (Int.le_ediv_iff_mul_le (Int.natCast_pos.mpr hps)).mp hpage.ge
    have hmul := Int.mul_pos (Int.natCast_pos.mpr hp.1) (Int.natCast_pos.mpr hps)
    omega

/-- Pages that are taken have new slots on them, and new slots lie on these or on used pages. -/
theorem take (h : Booked ps n pages used) (hsplit : pages = taken + rest)
    (htaken : ∀ p ∈ taken, ∃ x ∈ out, x / ps = (p : Int))
    (hout : ∀ x ∈ out, (∃ y ∈ used, y / ps = x / ps) ∨ ∃ p ∈ taken, x / ps = (p : Int)) :
    Booked ps n rest (used ∪ out) := by
  have hnodup := h.nodup
  rw [hsplit] at hnodup
  obtain ⟨-, hrest, hdisjoint⟩ := Multiset.nodup_add.mp hnodup
  have hsub : ∀ p, p ∈ taken ∨ p ∈ rest ↔ p ∈ pages := fun p => by rw [hsplit, Multiset.mem_add]
  refine ⟨hrest, fun p => ⟨fun hp => ?_, fun ⟨hbound, hfree⟩ => ?_⟩, fun x hx => ?_⟩
  · obtain ⟨hbound, hfree⟩ := (h.mem_iff p).mp ((hsub p).mp (.inr hp))
    refine ⟨hbound, fun x hx hpage => ?_⟩
    rcases Finset.mem_union.mp hx with hx | hx
    · exact hfree x hx hpage
    · rcases hout x hx with ⟨y, hy, hsame⟩ | ⟨q, hq, hsame⟩
      · exact hfree y hy (hsame.trans hpage)
      · obtain rfl : q = p := Int.ofNat_inj.mp (hsame.symm.trans hpage)
        exact Multiset.disjoint_left.mp hdisjoint hq hp
  · have hp := (h.mem_iff p).mpr ⟨hbound, fun x hx => hfree x (Finset.mem_union_left _ hx)⟩
    refine ((hsub p).mpr hp).resolve_left fun htake => ?_
    obtain ⟨x, hx, hpage⟩ := htaken p htake
    exact hfree x (Finset.mem_union_right _ hx) hpage
  · rcases Finset.mem_union.mp hx with hx | hx
    · exact h.page x hx
    · rcases hout x hx with ⟨y, hy, hsame⟩ | ⟨q, hq, hsame⟩
      · obtain ⟨p, hp, hpage⟩ := h.page y hy
        exact ⟨p, hp, hsame.symm.trans hpage⟩
      · exact ⟨q, ((h.mem_iff q).mp ((hsub q).mp (.inl hq))).1, hsame⟩

theorem give (h : Booked ps n pages used) (hl : WholePages ps used l) (hnodup : taken.Nodup)
    (hmem : ∀ p : Nat, p ∈ taken ↔ ∃ x ∈ l, x / ps = (p : Int)) :
    Booked ps n (pages + taken) (used \ l) := by
  have hfreed : ∀ p ∈ taken, (1 ≤ p ∧ p ≤ n) ∧ p ∉ pages := fun p hp => by
    obtain ⟨x, hx, hpage⟩ := (hmem p).mp hp
    obtain ⟨q, hq, hpage'⟩ := h.page x (hl.1 hx)
    obtain rfl : q = p := Int.ofNat_inj.mp (hpage'.symm.trans hpage)
    exact ⟨hq, fun hfree => ((h.mem_iff q).mp hfree).2 x (hl.1 hx) hpage⟩
  refine ⟨Multiset.nodup_add.mpr ⟨h.nodup, hnodup, Multiset.disjoint_left.mpr fun hp hp' => ?_⟩,
    fun p => ⟨fun hp => ?_, fun ⟨hbound, hfree⟩ => ?_⟩, fun x hx => ?_⟩
  · exact (hfreed _ hp').2 hp
  · rcases Multiset.mem_add.mp hp with hp | hp
    · obtain ⟨hbound, hfree⟩ := (h.mem_iff p).mp hp
      exact ⟨hbound, fun x hx => hfree x (Finset.mem_sdiff.mp hx).1⟩
    · refine ⟨(hfreed p hp).1, fun y hy hpage => ?_⟩
      obtain ⟨x, hx, hpage'⟩ := (hmem p).mp hp
      obtain ⟨hy, hnot⟩ := Finset.mem_sdiff.mp hy
      exact hnot (hl.2 x hx y hy (hpage.trans hpage'.symm))
  · by_cases htaken : p ∈ taken
    · exact Multiset.mem_add.mpr (.inr htaken)
    · refine Multiset.mem_add.mpr (.inl ((h.mem_iff p).mpr ⟨hbound, fun x hx hpage => ?_⟩))
      by_cases hxl : x ∈ l
      · exact htaken ((hmem p).mpr ⟨x, hxl, hpage⟩)
      · exact hfree x (Finset.mem_sdiff.mpr ⟨hx, hxl⟩) hpage
  · exact h.page x (Finset.mem_sdiff.mp hx).1

theorem card (h : Booked ps n pages used) :
    Multiset.card pages + (used.image (· / (ps : Int))).card = n := by
  have hcast : (pages.toFinset.image ((↑) : Nat → Int)).card = Multiset.card pages := by
    rw [Finset.card_image_of_injective _ Nat.cast_injective,
      Multiset.toFinset_card_of_nodup h.nodup]
  have hdisjoint : Disjoint (pages.toFinset.image ((↑) : Nat → Int))
      (used.image (· / (ps : Int))) := by
    rw [Finset.disjoint_left]
    intro y hy hy'
    obtain ⟨p, hp, rfl⟩ := Finset.mem_image.mp hy
    obtain ⟨x, hx, hpage⟩ := Finset.mem_image.mp hy'
    exact ((h.mem_iff p).mp (Multiset.mem_toFinset.mp hp)).2 x hx hpage
  have hall : pages.toFinset.image ((↑) : Nat → Int) ∪ used.image (· / (ps : Int)) =
      (Finset.Icc 1 n).image ((↑) : Nat → Int) := by
    ext y
    simp only [Finset.mem_union, Finset.mem_image, Multiset.mem_toFinset, Finset.mem_Icc]
    constructor
    · rintro (⟨p, hp, rfl⟩ | ⟨x, hx, rfl⟩)
      · exact ⟨p, ((h.mem_iff p).mp hp).1, rfl⟩
      · obtain ⟨p, hp, hpage⟩ := h.page x hx
        exact ⟨p, hp, hpage.symm⟩
    · rintro ⟨p, hp, rfl⟩
      by_cases hused : ∃ x ∈ used, x / (ps : Int) = p
      · exact .inr hused
      · exact .inl ⟨p, (h.mem_iff p).mpr ⟨hp, fun x hx hpage => hused ⟨x, hx, hpage⟩⟩, rfl⟩
  rw [← hcast, ← Finset.card_union_of_disjoint hdisjoint, hall,
    Finset.card_image_of_injective _ Nat.cast_injective, Nat.card_Icc, Nat.add_sub_cancel]

end Booked

namespace Paired

variable {ps : Nat} {m m' : Int → Int} {used used' out l : Finset Int} {x y : Int}

theorem new (ps : Nat) (h : ∀ x, 0 ≤ x → m x = 0) : Paired ps m ∅ ∅ where
  held x hx hne := absurd (h x hx) hne
  image y := by simp
  offset x hx := absurd hx (Finset.notMem_empty x)
  page x hx := absurd hx (Finset.notMem_empty x)

theorem eq_of_div_mod {x y p : Int} (hdiv : x / p = y / p) (hmod : x % p = y % p) : x = y := by
  rw [← Int.mul_ediv_add_emod x p, ← Int.mul_ediv_add_emod y p, hdiv, hmod]

section

variable (h : Paired ps m used used')

include h

theorem inj (hx : x ∈ used) (hy : y ∈ used) (hne : m x ≠ 0) (heq : m x = m y) : x = y := by
  have hne' : m y ≠ 0 := heq ▸ hne
  refine eq_of_div_mod ((h.page x hx y hy hne hne').mp (by rw [heq])) ?_
  rw [← h.offset x hx hne, ← h.offset y hy hne', heq]

theorem injOn : Set.InjOn m (fun x => 0 ≤ x ∧ m x ≠ 0) :=
  fun x hx y hy heq => h.inj (h.held x hx.1 hx.2) (h.held y hy.1 hy.2) hx.2 heq

/-- The last used slot of a page is paired with the last one of the other page. -/
theorem last (hx : x ∈ used) (hne : m x ≠ 0)
    (hlast : ∀ y ∈ used, y / ps = x / ps → y ≤ x) (y : Int) (hy : y ∈ used')
    (hpage : y / ps = m x / ps) : y ≤ m x := by
  obtain ⟨z, hz, hne', rfl⟩ := (h.image y).mp hy
  have hpage' := (h.page z hz x hx hne' hne).mp hpage
  have hle := hlast z hz hpage'
  rw [← Int.mul_ediv_add_emod z ps, ← Int.mul_ediv_add_emod x ps, hpage'] at hle
  rw [← Int.mul_ediv_add_emod (m z) ps, ← Int.mul_ediv_add_emod (m x) ps, hpage,
    h.offset z hz hne', h.offset x hx hne]
  omega

theorem extend (hout : ∀ x ∈ out, m' x ≠ 0)
    (hsame : ∀ x, x ∉ out → m' x = m x) (hfresh : ∀ x ∈ out, x ∉ used)
    (hoffset : ∀ x ∈ out, m' x % ps = x % ps)
    (hpage : ∀ x ∈ out, ∀ y ∈ out, m' x / ps = m' y / ps ↔ x / ps = y / ps)
    (hold : ∀ x ∈ out, ∀ y ∈ used, m y ≠ 0 → (m' x / ps = m y / ps ↔ x / ps = y / ps)) :
    Paired ps m' (used ∪ out) ( used' ∪ out.image m') := by
  have hkeep : ∀ x ∈ used, m' x = m x := fun x hx => hsame x fun hx' => hfresh x hx' hx
  refine ⟨fun x hx hne => ?_, fun y => ?_, fun x hx hne => ?_, fun x hx y hy hne hne' => ?_⟩
  · by_cases hxout : x ∈ out
    · exact Finset.mem_union_right _ hxout
    · exact Finset.mem_union_left _ (h.held x hx (hsame x hxout ▸ hne))
  · rw [Finset.mem_union, Finset.mem_image, h.image]
    constructor
    · rintro (⟨x, hx, hne, rfl⟩ | ⟨x, hx, rfl⟩)
      · exact ⟨x, Finset.mem_union_left _ hx, hkeep x hx ▸ hne, hkeep x hx⟩
      · exact ⟨x, Finset.mem_union_right _ hx, hout x hx, rfl⟩
    · rintro ⟨x, hx, hne, rfl⟩
      rcases Finset.mem_union.mp hx with hx | hx
      · exact .inl ⟨x, hx, hkeep x hx ▸ hne, (hkeep x hx).symm⟩
      · exact .inr ⟨x, hx, rfl⟩
  · rcases Finset.mem_union.mp hx with hx | hx
    · rw [hkeep x hx] at hne ⊢
      exact h.offset x hx hne
    · exact hoffset x hx
  · rcases Finset.mem_union.mp hx with hx | hx <;> rcases Finset.mem_union.mp hy with hy | hy
    · rw [hkeep x hx] at hne ⊢
      rw [hkeep y hy] at hne' ⊢
      exact h.page x hx y hy hne hne'
    · rw [hkeep x hx] at hne ⊢
      rw [eq_comm, hold y hy x hx hne, eq_comm]
    · rw [hkeep y hy] at hne' ⊢
      exact hold x hx y hy hne'
    · exact hpage x hx y hy

/-- Slots lose their partners, and some of them are given back themselves. -/
theorem erase {left : Finset Int} (hl : l ⊆ used)
    (hpos : ∀ y ∈ used', 0 < y) (hzero : ∀ x ∈ l, m' x = 0) (hsame : ∀ x, x ∉ l → m' x = m x)
    (hsub : left ⊆ used) (hleft : used \ l ⊆ left) :
    Paired ps m' left ( used' \ (l.image m).filter (0 < ·)) := by
  have hkept : ∀ x, m' x ≠ 0 → x ∉ l ∧ m' x = m x := fun x hne => by
    have hx : x ∉ l := fun hx => hne (hzero x hx)
    exact ⟨hx, hsame x hx⟩
  refine ⟨fun x hx hne => ?_, fun y => ?_, fun x hx hne => ?_, fun x hx y hy hne hne' => ?_⟩
  · obtain ⟨hxl, heq⟩ := hkept x hne
    exact hleft (Finset.mem_sdiff.mpr ⟨h.held x hx (heq ▸ hne), hxl⟩)
  · rw [Finset.mem_sdiff, Finset.mem_filter, Finset.mem_image, h.image]
    constructor
    · rintro ⟨⟨x, hx, hne, rfl⟩, hnot⟩
      have hxl : x ∉ l := fun hxl =>
        hnot ⟨⟨x, hxl, rfl⟩, hpos _ ((h.image _).mpr ⟨x, hx, hne, rfl⟩)⟩
      exact ⟨x, hleft (Finset.mem_sdiff.mpr ⟨hx, hxl⟩), hsame x hxl ▸ hne, hsame x hxl⟩
    · rintro ⟨x, hx, hne, rfl⟩
      obtain ⟨hxl, heq⟩ := hkept x hne
      rw [heq] at hne ⊢
      refine ⟨⟨x, hsub hx, hne, rfl⟩, ?_⟩
      rintro ⟨⟨z, hz, hzeq⟩, -⟩
      exact hxl (h.inj (hl hz) (hsub hx) (hzeq ▸ hne) hzeq ▸ hz)
  · obtain ⟨-, heq⟩ := hkept x hne
    rw [heq] at hne ⊢
    exact h.offset x (hsub hx) hne
  · have hx' := (hkept x hne).2
    have hy' := (hkept y hne').2
    rw [hx'] at hne ⊢
    rw [hy'] at hne' ⊢
    exact h.page x (hsub hx) y (hsub hy) hne hne'

theorem wholePages (hl : WholePages ps used l)
    (hpos : ∀ y ∈ used', 0 < y) : WholePages ps used' ((l.image m).filter (0 < ·)) := by
  have hmem : ∀ y, y ∈ (l.image m).filter (0 < ·) ↔ ∃ x ∈ l, m x = y ∧ 0 < y := fun y => by
    rw [Finset.mem_filter, Finset.mem_image]
    exact ⟨fun ⟨⟨x, hx, heq⟩, hy⟩ => ⟨x, hx, heq, hy⟩, fun ⟨x, hx, heq, hy⟩ => ⟨⟨x, hx, heq⟩, hy⟩⟩
  constructor
  · intro y hy
    obtain ⟨x, hx, rfl, hne⟩ := (hmem y).mp hy
    exact (h.image _).mpr ⟨x, hl.1 hx, hne.ne', rfl⟩
  · intro y hy z hz hpage
    obtain ⟨x, hx, rfl, hne⟩ := (hmem y).mp hy
    obtain ⟨w, hw, hne', rfl⟩ := (h.image z).mp hz
    have hsame := (h.page w hw x (hl.1 hx) hne' hne.ne').mp hpage
    exact (hmem _).mpr ⟨w, hl.2 x hx w hw hsame, rfl, hpos _ hz⟩

end

end Paired

end SpecDecode
