import SpecDecode.Gateway.Tree
import SpecDecode.Lib.RadixTree
import Mathlib.Algebra.BigOperators.Group.Finset.Basic
import Mathlib.Data.Finset.Max

/-!
# The invariant of the gateway's tree

`Shape` says that the nodes are a radix tree, that the cached counts are right and that the
tenants of a node are tenants of its parent. The changes the operations are made of are
putting a tenant on a node, adding a leaf, splitting a node and taking a tenant off a leaf:
each keeps the shape, and its effect on what a tenant holds and on what it uses is said once.
-/

namespace SpecDecode.Gateway

open RadixTree

namespace Tree

def shape (t : Tree) (v : Nat) : RadixTree.Node Char Unit where
  parent := (t.nodes v).parent
  child c := (t.nodes v).children.lookup c
  label := (t.nodes v).text.text
  vals := (t.nodes v).text.text.map fun _ => ()

def Carries (t : Tree) (v : Nat) (tenant : String) : Prop :=
  tenant ∈ (t.nodes v).tenantLastAccessTime

/-- A tenant holds the beginnings of the paths to its nodes. -/
def Holds (t : Tree) (tenant : String) (p : List Char) : Prop :=
  ∃ v q, Spells t.shape root v q ∧ t.Carries v tenant ∧ p <+: q

def Leaf (t : Tree) (v : Nat) (tenant : String) : Prop :=
  t.Carries v tenant ∧ ∀ c w, (t.nodes v).children.lookup c = some w → ¬ t.Carries w tenant

/-- The characters of a node that count for the tenant. -/
def weight (t : Tree) (tenant : String) (v : Nat) : Nat :=
  if t.containsKey v tenant then (t.nodes v).text.charCount else 0

/-- The characters on the nodes with the tenant. -/
def used (t : Tree) (live : Finset Nat) (tenant : String) : Nat := ∑ v ∈ live, t.weight tenant v

def count (t : Tree) (tenant : String) : Nat := (t.tenantCharCount.lookup tenant).getD 0

structure Shape (t : Tree) (live : Finset Nat) : Prop where
  wf : Wf t.shape root live
  lt_next : ∀ v, v = root ∨ v ∈ live → v < t.next
  charCount : ∀ v, v = root ∨ v ∈ live → (t.nodes v).text.charCount = (t.nodes v).text.text.length
  closed : ∀ u c v x, u = root ∨ u ∈ live → (t.nodes u).children.lookup c = some v →
    t.Carries v x → t.Carries u x
  owned : ∀ v ∈ live, ∃ x, t.Carries v x
  live_of_carries : ∀ v x, t.Carries v x → v = root ∨ v ∈ live
  rootText : (t.nodes root).text.text = []
  rootParent : (t.nodes root).parent = none

structure Frame (t t' : Tree) : Prop where
  children v : (t'.nodes v).children = (t.nodes v).children
  text v : (t'.nodes v).text = (t.nodes v).text
  parent v : (t'.nodes v).parent = (t.nodes v).parent
  next : t'.next = t.next

variable {t t' : Tree} {live : Finset Nat} {u v w : Nat} {x y tenant : String} {o : Order}

theorem containsKey_iff : t.containsKey v x = true ↔ t.Carries v x := AList.lookup_isSome

theorem mem_kids : w ∈ t.kids o v ↔ ∃ c, (t.nodes v).children.lookup c = some w := by
  simp only [kids, List.mem_map]
  constructor
  · rintro ⟨⟨c, w'⟩, hmem, rfl⟩
    exact ⟨c, o.mem_iter.mp hmem⟩
  · rintro ⟨c, hc⟩
    exact ⟨⟨c, w⟩, o.mem_iter.mpr hc, rfl⟩

private theorem hasChildWithTenant_iff : t.hasChildWithTenant o v x = true ↔
    ∃ c w, (t.nodes v).children.lookup c = some w ∧ t.Carries w x := by
  simp only [hasChildWithTenant, List.any_eq_true, mem_kids, containsKey_iff]
  constructor
  · rintro ⟨w, ⟨c, hc⟩, hw⟩
    exact ⟨c, w, hc, hw⟩
  · rintro ⟨c, w, hc, hw⟩
    exact ⟨w, ⟨c, hc⟩, hw⟩

theorem leaf_iff : (t.containsKey v x && !t.hasChildWithTenant o v x) = true ↔ t.Leaf v x := by
  rw [Bool.and_eq_true, Bool.not_eq_true', Bool.eq_false_iff, Ne, hasChildWithTenant_iff,
    containsKey_iff]
  refine and_congr_right fun _ => ⟨fun h c w hc hw => h ⟨c, w, hc, hw⟩, ?_⟩
  rintro h ⟨c, w, hc, hw⟩
  exact h c w hc hw

theorem Frame.shape_eq (hf : Frame t t') : t'.shape = t.shape := by
  funext v
  simp only [shape, hf.children, hf.text, hf.parent]

namespace Shape

section

variable (h : t.Shape live)

include h

private theorem root_lt : root < t.next := h.lt_next root (.inl rfl)

theorem next_fresh : t.next ≠ root ∧ t.next ∉ live := by
  refine ⟨fun heq => ?_, fun hmem => ?_⟩
  · exact Nat.lt_irrefl _ (heq ▸ h.root_lt)
  · exact Nat.lt_irrefl _ (h.lt_next _ (.inr hmem))

theorem child {c : Char} (hu : u = root ∨ u ∈ live)
    (hc : (t.nodes u).children.lookup c = some v) : v ∈ live ∧ (t.nodes v).parent = some u ∧
      (t.nodes v).text.text.head? = some c := h.wf.child u c v hu hc

theorem congr (hf : Frame t t')
    (hclosed : ∀ u c v x, u = root ∨ u ∈ live → (t.nodes u).children.lookup c = some v →
      t'.Carries v x → t'.Carries u x) (howned : ∀ v ∈ live, ∃ x, t'.Carries v x)
    (hlive : ∀ v x, t'.Carries v x → v = root ∨ v ∈ live) : t'.Shape live where
  wf := by rw [hf.shape_eq]; exact h.wf
  lt_next v hv := by rw [hf.next]; exact h.lt_next v hv
  charCount v hv := by rw [hf.text]; exact h.charCount v hv
  closed u c v x hu hc := hclosed u c v x hu (by rwa [hf.children] at hc)
  owned := howned
  live_of_carries := hlive
  rootText := by rw [hf.text]; exact h.rootText
  rootParent := by rw [hf.parent]; exact h.rootParent

theorem carries_of_below (hu : u = root ∨ u ∈ live)
    (hv : Below t.shape u v) (hx : t.Carries v x) : t.Carries u x := by
  induction hv with
  | refl => exact hx
  | @tail v w hbelow hchild ih =>
      obtain ⟨c, hc⟩ := hchild
      exact ih (h.closed v c w x (h.wf.below_live hu hbelow) hc hx)

private theorem spells_child_lt {p q : List Char} {c : Char}
    (hp : Spells t.shape root u p) (hc : (t.nodes u).children.lookup c = some v)
    (hq : Spells t.shape root v q) : p.length < q.length := by
  have hv := (h.child (h.wf.spells_live hp) hc).1
  rw [h.wf.spells_unique hq (.child hp hc), List.length_append]
  have hpos := List.length_pos_of_ne_nil (h.wf.label_ne_nil hv)
  omega

theorem exists_leaf (hv : v = root ∨ v ∈ live) (hx : t.Carries v x) :
    ∃ w, (w = root ∨ w ∈ live) ∧ t.Leaf w x := by
  classical
  let all := Insert.insert root live
  have hpath : ∀ w ∈ all, ∃ p, Spells t.shape root w p := fun w hw =>
    h.wf.exists_spells (Finset.mem_insert.mp hw)
  choose! path hpath using hpath
  -- a node with the tenant that is deepest has no child with it
  obtain ⟨w, hw, hmax⟩ := (all.filter fun w => t.Carries w x).exists_max_image
    (fun w => (path w).length) ⟨v, Finset.mem_filter.mpr ⟨Finset.mem_insert.mpr hv, hx⟩⟩
  obtain ⟨hmem, hcarries⟩ := Finset.mem_filter.mp hw
  have hlive := Finset.mem_insert.mp hmem
  refine ⟨w, hlive, hcarries, fun c u hc hu => ?_⟩
  have humem : u ∈ all := Finset.mem_insert_of_mem (h.child hlive hc).1
  have hle := hmax u (Finset.mem_filter.mpr ⟨humem, hu⟩)
  have hlt := h.spells_child_lt (hpath w hmem) hc (hpath u humem)
  omega

end

end Shape

theorem weight_of_carries (h : t.Carries v x) : t.weight x v = (t.nodes v).text.charCount :=
  if_pos (containsKey_iff.mpr h)

theorem weight_of_not_carries (h : ¬ t.Carries v x) : t.weight x v = 0 :=
  if_neg fun hkey => h (containsKey_iff.mp hkey)

theorem weight_congr (hcarries : t'.Carries v x ↔ t.Carries v x)
    (htext : t.Carries v x → (t'.nodes v).text = (t.nodes v).text) :
    t'.weight x v = t.weight x v := by
  by_cases hx : t.Carries v x
  · rw [weight_of_carries hx, weight_of_carries (hcarries.mpr hx), htext hx]
  · rw [weight_of_not_carries hx, weight_of_not_carries (mt hcarries.mp hx)]

theorem sum_change {s : Finset Nat} {f g : Nat → Nat} (hv : v ∈ s)
    (h : ∀ w ∈ s, w ≠ v → g w = f w) : ∑ w ∈ s, g w + f v = ∑ w ∈ s, f w + g v := by
  have hrest : ∑ w ∈ s.erase v, g w = ∑ w ∈ s.erase v, f w := by
    refine Finset.sum_congr rfl fun w hw => ?_
    exact h w (Finset.mem_of_mem_erase hw) (Finset.ne_of_mem_erase hw)
  rw [← Finset.add_sum_erase s g hv, ← Finset.add_sum_erase s f hv, hrest]
  omega

structure Tagged (t t' : Tree) (v : Nat) (x : String) : Prop where
  frame : Frame t t'
  carries w y : t'.Carries w y ↔ t.Carries w y ∨ w = v ∧ y = x

theorem tagged_insertTime (t : Tree) (v : Nat) (x : String) (epoch : Nat) :
    Tagged t (t.insertTime v x epoch) v x := by
  refine ⟨⟨fun w => ?_, fun w => ?_, fun w => ?_, rfl⟩, fun w y => ?_⟩
  all_goals
    by_cases hw : w = v
    · subst hw
      simp [insertTime, modify, Carries, or_comm]
    · simp [insertTime, modify, Carries, hw]

namespace Tagged

variable (hs : Tagged t t' v x)

include hs

theorem shape (h : t.Shape live) (hv : v = root ∨ v ∈ live)
    (hparent : ∀ u c, (t.nodes u).children.lookup c = some v → u = root ∨ u ∈ live →
    t.Carries u x) : t'.Shape live := by
  refine h.congr hs.frame (fun u c w y hu hc hw => ?_) (fun w hw => ?_) (fun w y hw => ?_)
  · rw [hs.carries] at hw ⊢
    rcases hw with hw | ⟨rfl, rfl⟩
    · exact .inl (h.closed u c w y hu hc hw)
    · exact .inl (hparent u c hc hu)
  · obtain ⟨y, hy⟩ := h.owned w hw
    exact ⟨y, (hs.carries w y).mpr (.inl hy)⟩
  · rcases (hs.carries w y).mp hw with hw | ⟨rfl, rfl⟩
    · exact h.live_of_carries w y hw
    · exact hv

theorem holds_iff (h : t.Shape live) {p q : List Char} (hq : Spells t.shape root v q) :
    t'.Holds y p ↔ t.Holds y p ∨ y = x ∧ p <+: q := by
  simp only [Holds, hs.frame.shape_eq, hs.carries]
  constructor
  · rintro ⟨w, r, hw, hcarries | ⟨rfl, rfl⟩, hp⟩
    · exact .inl ⟨w, r, hw, hcarries, hp⟩
    · exact .inr ⟨rfl, h.wf.spells_unique hw hq ▸ hp⟩
  · rintro (⟨w, r, hw, hcarries, hp⟩ | ⟨rfl, hp⟩)
    · exact ⟨w, r, hw, .inl hcarries, hp⟩
    · exact ⟨v, q, hq, .inr ⟨rfl, rfl⟩, hp⟩

theorem used_of_carries (h : y = x → v ∈ live → t.Carries v x) :
    t'.used live y = t.used live y := by
  refine Finset.sum_congr rfl fun w hw => weight_congr ?_ fun _ => hs.frame.text w
  rw [hs.carries]
  refine ⟨fun hor => ?_, .inl⟩
  rcases hor with hcarries | ⟨rfl, rfl⟩
  · exact hcarries
  · exact h rfl hw

theorem used_new (hv : v ∈ live) (hx : ¬ t.Carries v x) :
    t'.used live x = t.used live x + (t.nodes v).text.charCount := by
  have hsum := sum_change (g := t'.weight x) (f := t.weight x) hv fun w _ hw =>
    weight_congr (by rw [hs.carries]; simp [hw]) fun _ => hs.frame.text w
  rw [weight_of_not_carries hx, weight_of_carries ((hs.carries v x).mpr (.inr ⟨rfl, rfl⟩)),
    hs.frame.text] at hsum
  exact hsum

end Tagged

end Tree

end SpecDecode.Gateway
