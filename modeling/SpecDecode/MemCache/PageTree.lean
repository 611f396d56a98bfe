import SpecDecode.Lib.RadixTree
import SpecDecode.MemCache.RadixCache
import Mathlib.Algebra.BigOperators.Group.Finset.Basic
import Mathlib.Algebra.Order.BigOperators.Group.Finset

/-!
# Page trees

What the tree caches share: nodes with a key, a value, a parent and children by the first
page of their keys. `Paged` says that such nodes form a radix tree over whole pages. It is
kept when a node is split, a leaf is added or removed and a value is replaced; each cache
shows that its own code changes its nodes in one of these ways.
-/

namespace SpecDecode.MemCache

open Function RadixTree

variable {σ : Type}

@[simp] theorem lookup_setChild (key : ChildKey) (node : Nat) (children : List (ChildKey × Nat))
    (a : ChildKey) : (setChild key node children).lookup a =
      if a = key then some node else children.lookup a := by
  induction children with
  | nil =>
      by_cases ha : a = key
      · simp [setChild, ha]
      · have hne : (a == key) = false := beq_eq_false_iff_ne.mpr ha
        simp [setChild, List.lookup_cons, hne, ha]
  | cons entry rest ih =>
      obtain ⟨key', node'⟩ := entry
      unfold setChild
      by_cases hkey : key' = key
      · subst hkey
        by_cases ha : a = key'
        · simp [ha]
        · have hne : (a == key') = false := beq_eq_false_iff_ne.mpr ha
          simp [List.lookup_cons, hne, ha]
      · rw [if_neg hkey, List.lookup_cons, List.lookup_cons, ih]
        by_cases ha : a = key'
        · subst ha
          simp [hkey]
        · have hne : (a == key') = false := beq_eq_false_iff_ne.mpr ha
          simp [hne]

@[simp] theorem lookup_popChild (key : ChildKey) (children : List (ChildKey × Nat)) (a : ChildKey) :
    (popChild key children).lookup a = if a = key then none else children.lookup a := by
  induction children with
  | nil => simp [popChild]
  | cons entry rest ih =>
      obtain ⟨key', node'⟩ := entry
      unfold popChild at ih ⊢
      by_cases hkey : key' = key
      · subst hkey
        rw [List.filter_cons_of_neg (by simp), ih]
        by_cases ha : a = key'
        · simp [ha]
        · have hne : (a == key') = false := beq_eq_false_iff_ne.mpr ha
          simp [List.lookup_cons, hne]
      · rw [List.filter_cons_of_pos (by simpa using hkey), List.lookup_cons, List.lookup_cons, ih]
        by_cases ha : a = key'
        · subst ha
          simp [hkey]
        · have hne : (a == key') = false := beq_eq_false_iff_ne.mpr ha
          simp [hne]

theorem children_eq_nil_iff {children : List (ChildKey × Nat)} :
    children = [] ↔ ∀ a, children.lookup a = none := by
  cases children with
  | nil => simp
  | cons entry rest =>
      simp only [reduceCtorEq, false_iff, not_forall]
      exact ⟨entry.1, by simp⟩

theorem setChild_ne_nil (key : ChildKey) (node : Nat) (children : List (ChildKey × Nat)) :
    setChild key node children ≠ [] := by
  intro hnil
  have hlookup := lookup_setChild key node children key
  simp [hnil] at hlookup

structure PageNode (σ : Type) where
  children : List (ChildKey × Nat)
  parent : Option Nat
  key : RadixKey
  value : List σ

namespace PageTree

variable {ps root counter u child new n x v : Nat} {t t' : Nat → PageNode σ}
variable {live : Finset Nat} {key : RadixKey} {value : List σ}

/-- The tree the nodes make up, with pages as symbols. -/
def view (ps : Nat) (t : Nat → PageNode σ) (v : Nat) : Node ChildKey (List σ) where
  parent := (t v).parent
  child a := (t v).children.lookup a
  label := (t v).key.syms ps
  vals := pages ps (t v).value

/-- The nodes of `live` form a radix tree below `root`, and numbers from `counter` on are
free. -/
structure Paged (ps : Nat) (t : Nat → PageNode σ) (root counter : Nat) (live : Finset Nat) :
    Prop where
  wf : Wf (view ps t) root live
  fresh : ∀ v, v = root ∨ v ∈ live → v < counter
  aligned : ∀ v ∈ live, (t v).key.Aligned ps
  values : ∀ v ∈ live, (t v).value.length = (t v).key.len

/-- The slots the tree owns. -/
def slots (t : Nat → PageNode σ) (live : Finset Nat) : Multiset σ :=
  ∑ v ∈ live, ((t v).value : Multiset σ)

def PagesOk (P : List σ → Prop) (ps : Nat) (t : Nat → PageNode σ) (live : Finset Nat) : Prop :=
  ∀ v ∈ live, ∀ b ∈ pages ps (t v).value, P b

namespace Paged

theorem counter_fresh (h : Paged ps t root counter live) : counter ≠ root ∧ counter ∉ live :=
  ⟨(Nat.ne_of_lt (h.fresh _ (.inl rfl))).symm, fun hmem => Nat.lt_irrefl _ (h.fresh _ (.inr hmem))⟩

theorem ne_counter (h : Paged ps t root counter live) (hv : v = root ∨ v ∈ live) : v ≠ counter :=
  Nat.ne_of_lt (h.fresh v hv)

theorem key_pos (hps : 0 < ps) (h : Paged ps t root counter live) (hv : v ∈ live) :
    0 < (t v).key.len := by
  have hlabel : (t v).key.syms ps ≠ [] := h.wf.label_ne_nil hv
  rw [← (h.aligned v hv).len_eq]
  exact Nat.mul_pos (List.length_pos_of_ne_nil hlabel) hps

/-- A node hangs below its parent under its own child key. -/
theorem parent_lookup (hps : 0 < ps) (h : Paged ps t root counter live) (hv : v ∈ live) :
    ∃ u, (u = root ∨ u ∈ live) ∧ (t v).parent = some u ∧ u ≠ v ∧
      (t u).children.lookup ((t v).key.childKey ps) = some v := by
  obtain ⟨u, a, hu, hparent, hchild⟩ := h.wf.parent v hv
  have hhead : ((t v).key.syms ps).head? = some a := (h.wf.child u a v hu hchild).2.2
  rw [RadixKey.head?_syms hps (h.aligned v hv) (h.key_pos hps hv)] at hhead
  refine ⟨u, hu, hparent, ?_, Option.some.inj hhead ▸ hchild⟩
  rintro rfl
  exact h.wf.parent_ne hv hparent

theorem child_step (hps : 0 < ps) (h : Paged ps t root counter live)
    (hu : u = root ∨ u ∈ live) (hkey : key.Aligned ps) (hpos : 0 < key.len)
    (hlookup : (t u).children.lookup (key.childKey ps) = some child) :
    child ∈ live ∧ (key.syms ps).head? = some (key.childKey ps) ∧
      0 < commonPrefixLen ((t child).key.syms ps) (key.syms ps) ∧
      (t child).key.matchLen key ps =
        commonPrefixLen ((t child).key.syms ps) (key.syms ps) * ps := by
  obtain ⟨hchild, _, hhead⟩ := h.wf.child _ _ _ hu hlookup
  have haligned := h.aligned child hchild
  have hpos' := h.key_pos hps hchild
  have hsyms := RadixKey.head?_syms hps hkey hpos
  have hhead' : ((t child).key.syms ps).head? = some (key.childKey ps) := hhead
  rw [RadixKey.head?_syms hps haligned hpos'] at hhead'
  obtain ⟨hkind, hextra⟩ := RadixKey.isBigram_eq_of_childKey hps hpos' hpos (Option.some.inj hhead')
  refine ⟨hchild, hsyms, ?_, RadixKey.matchLen_eq hps haligned hkey hkind hextra⟩
  obtain ⟨ys, hys⟩ := List.head?_eq_some_iff.mp hhead
  obtain ⟨zs, hzs⟩ := List.head?_eq_some_iff.mp hsyms
  have hys : (t child).key.syms ps = key.childKey ps :: ys := hys
  rw [hys, hzs, commonPrefixLen, if_pos rfl]
  exact Nat.succ_pos _

/-- The first pages of a node make up the beginning of its values. -/
theorem flatten_take_vals (h : Paged ps t root counter live) (hv : v ∈ live)
    (hn : n ≤ ((t v).key.syms ps).length) :
    ((view ps t v).vals.take n).flatten = (t v).value.take (n * ps) := by
  have hmul := Nat.mul_le_mul_right ps hn
  rw [(h.aligned v hv).len_eq, ← h.values v hv] at hmul
  change ((pages ps (t v).value).take n).flatten = _
  rw [← pages_take]
  apply flatten_pages
  exact ⟨n, by rw [List.length_take, Nat.min_eq_left hmul, Nat.mul_comm]⟩

/-- Nothing is stored any further where a search stops. -/
theorem longest_nil (hps : 0 < ps) (h : Paged ps t root counter live) {q : List ChildKey}
    (hq : Spells (view ps t) root u q) (hkey : key.Aligned ps)
    (hstop : 0 < key.len → (t u).children.lookup (key.childKey ps) = none) :
    Longest (view ps t) root q (key.syms ps) [] := by
  apply Longest.of_no_child h.wf hq
  intro a ha
  have hpos : 0 < key.len := by
    by_contra hzero
    simp [RadixKey.syms_eq_nil (Nat.eq_zero_of_not_pos hzero)] at ha
  rw [RadixKey.head?_syms hps hkey hpos] at ha
  exact Option.some.inj ha ▸ hstop hpos

theorem chain_length (h : Paged ps t root counter live) {l : List Nat}
    (hl : RadixTree.Chain (view ps t) root v l) (hv : v = root ∨ v ∈ live) :
    l.length ≤ counter := by
  rw [← List.toFinset_card_of_nodup hl.nodup, ← Finset.card_range counter]
  apply Finset.card_le_card
  intro w hw
  have hlive := h.wf.chain_live hl hv w (List.mem_toFinset.mp hw)
  exact Finset.mem_range.mpr (h.fresh w (.inr hlive))

end Paged

theorem sum_insert_divide {M : Type} [AddCommMonoid M] {live : Finset Nat} {new child : Nat}
    {f g : Nat → M} (hnew : new ∉ live) (hchild : child ∈ live)
    (hsame : ∀ v ∈ live, v ≠ child → g v = f v) (hdivide : g new + g child = f child) :
    ∑ v ∈ Insert.insert new live, g v = ∑ v ∈ live, f v := by
  rw [Finset.sum_insert hnew, ← Finset.add_sum_erase live f hchild,
    ← Finset.add_sum_erase live g hchild, ← add_assoc, hdivide]
  refine congrArg (f child + ·) (Finset.sum_congr rfl fun v hv => ?_)
  exact hsame v (Finset.mem_of_mem_erase hv) (Finset.ne_of_mem_erase hv)

/-- `new` takes over the first `n` units of `child`, whose parent is `u`. -/
structure SplitAt (ps : Nat) (t t' : Nat → PageNode σ) (u child new n : Nat) : Prop where
  atNew : t' new = ⟨[(((t child).key.slice n (t child).key.len).childKey ps, child)], some u,
    (t child).key.slice 0 n, (t child).value.take n⟩
  atChild : t' child = ⟨(t child).children, some new,
    (t child).key.slice n (t child).key.len, (t child).value.drop n⟩
  atParent : t' u = { t u with children := setChild ((t child).key.childKey ps) new (t u).children }
  other : ∀ v, v ≠ u → v ≠ new → v ≠ child → t' v = t v

section Split

variable (hps : 0 < ps) (h : Paged ps t root counter live) (hchild : child ∈ live) (hn : 0 < n)
variable (hlt : n < ((t child).key.syms ps).length)

include hps h hchild hlt in
theorem Paged.split_len :
    ((t child).key.slice 0 (n * ps)).len = n * ps ∧
    ((t child).key.slice (n * ps) (t child).key.len).len = (t child).key.len - n * ps ∧
    n * ps < (t child).key.len := by
  have hlen := (h.aligned child hchild).len_eq
  have hmul : n * ps < (t child).key.len := by
    rw [← hlen]
    exact Nat.mul_lt_mul_of_pos_right hlt hps
  rw [RadixKey.len_slice, RadixKey.len_slice]
  omega

include hps h hchild hn hlt in
theorem SplitAt.split (hs : SplitAt ps t t' u child counter (n * ps)) (hu : u = root ∨ u ∈ live)
    (hedge : (t u).children.lookup ((t child).key.childKey ps) = some child) :
    Split (view ps t) (view ps t') root live u child counter n ((t child).key.childKey ps)
      (((t child).key.slice (n * ps) (t child).key.len).childKey ps) := by
  obtain ⟨_, hrest, hmul⟩ := h.split_len hps hchild hlt
  have hdvd : ((t child).key.slice (n * ps) (t child).key.len).Aligned ps := by
    rw [RadixKey.Aligned, hrest]
    exact Nat.dvd_sub (h.aligned child hchild) (Nat.dvd_mul_left _ _)
  refine ⟨hu, hedge, h.counter_fresh, hn, ?_, ?_, ?_, ?_, ?_⟩
  · change (((t child).key.syms ps).drop n).head? = _
    rw [← RadixKey.syms_drop]
    exact RadixKey.head?_syms hps hdvd (by rw [hrest]; omega)
  · simp only [view, hs.atParent, Node.mk.injEq, true_and, and_true]
    funext a
    rw [lookup_setChild, update_apply]
  · simp only [view, hs.atNew, RadixKey.syms_take, pages_take, Node.mk.injEq, true_and, and_true]
    funext a
    rw [update_apply, List.lookup_cons]
    split
    · next heq => rw [if_pos (by simpa using heq)]
    · next heq => rw [if_neg (by simpa using heq)]; rfl
  · simp only [view, hs.atChild, RadixKey.syms_drop, pages_drop]
  · intro v hvu hv hvc
    simp only [view, hs.other v hvu hv hvc]

theorem SplitAt.fields (hs : SplitAt ps t t' u child new n) (hv : v ≠ new) (hvc : v ≠ child) :
    (t' v).key = (t v).key ∧ (t' v).value = (t v).value := by
  by_cases hvu : v = u
  · subst hvu
    simp [hs.atParent]
  · simp [hs.other v hvu hv hvc]

include hps h hchild hn hlt in
theorem SplitAt.paged (hs : SplitAt ps t t' u child counter (n * ps)) (hu : u = root ∨ u ∈ live)
    (hedge : (t u).children.lookup ((t child).key.childKey ps) = some child) :
    Paged ps t' root (counter + 1) (insert counter live) := by
  obtain ⟨hfirst, hrest, hmul⟩ := h.split_len hps hchild hlt
  have hvalues := h.values child hchild
  refine ⟨(hs.split hps h hchild hn hlt hu hedge).wf h.wf, ?_, ?_, ?_⟩
  · rintro v (hv | hv)
    · exact Nat.lt_succ_of_lt (h.fresh v (.inl hv))
    · rcases Finset.mem_insert.mp hv with rfl | hv
      · exact Nat.lt_succ_self _
      · exact Nat.lt_succ_of_lt (h.fresh v (.inr hv))
  · intro v hv
    rcases Finset.mem_insert.mp hv with rfl | hv
    · rw [hs.atNew, RadixKey.Aligned, hfirst]
      exact Nat.dvd_mul_left _ _
    · by_cases hvc : v = child
      · subst hvc
        rw [hs.atChild, RadixKey.Aligned, hrest]
        exact Nat.dvd_sub (h.aligned v hv) (Nat.dvd_mul_left _ _)
      · rw [(hs.fields (h.ne_counter (.inr hv)) hvc).1]
        exact h.aligned v hv
  · intro v hv
    rcases Finset.mem_insert.mp hv with rfl | hv
    · rw [hs.atNew, hfirst, List.length_take]
      omega
    · by_cases hvc : v = child
      · subst hvc
        rw [hs.atChild, hrest, List.length_drop, hvalues]
      · obtain ⟨hkey, hvalue⟩ := hs.fields (h.ne_counter (.inr hv)) hvc
        rw [hkey, hvalue, h.values v hv]

include hps h hchild hlt in
/-- A sum of key lengths over some nodes is kept when both halves count as the whole did. -/
theorem SplitAt.sum_eq (hs : SplitAt ps t t' u child counter (n * ps)) {p p' : Nat → Prop}
    [DecidablePred p] [DecidablePred p'] (hnew : p' counter ↔ p child)
    (hold : ∀ v ∈ live, p' v ↔ p v) :
    (∑ v ∈ insert counter live, if p' v then ((t' v).key.len : Int) else 0) =
      ∑ v ∈ live, if p v then ((t v).key.len : Int) else 0 := by
  obtain ⟨hfirst, hrest, hmul⟩ := h.split_len hps hchild hlt
  have hc : child ≠ counter := h.ne_counter (.inr hchild)
  apply sum_insert_divide h.counter_fresh.2 hchild
  · intro v hv hvc
    rw [(hs.fields (h.ne_counter (.inr hv)) hvc).1]
    simp only [hold v hv]
  · rw [hs.atNew, hs.atChild]
    simp only [hfirst, hrest, hnew, hold child hchild]
    split
    · omega
    · rfl

include h hchild in
theorem SplitAt.slots_eq (hs : SplitAt ps t t' u child counter n) :
    slots t' (insert counter live) = slots t live := by
  apply sum_insert_divide h.counter_fresh.2 hchild
  · intro v hv hvc
    rw [(hs.fields (h.ne_counter (.inr hv)) hvc).2]
  · rw [hs.atNew, hs.atChild, Multiset.coe_add, List.take_append_drop]

include h hchild in
theorem SplitAt.pagesOk {P : List σ → Prop} (hs : SplitAt ps t t' u child counter (n * ps))
    (hok : PagesOk P ps t live) : PagesOk P ps t' (insert counter live) := by
  have hc := hok child hchild
  intro v hv b hb
  rcases Finset.mem_insert.mp hv with rfl | hv
  · rw [hs.atNew, pages_take] at hb
    exact hc b (List.mem_of_mem_take hb)
  · by_cases hvc : v = child
    · rw [hvc, hs.atChild, pages_drop] at hb
      exact hc b (List.mem_of_mem_drop hb)
    · rw [(hs.fields (h.ne_counter (.inr hv)) hvc).2] at hb
      exact hok v hv b hb

end Split

structure LeafAt (ps : Nat) (t t' : Nat → PageNode σ) (u new : Nat) (key : RadixKey)
    (value : List σ) : Prop where
  atNew : t' new = ⟨[], some u, key, value⟩
  atParent : t' u = { t u with children := setChild (key.childKey ps) new (t u).children }
  other : ∀ v, v ≠ u → v ≠ new → t' v = t v

section Leaf

variable (hps : 0 < ps) (h : Paged ps t root counter live) (hu : u = root ∨ u ∈ live)
variable (hkey : 0 < key.len) (haligned : key.Aligned ps) (hvalue : value.length = key.len)
variable (hfree : (t u).children.lookup (key.childKey ps) = none)

include hps h hu hkey haligned hvalue hfree in
theorem LeafAt.addLeaf (hs : LeafAt ps t t' u counter key value) :
    AddLeaf (view ps t) (view ps t') root live u counter (key.childKey ps) (key.syms ps)
      (pages ps value) := by
  refine ⟨hu, hfree, h.counter_fresh, RadixKey.head?_syms hps haligned hkey, ?_, ?_, ?_, ?_⟩
  · rw [length_pages, hvalue, RadixKey.length_syms]
  · simp only [view, hs.atParent, Node.mk.injEq, true_and, and_true]
    funext a
    rw [lookup_setChild, update_apply]
  · simp only [view, hs.atNew, List.lookup_nil]
  · intro v hvu hv
    simp only [view, hs.other v hvu hv]

theorem LeafAt.fields (hs : LeafAt ps t t' u new key value) (hv : v ≠ new) :
    (t' v).key = (t v).key ∧ (t' v).value = (t v).value := by
  by_cases hvu : v = u
  · subst hvu
    simp [hs.atParent]
  · simp [hs.other v hvu hv]

include hps h hu hkey haligned hvalue hfree in
theorem LeafAt.paged (hs : LeafAt ps t t' u counter key value) :
    Paged ps t' root (counter + 1) (insert counter live) := by
  refine ⟨(hs.addLeaf hps h hu hkey haligned hvalue hfree).wf h.wf, ?_, ?_, ?_⟩
  · rintro v (hv | hv)
    · exact Nat.lt_succ_of_lt (h.fresh v (.inl hv))
    · rcases Finset.mem_insert.mp hv with rfl | hv
      · exact Nat.lt_succ_self _
      · exact Nat.lt_succ_of_lt (h.fresh v (.inr hv))
  · intro v hv
    rcases Finset.mem_insert.mp hv with rfl | hv
    · rw [hs.atNew]
      exact haligned
    · rw [(hs.fields (h.ne_counter (.inr hv))).1]
      exact h.aligned v hv
  · intro v hv
    rcases Finset.mem_insert.mp hv with rfl | hv
    · rw [hs.atNew]
      exact hvalue
    · obtain ⟨hkey, hvalue⟩ := hs.fields (h.ne_counter (.inr hv))
      rw [hkey, hvalue, h.values v hv]

include h in
theorem LeafAt.sum_eq (hs : LeafAt ps t t' u counter key value) {p p' : Nat → Prop}
    [DecidablePred p] [DecidablePred p'] (hold : ∀ v ∈ live, p' v ↔ p v) :
    (∑ v ∈ insert counter live, if p' v then ((t' v).key.len : Int) else 0) =
      (if p' counter then (key.len : Int) else 0) +
        ∑ v ∈ live, if p v then ((t v).key.len : Int) else 0 := by
  rw [Finset.sum_insert h.counter_fresh.2, hs.atNew]
  refine congrArg (_ + ·) (Finset.sum_congr rfl fun v hv => ?_)
  rw [(hs.fields (h.ne_counter (.inr hv))).1]
  simp only [hold v hv]

include h in
theorem LeafAt.slots_eq (hs : LeafAt ps t t' u counter key value) :
    slots t' (insert counter live) = slots t live + value := by
  rw [slots, Finset.sum_insert h.counter_fresh.2, hs.atNew, add_comm]
  refine congrArg (· + (value : Multiset σ)) (Finset.sum_congr rfl fun v hv => ?_)
  rw [(hs.fields (h.ne_counter (.inr hv))).2]

include h in
theorem LeafAt.pagesOk {P : List σ → Prop} (hs : LeafAt ps t t' u counter key value)
    (hok : PagesOk P ps t live) (hvalue : ∀ b ∈ pages ps value, P b) :
    PagesOk P ps t' (insert counter live) := by
  intro v hv b hb
  rcases Finset.mem_insert.mp hv with rfl | hv
  · rw [hs.atNew] at hb
    exact hvalue b hb
  · rw [(hs.fields (h.ne_counter (.inr hv))).2] at hb
    exact hok v hv b hb

end Leaf

structure RemovedAt (ps : Nat) (t t' : Nat → PageNode σ) (u x : Nat) : Prop where
  atParent : t' u = { t u with children := popChild ((t x).key.childKey ps) (t u).children }
  other : ∀ v, v ≠ u → t' v = t v

section Remove

variable (h : Paged ps t root counter live) (hx : x ∈ live) (hleaf : (t x).children = [])
variable (hu : u = root ∨ u ∈ live)
variable (hedge : (t u).children.lookup ((t x).key.childKey ps) = some x)

include hleaf hu hedge in
theorem RemovedAt.removeLeaf (hs : RemovedAt ps t t' u x) :
    RemoveLeaf (view ps t) (view ps t') root live u x ((t x).key.childKey ps) := by
  refine ⟨hu, hedge, ?_, ?_, ?_⟩
  · intro b
    simp [view, hleaf]
  · simp only [view, hs.atParent, Node.mk.injEq, true_and, and_true]
    funext a
    rw [lookup_popChild, update_apply]
  · intro v hv
    simp only [view, hs.other v hv]

theorem RemovedAt.fields (hs : RemovedAt ps t t' u x) (v : Nat) :
    (t' v).parent = (t v).parent ∧ (t' v).key = (t v).key ∧ (t' v).value = (t v).value := by
  by_cases hvu : v = u
  · subst hvu
    simp [hs.atParent]
  · simp [hs.other v hvu]

theorem RemovedAt.leaf (hs : RemovedAt ps t t' u x) (hv : (t v).children = []) :
    (t' v).children = [] := by
  by_cases hvu : v = u
  · subst hvu
    simp [hs.atParent, hv, popChild]
  · rw [hs.other v hvu, hv]

include h hleaf hu hedge in
theorem RemovedAt.paged (hs : RemovedAt ps t t' u x) : Paged ps t' root counter (live.erase x) := by
  refine ⟨(hs.removeLeaf hleaf hu hedge).wf h.wf, ?_, ?_, ?_⟩
  · exact fun v hv => h.fresh v (hv.imp_right Finset.mem_of_mem_erase)
  · intro v hv
    rw [(hs.fields v).2.1]
    exact h.aligned v (Finset.mem_of_mem_erase hv)
  · intro v hv
    rw [(hs.fields v).2.1, (hs.fields v).2.2]
    exact h.values v (Finset.mem_of_mem_erase hv)

include hx in
theorem RemovedAt.sum_eq (hs : RemovedAt ps t t' u x) {p p' : Nat → Prop}
    [DecidablePred p] [DecidablePred p'] (hold : ∀ v ∈ live, p' v ↔ p v) :
    (∑ v ∈ live, if p v then ((t v).key.len : Int) else 0) =
      (if p x then ((t x).key.len : Int) else 0) +
        ∑ v ∈ live.erase x, if p' v then ((t' v).key.len : Int) else 0 := by
  rw [← Finset.add_sum_erase _ _ hx]
  refine congrArg (_ + ·) (Finset.sum_congr rfl fun v hv => ?_)
  rw [(hs.fields v).2.1]
  simp only [hold v (Finset.mem_of_mem_erase hv)]

include hx in
theorem RemovedAt.slots_eq (hs : RemovedAt ps t t' u x) :
    slots t live = slots t' (live.erase x) + (t x).value := by
  rw [slots, ← Finset.sum_erase_add _ _ hx]
  refine congrArg (· + ((t x).value : Multiset σ)) (Finset.sum_congr rfl fun v _ => ?_)
  rw [(hs.fields v).2.2]

theorem RemovedAt.pagesOk {P : List σ → Prop} (hs : RemovedAt ps t t' u x)
    (hok : PagesOk P ps t live) : PagesOk P ps t' (live.erase x) := by
  intro v hv b hb
  rw [(hs.fields v).2.2] at hb
  exact hok v (Finset.mem_of_mem_erase hv) b hb

end Remove

structure RevaluedAt (t t' : Nat → PageNode σ) (v : Nat) (value : List σ) : Prop where
  atNode : t' v = { t v with value := value }
  other : ∀ w, w ≠ v → t' w = t w

section Revalue

variable (hs : RevaluedAt t t' v value)

include hs

theorem RevaluedAt.fields (w : Nat) :
    (t' w).children = (t w).children ∧ (t' w).parent = (t w).parent ∧ (t' w).key = (t w).key := by
  by_cases hw : w = v
  · subst hw
    simp [hs.atNode]
  · simp [hs.other w hw]

theorem RevaluedAt.chain {w : Nat} {l : List Nat} (hl : RadixTree.Chain (view ps t) root w l) :
    RadixTree.Chain (view ps t') root w l := by
  induction hl with
  | root => exact .root
  | node hne hparent _ ih => exact .node hne ((hs.fields _).2.1.trans hparent) ih

theorem RevaluedAt.spells {w : Nat} {p : List ChildKey} (hw : Spells (view ps t) root w p) :
    Spells (view ps t') root w p := by
  induction hw with
  | root => exact .root
  | @child u w p a _ hchild ih =>
      have hlabel : (view ps t' w).label = (view ps t w).label := by
        simp only [view, (hs.fields w).2.2]
      have hstep : Spells (view ps t') root w (p ++ (view ps t' w).label) := by
        refine .child (a := a) ih ?_
        simp only [view, (hs.fields u).1]
        exact hchild
      rwa [hlabel] at hstep

theorem RevaluedAt.paged (h : Paged ps t root counter live)
    (hvalue : value.length = (t v).key.len) : Paged ps t' root counter live := by
  have hchild : ∀ w a, (view ps t' w).child a = (view ps t w).child a := fun w a => by
    simp only [view, (hs.fields w).1]
  have hparent : ∀ w, (view ps t' w).parent = (view ps t w).parent := fun w => (hs.fields w).2.1
  have hlabel : ∀ w, (view ps t' w).label = (view ps t w).label := fun w => by
    simp only [view, (hs.fields w).2.2]
  have hvalues : ∀ w ∈ live, (t' w).value.length = (t' w).key.len := by
    intro w hw
    by_cases hwv : w = v
    · subst hwv
      simpa [hs.atNode] using hvalue
    · rw [hs.other w hwv]
      exact h.values w hw
  refine ⟨⟨h.wf.root_notMem, ?_, ?_, ?_, ?_⟩, h.fresh, ?_, hvalues⟩
  · intro u a w hu hw
    rw [hparent, hlabel]
    exact h.wf.child u a w hu (hchild u a ▸ hw)
  · intro w hw
    obtain ⟨u, a, hu, hp, hc⟩ := h.wf.parent w hw
    exact ⟨u, a, hu, (hparent w).trans hp, (hchild u a).trans hc⟩
  · intro w hw
    obtain ⟨l, hl⟩ := h.wf.chain w hw
    exact ⟨l, hs.chain hl⟩
  · intro w hw
    have hlen : (t' w).value.length / ps = (t' w).key.len / ps := by rw [hvalues w hw]
    simpa [view] using hlen
  · intro w hw
    rw [(hs.fields w).2.2]
    exact h.aligned w hw

theorem RevaluedAt.slots_eq (hv : v ∈ live) :
    slots t' live + (t v).value = slots t live + value := by
  have hrest : ∑ w ∈ live.erase v, ((t' w).value : Multiset σ) =
      ∑ w ∈ live.erase v, ((t w).value : Multiset σ) :=
    Finset.sum_congr rfl fun w hw => by rw [hs.other w (Finset.ne_of_mem_erase hw)]
  rw [slots, slots, ← Finset.add_sum_erase _ _ hv,
    ← Finset.add_sum_erase live (fun w => ((t w).value : Multiset σ)) hv, hrest, hs.atNode]
  change (value : Multiset σ) + _ + _ = _
  rw [add_comm _ ((t v).value : Multiset σ), add_comm (value : Multiset σ), ← add_assoc]

theorem RevaluedAt.pagesOk {P : List σ → Prop} (hok : PagesOk P ps t live)
    (hvalue : ∀ b ∈ pages ps value, P b) : PagesOk P ps t' live := by
  intro w hw b hb
  by_cases hwv : w = v
  · subst hwv
    rw [hs.atNode] at hb
    exact hvalue b hb
  · rw [hs.other w hwv] at hb
    exact hok w hw b hb

end Revalue

end PageTree

end SpecDecode.MemCache
