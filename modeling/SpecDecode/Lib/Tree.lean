import SpecDecode.Lib.Buffer
import Mathlib.Data.Finset.Card
import Mathlib.Data.Finset.Range
import Mathlib.Data.List.Perm.Subperm
import Mathlib.Logic.Relation

/-!
# Rooted trees given by parents, and their child lists in arrays

`ParentTree` is a rooted tree on the natural numbers in which every node but the
root `0` has an earlier parent. `depth`, `lineage` and `Ancestor` follow the
parents upwards and `children` lists the nodes below a bound downwards.

`OrderedTree` is a rooted tree on `0 .. n - 1` with any order of siblings; a
`ParentTree` is one with its children in increasing order.

A first-child / next-sibling encoding of such a tree is two arrays. `Chain` says
which list a sibling array spells from a given head, with `-1` as its end.
Inserting nodes from the last to the first at the head of their parent's list
spells every `children` list in increasing order; `Chain.push` is that step.
-/

namespace SpecDecode

open Function

structure ParentTree where
  parent : Nat → Nat
  parent_lt : ∀ i, 0 < i → parent i < i

namespace ParentTree

variable (t : ParentTree)

/-- The number of parent edges between a node and the root. -/
def depth : Nat → Nat
  | 0 => 0
  | i + 1 => depth (t.parent (i + 1)) + 1
termination_by i => i
decreasing_by exact t.parent_lt _ (Nat.succ_pos _)

/-- A node and its ancestors up to the root, which is left out. -/
def lineage : Nat → List Nat
  | 0 => []
  | i + 1 => (i + 1) :: lineage (t.parent (i + 1))
termination_by i => i
decreasing_by exact t.parent_lt _ (Nat.succ_pos _)

/-- `Ancestor t j i`: some positive number of parent edges leads from `i` to `j`. -/
inductive Ancestor : Nat → Nat → Prop where
  | parent {i : Nat} (h : 0 < i) : Ancestor (t.parent i) i
  | step {j i : Nat} (h : 0 < i) (up : Ancestor j (t.parent i)) : Ancestor j i

@[simp] theorem depth_zero : t.depth 0 = 0 := by rw [depth]

theorem depth_of_pos {i : Nat} (h : 0 < i) : t.depth i = t.depth (t.parent i) + 1 := by
  obtain ⟨k, rfl⟩ : ∃ k, i = k + 1 := ⟨i - 1, by omega⟩
  rw [depth]

@[simp] theorem lineage_zero : t.lineage 0 = [] := by rw [lineage]

theorem lineage_of_pos {i : Nat} (h : 0 < i) : t.lineage i = i :: t.lineage (t.parent i) := by
  obtain ⟨k, rfl⟩ : ∃ k, i = k + 1 := ⟨i - 1, by omega⟩
  rw [lineage]

theorem parent_induction {motive : Nat → Prop} (root : motive 0)
    (node : ∀ i, 0 < i → motive (t.parent i) → motive i) (i : Nat) : motive i := by
  induction i using Nat.strongRecOn with
  | ind i ih =>
      rcases Nat.eq_zero_or_pos i with rfl | hi
      · exact root
      · exact node i hi (ih _ (t.parent_lt i hi))

theorem Ancestor.lt {t : ParentTree} {j i : Nat} (h : t.Ancestor j i) : j < i := by
  induction h with
  | parent hi => exact t.parent_lt _ hi
  | step hi _ ih => exact Nat.lt_trans ih (t.parent_lt _ hi)

theorem ancestor_iff_parent {i j : Nat} (hi : 0 < i) :
    t.Ancestor j i ↔ j = t.parent i ∨ t.Ancestor j (t.parent i) := by
  constructor
  · intro h
    cases h with
    | parent _ => exact .inl rfl
    | step _ up => exact .inr up
  · rintro (rfl | h)
    · exact .parent hi
    · exact .step hi h

theorem mem_lineage {i j : Nat} : j ∈ t.lineage i ↔ 0 < j ∧ (j = i ∨ t.Ancestor j i) := by
  induction i using t.parent_induction with
  | root =>
      simp only [lineage_zero, List.not_mem_nil, false_iff]
      rintro ⟨hj, rfl | h⟩
      · omega
      · exact absurd h.lt (by omega)
  | node i hi ih =>
      rw [t.lineage_of_pos hi, List.mem_cons, ih]
      constructor
      · rintro (rfl | ⟨hj, rfl | h⟩)
        · exact ⟨hi, .inl rfl⟩
        · exact ⟨hj, .inr (.parent hi)⟩
        · exact ⟨hj, .inr (.step hi h)⟩
      · rintro ⟨hj, rfl | h⟩
        · exact .inl rfl
        · cases h with
          | parent _ => exact .inr ⟨hj, .inl rfl⟩
          | step _ up => exact .inr ⟨hj, .inr up⟩

theorem le_of_mem_lineage {i j : Nat} (h : j ∈ t.lineage i) : j ≤ i := by
  rcases (t.mem_lineage.mp h).2 with rfl | ha
  · exact Nat.le_refl _
  · exact Nat.le_of_lt ha.lt

/-- The children of `v` among the nodes `m, m + 1, ..., n - 1`, in increasing order. -/
def childrenFrom (n m v : Nat) : List Nat :=
  (List.range' m (n - m)).filter fun i => t.parent i = v

/-- All children of `v` in the tree on the nodes below `n`. -/
def children (n v : Nat) : List Nat := t.childrenFrom n 1 v

theorem mem_childrenFrom {n m v i : Nat} :
    i ∈ t.childrenFrom n m v ↔ m ≤ i ∧ i < n ∧ t.parent i = v := by
  simp only [childrenFrom, List.mem_filter, List.mem_range'_1, decide_eq_true_eq]
  omega

theorem mem_children {n v i : Nat} :
    i ∈ t.children n v ↔ 0 < i ∧ i < n ∧ t.parent i = v := t.mem_childrenFrom

theorem childrenFrom_of_le {n m v : Nat} (h : n ≤ m) : t.childrenFrom n m v = [] := by
  simp [childrenFrom, Nat.sub_eq_zero_of_le h]

theorem childrenFrom_of_lt {n m v : Nat} (h : m < n) :
    t.childrenFrom n m v =
      if t.parent m = v then m :: t.childrenFrom n (m + 1) v
      else t.childrenFrom n (m + 1) v := by
  have hlen : n - m = (n - (m + 1)) + 1 := by omega
  simp only [childrenFrom, hlen, List.range'_succ, List.filter_cons, decide_eq_true_eq]

theorem children_eq_childrenFrom {n v m : Nat} (hm : 1 ≤ m) (hv : m ≤ v + 1) :
    t.children n v = t.childrenFrom n m v := by
  rw [children]
  induction m with
  | zero => omega
  | succ m ih =>
      rcases Nat.eq_zero_or_pos m with rfl | hpos
      · rfl
      rw [ih hpos (by omega)]
      by_cases hn : m < n
      · have hlt := t.parent_lt m hpos
        rw [t.childrenFrom_of_lt hn, if_neg (by omega)]
      · rw [t.childrenFrom_of_le (by omega), t.childrenFrom_of_le (by omega)]

theorem Ancestor.exists_child {t : ParentTree} {v i : Nat} (h : t.Ancestor v i) :
    ∃ c, 0 < c ∧ c ≤ i ∧ t.parent c = v := by
  induction h with
  | parent hi => exact ⟨_, hi, Nat.le_refl _, rfl⟩
  | step hi _ ih =>
      obtain ⟨c, hc, hle, hp⟩ := ih
      exact ⟨c, hc, Nat.le_of_lt (Nat.lt_of_le_of_lt hle (t.parent_lt _ hi)), hp⟩

theorem children_pairwise (n v : Nat) : (t.children n v).Pairwise (· < ·) :=
  (List.pairwise_lt_range' (s := 1) (n := n - 1)).filter _

end ParentTree

/-- A rooted tree on the nodes `0 .. n - 1`, given by its ordered child lists. -/
structure OrderedTree (n : Nat) where
  children : Nat → List Nat
  child_lt : ∀ {v c}, c ∈ children v → c < n
  nodup : ∀ v, (children v).Nodup
  parent_unique : ∀ {v w c}, c ∈ children v → c ∈ children w → v = w
  root_orphan : ∀ v, 0 ∉ children v
  reach : ∀ c, c < n → Relation.ReflTransGen (fun v c => c ∈ children v) 0 c

/-- The tree of the parents below `n`, with children in increasing order. -/
def ParentTree.ordered (t : ParentTree) (n : Nat) : OrderedTree n where
  children := t.children n
  child_lt h := (t.mem_children.mp h).2.1
  nodup v := (t.children_pairwise n v).imp Nat.ne_of_lt
  parent_unique hv hw := (t.mem_children.mp hv).2.2.symm.trans (t.mem_children.mp hw).2.2
  root_orphan v h := absurd (t.mem_children.mp h).1 (Nat.lt_irrefl 0)
  reach c := by
    induction c using t.parent_induction with
    | root => exact fun _ => .refl
    | node i hi ih =>
        intro hin
        have := t.parent_lt i hi
        exact .tail (ih (by omega)) (t.mem_children.mpr ⟨hi, hin, rfl⟩)

namespace OrderedTree

variable {n : Nat} (t : OrderedTree n)

theorem children_length_le (v : Nat) : (t.children v).length ≤ n := by
  have hsub : t.children v ⊆ List.range n := fun c hc => List.mem_range.mpr (t.child_lt hc)
  simpa using (List.subperm_of_subset (t.nodup v) hsub).length_le

/-- `Below v w`: the node `w` is `v` or a descendant of it. -/
abbrev Below (v w : Nat) : Prop := Relation.ReflTransGen (fun v c => c ∈ t.children v) v w

variable {t}

theorem root_below {v c : Nat} (hc : c ∈ t.children v) : t.Below 0 v := by
  rcases (t.reach c (t.child_lt hc)).cases_tail with h0 | ⟨p, hp, hcp⟩
  · exact absurd (h0 ▸ hc) (t.root_orphan v)
  · rwa [t.parent_unique hc hcp]

theorem not_below_parent {v c : Nat} (hc : c ∈ t.children v) : ¬ t.Below c v := by
  have hreach := root_below hc
  induction hreach generalizing c with
  | refl =>
      intro hback
      rcases hback.cases_tail with h0 | ⟨p, -, hp⟩
      · exact t.root_orphan 0 (h0 ▸ hc)
      · exact t.root_orphan p hp
  | @tail p v _ hv ih =>
      intro hback
      rcases hback.cases_tail with rfl | ⟨q, hq, hvq⟩
      · obtain rfl := t.parent_unique hc hv
        exact ih hc .refl
      · obtain rfl := t.parent_unique hvq hv
        exact ih hv (.head hc hq)

theorem below_or_below {x y w : Nat} (hx : t.Below x w) (hy : t.Below y w) :
    t.Below x y ∨ t.Below y x := by
  induction hx with
  | refl => exact .inr hy
  | @tail p w _ hw ih =>
      rcases hy.cases_tail with rfl | ⟨q, hq, hwq⟩
      · exact .inl (.tail ‹_› hw)
      · exact ih (t.parent_unique hwq hw ▸ hq)

theorem eq_of_below {v x y w : Nat} (hx : x ∈ t.children v) (hy : y ∈ t.children v)
    (hxw : t.Below x w) (hyw : t.Below y w) : x = y := by
  have hsame : ∀ {x y}, x ∈ t.children v → y ∈ t.children v → t.Below x y → x = y := by
    intro x y hx hy hxy
    rcases hxy.cases_tail with heq | ⟨p, hp, hyp⟩
    · exact heq.symm
    · obtain rfl := t.parent_unique hyp hy
      exact absurd hp (not_below_parent hx)
  rcases below_or_below hxw hyw with h | h
  · exact hsame hx hy h
  · exact (hsame hy hx h).symm

variable (t)

open Classical in
/-- The number of nodes in the subtrees of some nodes. -/
noncomputable def weight (xs : List Nat) : Nat :=
  ((Finset.range n).filter fun w => ∃ x ∈ xs, t.Below x w).card

variable {t}

open Classical in
theorem weight_lt {x : Nat} {xs ys : List Nat} (hx : x < n) (hxs : x ∈ xs)
    (hsub : ∀ y ∈ ys, ∃ z ∈ xs, t.Below z y) (hout : ∀ y ∈ ys, ¬ t.Below y x) :
    t.weight ys < t.weight xs := by
  refine Finset.card_lt_card ⟨fun w hw => ?_, fun hback => ?_⟩
  · obtain ⟨hlt, y, hy, hyw⟩ := Finset.mem_filter.mp hw
    obtain ⟨z, hz, hzy⟩ := hsub y hy
    exact Finset.mem_filter.mpr ⟨hlt, z, hz, hzy.trans hyw⟩
  · obtain ⟨-, y, hy, hyx⟩ := Finset.mem_filter.mp
      (hback (Finset.mem_filter.mpr ⟨Finset.mem_range.mpr hx, x, hxs, .refl⟩))
    exact hout y hy hyx

open Classical in
theorem weight_le (xs : List Nat) : t.weight xs ≤ n := by
  have hle := Finset.card_filter_le (Finset.range n) fun w => ∃ x ∈ xs, t.Below x w
  rwa [Finset.card_range] at hle

end OrderedTree

/-- `Chain next head xs`: from `head`, the array `next` spells the list `xs`
and then ends with `-1`. -/
inductive Chain (next : Nat → Int) : Int → List Nat → Prop where
  | nil : Chain next (-1) []
  | cons {i : Nat} {xs : List Nat} (rest : Chain next (next i) xs) : Chain next i (i :: xs)

namespace Chain

variable {next : Nat → Int} {head : Int} {xs ys : List Nat}

/-- A store outside the list does not change what the list spells. -/
theorem update_of_notMem (h : Chain next head xs) {i : Nat} {v : Int} (hi : i ∉ xs) :
    Chain (update next i v) head xs := by
  induction h with
  | nil => exact .nil
  | @cons j xs _ ih =>
      rw [List.mem_cons, not_or] at hi
      refine .cons ?_
      rw [update_of_ne (Ne.symm hi.1)]
      exact ih hi.2

theorem congr (h : Chain next head xs) {next' : Nat → Int} (heq : ∀ i ∈ xs, next' i = next i) :
    Chain next' head xs := by
  induction h with
  | nil => exact .nil
  | @cons j xs _ ih =>
      refine .cons ?_
      rw [heq j (List.mem_cons_self ..)]
      exact ih (fun i hi => heq i (List.mem_cons_of_mem _ hi))

/-- A new node in front of a list: its sibling entry holds the old head. -/
theorem push (h : Chain next head xs) {i : Nat} (hi : i ∉ xs) :
    Chain (update next i head) i (i :: xs) := by
  refine .cons ?_
  rw [update_self]
  exact h.update_of_notMem hi

theorem head_eq_neg_one_iff (h : Chain next head xs) : head = -1 ↔ xs = [] := by
  cases h with
  | nil => simp
  | cons => simp

end Chain

end SpecDecode
