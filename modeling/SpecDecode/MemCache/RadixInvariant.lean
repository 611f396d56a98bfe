import SpecDecode.MemCache.PageTree

/-!
# The bookkeeping of the radix cache

The nodes of a cache form a radix tree over the symbols of their keys. `Book` adds the
counters: the lock counts, the two sizes and the set of evictable leaves. It is kept by
every primitive step, a split, a new leaf, one lock and a removed leaf, and `Inv` ties
the lock counts to the locks that requests hold.
-/

namespace SpecDecode.MemCache

open Function RadixTree

variable {σ : Type}

namespace RadixCache

variable {c : CacheParams} {s s' : RadixCache σ}

/-- The tree a cache holds, with pages as symbols. -/
def view (c : CacheParams) (s : RadixCache σ) (v : Nat) : Node ChildKey (List σ) where
  parent := (s.nodes v).parent
  child a := (s.nodes v).children.lookup a
  label := (s.nodes v).key.syms c.pageSize
  vals := pages c.pageSize (s.nodes v).value

/-- The length of the keys of the nodes whose lock count satisfies `p`. -/
def sizeOf (s : RadixCache σ) (live : Finset Nat) (p : Int → Prop) [DecidablePred p] : Int :=
  ∑ v ∈ live, if p (s.nodes v).lockRef then ((s.nodes v).key.len : Int) else 0

/-- The bookkeeping of a cache whose nodes besides the root are `live`, where `held` are
the lock counts. -/
structure Book (c : CacheParams) (s : RadixCache σ) (held : Nat → Nat) (live : Finset Nat) :
    Prop where
  wf : Wf (view c s) s.rootNode live
  fresh : ∀ v, v = s.rootNode ∨ v ∈ live → v < s.counter
  aligned : ∀ v ∈ live, (s.nodes v).key.Aligned c.pageSize
  values : ∀ v ∈ live, (s.nodes v).value.length = (s.nodes v).key.len
  lock : ∀ v ∈ live, (s.nodes v).lockRef = held v
  rootLock : (s.nodes s.rootNode).lockRef = 1
  evictable : s.evictableSize = s.sizeOf live fun n => n = 0
  locked : s.protectedSize = s.sizeOf live fun n => 0 < n
  leaves : ∀ v, v ∈ s.evictableLeaves ↔
    v ∈ live ∧ (s.nodes v).lockRef = 0 ∧ (s.nodes v).children = []

/-- The nodes of a cache as the nodes of a page tree. -/
def tree (s : RadixCache σ) (v : Nat) : PageNode σ :=
  ⟨(s.nodes v).children, (s.nodes v).parent, (s.nodes v).key, (s.nodes v).value⟩

theorem Book.paged {held : Nat → Nat} {live : Finset Nat} (h : Book c s held live) :
    PageTree.Paged c.pageSize s.tree s.rootNode s.counter live :=
  ⟨h.wf, h.fresh, h.aligned, h.values⟩

/-- The slots the tree owns. -/
def slots (s : RadixCache σ) (live : Finset Nat) : Multiset σ :=
  ∑ v ∈ live, ((s.nodes v).value : Multiset σ)

structure SameShape (s s' : RadixCache σ) : Prop where
  nodes : ∀ v, (s'.nodes v).children = (s.nodes v).children ∧
    (s'.nodes v).parent = (s.nodes v).parent ∧ (s'.nodes v).key = (s.nodes v).key ∧
    (s'.nodes v).value = (s.nodes v).value
  counter : s'.counter = s.counter
  rootNode : s'.rootNode = s.rootNode

theorem SameShape.trans {s'' : RadixCache σ} (h : SameShape s s') (h' : SameShape s' s'') :
    SameShape s s'' where
  nodes v := by
    obtain ⟨h₁, h₂, h₃, h₄⟩ := h.nodes v
    obtain ⟨h₁', h₂', h₃', h₄'⟩ := h'.nodes v
    exact ⟨h₁'.trans h₁, h₂'.trans h₂, h₃'.trans h₃, h₄'.trans h₄⟩
  counter := h'.counter.trans h.counter
  rootNode := h'.rootNode.trans h.rootNode

theorem SameShape.view_eq (h : SameShape s s') : view c s' = view c s := by
  funext v
  obtain ⟨hchildren, hparent, hkey, hvalue⟩ := h.nodes v
  simp only [view, hchildren, hparent, hkey, hvalue]

theorem SameShape.slots_eq (h : SameShape s s') (live : Finset Nat) :
    s'.slots live = s.slots live :=
  Finset.sum_congr rfl fun v _ => by rw [(h.nodes v).2.2.2]

structure SameTree (s s' : RadixCache σ) : Prop extends SameShape s s' where
  lockRef : ∀ v, (s'.nodes v).lockRef = (s.nodes v).lockRef
  evictableSize : s'.evictableSize = s.evictableSize
  protectedSize : s'.protectedSize = s.protectedSize
  evictableLeaves : s'.evictableLeaves = s.evictableLeaves

theorem SameTree.refl (s : RadixCache σ) : SameTree s s :=
  ⟨⟨fun _ => ⟨rfl, rfl, rfl, rfl⟩, rfl, rfl⟩, fun _ => rfl, rfl, rfl, rfl⟩

theorem SameTree.updateNode (s : RadixCache σ) (node : Nat) {f : TreeNode σ → TreeNode σ}
    (hf : ∀ n, (f n).children = n.children ∧ (f n).parent = n.parent ∧ (f n).key = n.key ∧
      (f n).value = n.value) (hlock : ∀ n, (f n).lockRef = n.lockRef) :
    SameTree s (s.updateNode node f) := by
  refine ⟨⟨fun v => ?_, rfl, rfl⟩, fun v => ?_, rfl, rfl, rfl⟩
  · by_cases hv : v = node
    · subst hv
      simpa [RadixCache.updateNode] using hf (s.nodes v)
    · simp [RadixCache.updateNode, update_of_ne hv]
  · by_cases hv : v = node
    · subst hv
      simpa [RadixCache.updateNode] using hlock (s.nodes v)
    · simp [RadixCache.updateNode, update_of_ne hv]

theorem SameTree.sizeOf_eq (h : SameTree s s') (live : Finset Nat) (p : Int → Prop)
    [DecidablePred p] : s'.sizeOf live p = s.sizeOf live p := by
  refine Finset.sum_congr rfl fun v _ => ?_
  rw [(h.nodes v).2.2.1, h.lockRef]

theorem Book.sameTree {held : Nat → Nat} {live : Finset Nat} (hb : Book c s held live)
    (h : SameTree s s') : Book c s' held live where
  wf := by
    rw [h.view_eq, h.rootNode]
    exact hb.wf
  fresh := by
    rw [h.rootNode, h.counter]
    exact hb.fresh
  aligned v hv := by
    rw [(h.nodes v).2.2.1]
    exact hb.aligned v hv
  values v hv := by
    rw [(h.nodes v).2.2.1, (h.nodes v).2.2.2]
    exact hb.values v hv
  lock v hv := by
    rw [h.lockRef]
    exact hb.lock v hv
  rootLock := by
    rw [h.rootNode, h.lockRef]
    exact hb.rootLock
  evictable := by
    rw [h.evictableSize, h.sizeOf_eq]
    exact hb.evictable
  locked := by
    rw [h.protectedSize, h.sizeOf_eq]
    exact hb.locked
  leaves v := by
    rw [h.evictableLeaves, (h.nodes v).1, h.lockRef]
    exact hb.leaves v

section SplitNode

variable {held : Nat → Nat} {live : Finset Nat} {child u n now : Nat}

structure SplitAt (c : CacheParams) (s s' : RadixCache σ) (u child splitLen : Nat) : Prop where
  counter : s'.counter = s.counter + 1
  rootNode : s'.rootNode = s.rootNode
  evictableSize : s'.evictableSize = s.evictableSize
  protectedSize : s'.protectedSize = s.protectedSize
  evictableLeaves : s'.evictableLeaves = s.evictableLeaves
  lockRef : ∀ v, v ≠ s.counter → (s'.nodes v).lockRef = (s.nodes v).lockRef
  newLock : (s'.nodes s.counter).lockRef = (s.nodes child).lockRef
  newKey : (s'.nodes s.counter).key = (s.nodes child).key.slice 0 splitLen
  newValue : (s'.nodes s.counter).value = (s.nodes child).value.take splitLen
  newParent : (s'.nodes s.counter).parent = some u
  newChildren : (s'.nodes s.counter).children =
    [(((s.nodes child).key.slice splitLen (s.nodes child).key.len).childKey c.pageSize, child)]
  childKey : (s'.nodes child).key = (s.nodes child).key.slice splitLen (s.nodes child).key.len
  childValue : (s'.nodes child).value = (s.nodes child).value.drop splitLen
  childParent : (s'.nodes child).parent = some s.counter
  childChildren : (s'.nodes child).children = (s.nodes child).children
  parentChildren : (s'.nodes u).children =
    setChild ((s.nodes child).key.childKey c.pageSize) s.counter (s.nodes u).children
  parentFields : (s'.nodes u).parent = (s.nodes u).parent ∧ (s'.nodes u).key = (s.nodes u).key ∧
    (s'.nodes u).value = (s.nodes u).value
  other : ∀ v, v ≠ u → v ≠ s.counter → v ≠ child → s'.nodes v = s.nodes v

theorem splitNode_at (hparent : (s.nodes child).parent = some u) (huc : u ≠ child)
    (hu : u ≠ s.counter) (hc : child ≠ s.counter) (splitLen : Nat) :
    (s.splitNode c child splitLen now).1 = s.counter ∧
      SplitAt c s (s.splitNode c child splitLen now).2 u child splitLen := by
  refine ⟨by simp [splitNode, hparent], ?_⟩
  simp only [splitNode, hparent]
  constructor <;> simp only [RadixCache.updateNode]
  case lockRef =>
    intro v hv
    by_cases hvu : v = u
    · subst hvu
      simp [update_of_ne huc, update_of_ne hu]
    · by_cases hvc : v = child
      · subst hvc
        simp [update_of_ne hvu, update_of_ne hv]
      · simp [update_of_ne hvu, update_of_ne hvc, update_of_ne hv]
  case other =>
    intro v hvu hv hvc
    simp [update_of_ne hvu, update_of_ne hvc, update_of_ne hv]
  all_goals simp [update_of_ne huc, update_of_ne hu, update_of_ne hc,
    update_of_ne huc.symm, update_of_ne hu.symm, update_of_ne hc.symm]

variable (hps : 0 < c.pageSize) (h : Book c s held live)

include h in
theorem Book.counter_fresh : s.counter ≠ s.rootNode ∧ s.counter ∉ live :=
  h.paged.counter_fresh

include hps h in
/-- A node hangs below its parent under its own child key. -/
theorem Book.parent_lookup {v : Nat} (hv : v ∈ live) : ∃ u, (u = s.rootNode ∨ u ∈ live) ∧
    (s.nodes v).parent = some u ∧
    (s.nodes u).children.lookup ((s.nodes v).key.childKey c.pageSize) = some v := by
  obtain ⟨u, hu, hparent, _, hedge⟩ := h.paged.parent_lookup hps hv
  exact ⟨u, hu, hparent, hedge⟩

variable (hchild : child ∈ live) (hn : 0 < n)
variable (hlt : n < ((s.nodes child).key.syms c.pageSize).length)

theorem SplitAt.tree (hs : SplitAt c s s' u child n) :
    PageTree.SplitAt c.pageSize s.tree s'.tree u child s.counter n where
  atNew := by simp only [RadixCache.tree, hs.newChildren, hs.newParent, hs.newKey, hs.newValue]
  atChild := by
    simp only [RadixCache.tree, hs.childChildren, hs.childParent, hs.childKey, hs.childValue]
  atParent := by simp only [RadixCache.tree, hs.parentChildren, hs.parentFields]
  other v hvu hv hvc := by simp only [RadixCache.tree, hs.other v hvu hv hvc]

include hps h hchild hn hlt in
theorem SplitAt.split (hs : SplitAt c s s' u child (n * c.pageSize))
    (hu : u = s.rootNode ∨ u ∈ live)
    (hedge : (s.nodes u).children.lookup ((s.nodes child).key.childKey c.pageSize) = some child) :
    Split (view c s) (view c s') s.rootNode live u child s.counter n
      ((s.nodes child).key.childKey c.pageSize)
      (((s.nodes child).key.slice (n * c.pageSize) (s.nodes child).key.len).childKey c.pageSize) :=
  hs.tree.split hps h.paged hchild hn hlt hu hedge

include hps h hchild hlt in
theorem SplitAt.sizeOf_eq (hs : SplitAt c s s' u child (n * c.pageSize)) (p : Int → Prop)
    [DecidablePred p] : s'.sizeOf (Insert.insert s.counter live) p = s.sizeOf live p := by
  have hc : child ≠ s.counter := h.paged.ne_counter (.inr hchild)
  apply hs.tree.sum_eq hps h.paged hchild hlt
  · rw [hs.newLock]
  · intro v hv
    rw [hs.lockRef v (h.paged.ne_counter (.inr hv))]

include h hchild in
theorem SplitAt.slots_eq (hs : SplitAt c s s' u child n) :
    s'.slots (Insert.insert s.counter live) = s.slots live :=
  hs.tree.slots_eq h.paged hchild

include hps h hchild hn hlt in
/-- A split keeps the books; the new node takes over the lock count. -/
theorem SplitAt.book (hs : SplitAt c s s' u child (n * c.pageSize)) (hu : u = s.rootNode ∨ u ∈ live)
    (hedge : (s.nodes u).children.lookup ((s.nodes child).key.childKey c.pageSize) = some child) :
    Book c s' (update held s.counter (held child)) (Insert.insert s.counter live) := by
  have hfresh := h.counter_fresh
  have hne : ∀ {v : Nat}, v = s.rootNode ∨ v ∈ live → v ≠ s.counter := h.paged.ne_counter
  have hpaged := hs.tree.paged hps h.paged hchild hn hlt hu hedge
  rw [← hs.rootNode, ← hs.counter] at hpaged
  refine ⟨hpaged.wf, hpaged.fresh, hpaged.aligned, hpaged.values, ?_, ?_, ?_, ?_, ?_⟩
  · intro v hv
    rcases Finset.mem_insert.mp hv with rfl | hv
    · rw [update_self, hs.newLock, h.lock child hchild]
    · rw [update_of_ne (hne (.inr hv)), hs.lockRef v (hne (.inr hv)), h.lock v hv]
  · rw [hs.rootNode, hs.lockRef _ (hne (.inl rfl)), h.rootLock]
  · rw [hs.evictableSize, hs.sizeOf_eq hps h hchild hlt, h.evictable]
  · rw [hs.protectedSize, hs.sizeOf_eq hps h hchild hlt, h.locked]
  · intro v
    rw [hs.evictableLeaves, h.leaves]
    by_cases hvn : v = s.counter
    · subst hvn
      refine iff_of_false (fun hv => hfresh.2 hv.1) fun hv => ?_
      simp [hs.newChildren] at hv
    · rw [Finset.mem_insert, hs.lockRef v hvn]
      refine and_congr (by simp [hvn]) (and_congr_right fun _ => ?_)
      by_cases hvu : v = u
      · subst hvu
        refine iff_of_false (fun hnil => ?_) fun hnil => ?_
        · simp [hnil] at hedge
        · have hlookup := lookup_setChild ((s.nodes child).key.childKey c.pageSize) s.counter
            (s.nodes v).children ((s.nodes child).key.childKey c.pageSize)
          rw [← hs.parentChildren, hnil] at hlookup
          simp at hlookup
      · by_cases hvc : v = child
        · subst hvc
          rw [hs.childChildren]
        · rw [hs.other v hvu hvn hvc]

end SplitNode

section UpdateLeafStatus

variable (s : RadixCache σ) (node : Nat)

@[simp] theorem updateLeafStatus_nodes : (s.updateLeafStatus node).nodes = s.nodes := by
  unfold updateLeafStatus
  split <;> rfl

@[simp] theorem updateLeafStatus_counter : (s.updateLeafStatus node).counter = s.counter := by
  unfold updateLeafStatus
  split <;> rfl

@[simp] theorem updateLeafStatus_rootNode : (s.updateLeafStatus node).rootNode = s.rootNode := by
  unfold updateLeafStatus
  split <;> rfl

@[simp] theorem updateLeafStatus_evictableSize :
    (s.updateLeafStatus node).evictableSize = s.evictableSize := by
  unfold updateLeafStatus
  split <;> rfl

@[simp] theorem updateLeafStatus_protectedSize :
    (s.updateLeafStatus node).protectedSize = s.protectedSize := by
  unfold updateLeafStatus
  split <;> rfl

theorem mem_updateLeafStatus {v : Nat} : v ∈ (s.updateLeafStatus node).evictableLeaves ↔
    if v = node then (s.nodes node).lockRef ≤ 0 ∧ (s.nodes node).children = []
    else v ∈ s.evictableLeaves := by
  unfold updateLeafStatus
  split
  · next h =>
      rw [Finset.mem_erase]
      split
      · next hv =>
          refine iff_of_false (fun hmem => hmem.1 hv) fun hleaf => ?_
          rcases h with hlock | hchildren
          · omega
          · exact hchildren hleaf.2
      · next hv => simp [hv]
  · next h =>
      rw [not_or, not_lt, not_not] at h
      rw [Finset.mem_insert]
      split
      · next hv => simp [hv, h]
      · next hv => simp [hv]

end UpdateLeafStatus

section InsertLeaf

variable {held : Nat → Nat} {live : Finset Nat} {u : Nat} {key : RadixKey} {value : List σ}

structure LeafAt (c : CacheParams) (s s' : RadixCache σ) (u : Nat) (key : RadixKey)
    (value : List σ) : Prop where
  counter : s'.counter = s.counter + 1
  rootNode : s'.rootNode = s.rootNode
  evictableSize : s'.evictableSize = s.evictableSize + key.len
  protectedSize : s'.protectedSize = s.protectedSize
  leaves : ∀ v, v ∈ s'.evictableLeaves ↔ v = s.counter ∨ v ≠ u ∧ v ∈ s.evictableLeaves
  new : (s'.nodes s.counter).children = [] ∧ (s'.nodes s.counter).parent = some u ∧
    (s'.nodes s.counter).key = key ∧ (s'.nodes s.counter).value = value ∧
    (s'.nodes s.counter).lockRef = 0
  parentChildren : (s'.nodes u).children =
    setChild (key.childKey c.pageSize) s.counter (s.nodes u).children
  parentFields : (s'.nodes u).parent = (s.nodes u).parent ∧ (s'.nodes u).key = (s.nodes u).key ∧
    (s'.nodes u).value = (s.nodes u).value ∧ (s'.nodes u).lockRef = (s.nodes u).lockRef
  other : ∀ v, v ≠ u → v ≠ s.counter → s'.nodes v = s.nodes v

theorem insertLeaf_at (c : CacheParams) (priority : Int) (chunked : Bool) (now total : Nat)
    (hu : u ≠ s.counter) (hkey : 0 < key.len) :
    LeafAt c s (insertLeaf c priority chunked now ⟨total, u, key, value, s⟩) u key value := by
  have hbump : ∀ n : TreeNode σ, (incHitCount chunked n).children = n.children ∧
      (incHitCount chunked n).parent = n.parent ∧ (incHitCount chunked n).key = n.key ∧
      (incHitCount chunked n).value = n.value ∧ (incHitCount chunked n).lockRef = n.lockRef := by
    intro n
    unfold incHitCount
    split <;> exact ⟨rfl, rfl, rfl, rfl, rfl⟩
  simp only [insertLeaf, hkey, if_true]
  constructor
  case leaves =>
    intro v
    simp only [mem_updateLeafStatus, updateLeafStatus_nodes, RadixCache.updateNode,
      update_of_ne hu.symm, update_self, (hbump _).1, (hbump _).2.2.2.2]
    by_cases hv : v = s.counter
    · simp [hv, TreeNode.new]
    · rw [if_neg hv]
      by_cases hvu : v = u
      · simp [hvu, hu, setChild_ne_nil]
      · simp [hv, hvu]
  case other =>
    intro v hvu hv
    simp [RadixCache.updateNode, update_of_ne hvu, update_of_ne hv]
  all_goals simp [RadixCache.updateNode, update_of_ne hu, update_of_ne hu.symm,
    hbump, TreeNode.new]

variable (hps : 0 < c.pageSize) (h : Book c s held live) (hu : u = s.rootNode ∨ u ∈ live)
variable (hkey : 0 < key.len) (haligned : key.Aligned c.pageSize)
variable (hvalue : value.length = key.len)
variable (hfree : (s.nodes u).children.lookup (key.childKey c.pageSize) = none)

theorem LeafAt.tree (hs : LeafAt c s s' u key value) :
    PageTree.LeafAt c.pageSize s.tree s'.tree u s.counter key value where
  atNew := by simp only [RadixCache.tree, hs.new]
  atParent := by simp only [RadixCache.tree, hs.parentChildren, hs.parentFields]
  other v hvu hv := by simp only [RadixCache.tree, hs.other v hvu hv]

include hps h hu hkey haligned hvalue hfree in
theorem LeafAt.addLeaf (hs : LeafAt c s s' u key value) :
    AddLeaf (view c s) (view c s') s.rootNode live u s.counter (key.childKey c.pageSize)
      (key.syms c.pageSize) (pages c.pageSize value) :=
  hs.tree.addLeaf hps h.paged hu hkey haligned hvalue hfree

include h in
theorem LeafAt.slots_eq (hs : LeafAt c s s' u key value) :
    s'.slots (Insert.insert s.counter live) = s.slots live + value :=
  hs.tree.slots_eq h.paged

include hps h hu hkey haligned hvalue hfree in
theorem LeafAt.book (hs : LeafAt c s s' u key value) :
    Book c s' (update held s.counter 0) (Insert.insert s.counter live) := by
  have hfresh := h.counter_fresh
  have hne : ∀ {v : Nat}, v = s.rootNode ∨ v ∈ live → v ≠ s.counter := h.paged.ne_counter
  have hlock : ∀ {v : Nat}, v ≠ s.counter → (s'.nodes v).lockRef = (s.nodes v).lockRef := by
    intro v hv
    by_cases hvu : v = u
    · subst hvu
      exact hs.parentFields.2.2.2
    · rw [hs.other v hvu hv]
  have hsize : ∀ (p : Int → Prop) [DecidablePred p], s'.sizeOf (Insert.insert s.counter live) p =
      (if p 0 then (key.len : Int) else 0) + s.sizeOf live p := by
    intro p _
    have hsum : s'.sizeOf (Insert.insert s.counter live) p =
        (if p (s'.nodes s.counter).lockRef then (key.len : Int) else 0) + s.sizeOf live p :=
      hs.tree.sum_eq h.paged fun v hv => by rw [hlock (hne (.inr hv))]
    rwa [hs.new.2.2.2.2] at hsum
  have hpaged := hs.tree.paged hps h.paged hu hkey haligned hvalue hfree
  rw [← hs.rootNode, ← hs.counter] at hpaged
  refine ⟨hpaged.wf, hpaged.fresh, hpaged.aligned, hpaged.values, ?_, ?_, ?_, ?_, ?_⟩
  · intro v hv
    rcases Finset.mem_insert.mp hv with rfl | hv
    · rw [update_self, hs.new.2.2.2.2]
      rfl
    · rw [update_of_ne (hne (.inr hv)), hlock (hne (.inr hv)), h.lock v hv]
  · rw [hs.rootNode, hlock (hne (.inl rfl)), h.rootLock]
  · rw [hs.evictableSize, hsize, h.evictable, if_pos rfl, add_comm]
  · rw [hs.protectedSize, hsize, h.locked, if_neg (lt_irrefl _), zero_add]
  · intro v
    rw [hs.leaves, h.leaves]
    by_cases hvn : v = s.counter
    · subst hvn
      simp [hs.new]
    · simp only [hvn, false_or, Finset.mem_insert]
      by_cases hvu : v = u
      · subst hvu
        simp [hs.parentChildren, setChild_ne_nil]
      · rw [hs.other v hvu hvn]
        simp [hvu]

end InsertLeaf

section LockNode

variable {held : Nat → Nat} {live : Finset Nat} {v : Nat} {border d : Int}

theorem lockNode_shape (border d : Int) (v : Nat) (s : RadixCache σ) :
    SameShape s (lockNode border d v s).2 := by
  refine ⟨fun w => ?_, by simp [lockNode, RadixCache.updateNode], by simp [lockNode,
    RadixCache.updateNode]⟩
  by_cases hw : w = v
  · subst hw
    simp [lockNode, RadixCache.updateNode]
  · simp [lockNode, RadixCache.updateNode, update_of_ne hw]

@[simp] theorem lockNode_lockRef (w : Nat) : ((lockNode border d v s).2.nodes w).lockRef =
    (s.nodes w).lockRef + if w = v then d else 0 := by
  by_cases hw : w = v
  · subst hw
    simp [lockNode, RadixCache.updateNode]
  · simp [lockNode, RadixCache.updateNode, hw]

/-- A change of one lock count moves the key from one size to the other exactly when
the count leaves or reaches zero. -/
theorem Book.lockNode (h : Book c s held live) (hv : v ∈ live) {m : Nat}
    (hm : (m : Int) = held v + d)
    (hmove : ∀ len : Int, (if (held v : Int) = border then d * len else 0) =
      (if held v = 0 then len else 0) - if m = 0 then len else 0) :
    Book c (lockNode border d v s).2 (update held v m) live := by
  have hshape := lockNode_shape border d v s
  have hlock : ∀ w ∈ live, ((RadixCache.lockNode border d v s).2.nodes w).lockRef =
      update held v m w := by
    intro w hw
    rw [lockNode_lockRef, h.lock w hw]
    by_cases hwv : w = v
    · subst hwv
      rw [if_pos rfl, update_self, hm]
    · rw [if_neg hwv, update_of_ne hwv, add_zero]
  have hsize : ∀ (p : Int → Prop) [DecidablePred p],
      (RadixCache.lockNode border d v s).2.sizeOf live p = s.sizeOf live p +
        ((if p m then ((s.nodes v).key.len : Int) else 0) -
          if p (held v) then ((s.nodes v).key.len : Int) else 0) := by
    intro p _
    rw [sizeOf, sizeOf, ← Finset.add_sum_erase _ _ hv,
      ← Finset.add_sum_erase live (fun w => if p (s.nodes w).lockRef then _ else _) hv]
    have hrest : ∑ w ∈ live.erase v, (if p ((RadixCache.lockNode border d v s).2.nodes w).lockRef
        then (((RadixCache.lockNode border d v s).2.nodes w).key.len : Int) else 0) =
        ∑ w ∈ live.erase v, if p (s.nodes w).lockRef then ((s.nodes w).key.len : Int) else 0 := by
      refine Finset.sum_congr rfl fun w hw => ?_
      rw [lockNode_lockRef, if_neg (Finset.ne_of_mem_erase hw), add_zero, (hshape.nodes w).2.2.1]
    rw [hrest, hlock v hv, update_self, (hshape.nodes v).2.2.1, h.lock v hv]
    omega
  have hmove' := hmove (s.nodes v).key.len
  refine ⟨?_, ?_, ?_, ?_, hlock, ?_, ?_, ?_, ?_⟩
  · rw [hshape.view_eq, hshape.rootNode]
    exact h.wf
  · rw [hshape.rootNode, hshape.counter]
    exact h.fresh
  · intro w hw
    rw [(hshape.nodes w).2.2.1]
    exact h.aligned w hw
  · intro w hw
    rw [(hshape.nodes w).2.2.1, (hshape.nodes w).2.2.2]
    exact h.values w hw
  · have hroot : s.rootNode ≠ v := fun heq => h.wf.root_notMem (heq ▸ hv)
    rw [hshape.rootNode, lockNode_lockRef, if_neg hroot, add_zero, h.rootLock]
  · rw [hsize]
    simp only [RadixCache.lockNode, RadixCache.updateNode, updateLeafStatus_evictableSize,
      h.lock v hv, hmove', h.evictable, Int.natCast_eq_zero]
    omega
  · rw [hsize]
    simp only [RadixCache.lockNode, RadixCache.updateNode, updateLeafStatus_protectedSize,
      h.lock v hv, hmove', h.locked, Int.natCast_pos]
    by_cases h₀ : held v = 0 <;> by_cases h₁ : m = 0 <;> simp [h₀, h₁, Nat.pos_iff_ne_zero]
  · intro w
    have hmem : w ∈ (RadixCache.lockNode border d v s).2.evictableLeaves ↔
        if w = v then (s.nodes v).lockRef + d ≤ 0 ∧ (s.nodes v).children = []
        else w ∈ s.evictableLeaves := by
      simp only [RadixCache.lockNode, RadixCache.updateNode, mem_updateLeafStatus,
        update_self]
    rw [hmem, (hshape.nodes w).1, lockNode_lockRef]
    by_cases hwv : w = v
    · subst hwv
      rw [if_pos rfl, if_pos rfl, h.lock w hv, ← hm]
      simp only [hv, true_and, Int.natCast_eq_zero]
      refine and_congr_left fun _ => ?_
      omega
    · rw [if_neg hwv, if_neg hwv, add_zero]
      exact h.leaves w

end LockNode

section DeleteLeaf

variable {held : Nat → Nat} {live : Finset Nat} {x u : Nat}

structure DeletedAt (c : CacheParams) (s s' : RadixCache σ) (u x : Nat) : Prop where
  counter : s'.counter = s.counter
  rootNode : s'.rootNode = s.rootNode
  evictableSize : s'.evictableSize = s.evictableSize - (s.nodes x).key.len
  protectedSize : s'.protectedSize = s.protectedSize
  leaves : ∀ v, v ∈ s'.evictableLeaves ↔
    if v = u then (s.nodes u).lockRef ≤ 0 ∧ (s'.nodes u).children = []
    else v ≠ x ∧ v ∈ s.evictableLeaves
  parentChildren : (s'.nodes u).children =
    popChild ((s.nodes x).key.childKey c.pageSize) (s.nodes u).children
  fields : ∀ v, (s'.nodes v).parent = (s.nodes v).parent ∧ (s'.nodes v).key = (s.nodes v).key ∧
    (s'.nodes v).value = (s.nodes v).value ∧ (s'.nodes v).lockRef = (s.nodes v).lockRef
  other : ∀ v, v ≠ u → s'.nodes v = s.nodes v

theorem deleteLeaf_at (hparent : (s.nodes x).parent = some u) (hux : u ≠ x)
    (hedge : (s.nodes u).children.lookup ((s.nodes x).key.childKey c.pageSize) = some x) :
    ∃ s', deleteLeaf c x s = some s' ∧ DeletedAt c s s' u x := by
  simp only [deleteLeaf, hparent, hedge, if_true, Option.some.injEq]
  refine ⟨_, rfl, ?_⟩
  constructor
  case leaves =>
    intro v
    simp only [mem_updateLeafStatus, updateLeafStatus_nodes, RadixCache.updateNode,
      update_self, Finset.mem_erase]
  case fields =>
    intro v
    by_cases hv : v = u
    · subst hv
      simp [RadixCache.updateNode]
    · simp [RadixCache.updateNode, update_of_ne hv]
  case other =>
    intro v hv
    simp [RadixCache.updateNode, update_of_ne hv]
  all_goals simp [RadixCache.updateNode, update_of_ne hux.symm]

variable (h : Book c s held live) (hx : x ∈ live) (hleaf : (s.nodes x).children = [])
variable (hu : u = s.rootNode ∨ u ∈ live)
variable (hedge : (s.nodes u).children.lookup ((s.nodes x).key.childKey c.pageSize) = some x)

theorem DeletedAt.tree (hs : DeletedAt c s s' u x) :
    PageTree.RemovedAt c.pageSize s.tree s'.tree u x where
  atParent := by simp only [RadixCache.tree, hs.parentChildren, hs.fields]
  other v hv := by simp only [RadixCache.tree, hs.other v hv]

include hleaf hu hedge in
theorem DeletedAt.removeLeaf (hs : DeletedAt c s s' u x) :
    RemoveLeaf (view c s) (view c s') s.rootNode live u x
      ((s.nodes x).key.childKey c.pageSize) :=
  hs.tree.removeLeaf hleaf hu hedge

include hx in
theorem DeletedAt.slots_eq (hs : DeletedAt c s s' u x) :
    s.slots live = s'.slots (live.erase x) + (s.nodes x).value :=
  hs.tree.slots_eq hx

include h hx hleaf hu hedge in
theorem DeletedAt.book (hs : DeletedAt c s s' u x) (hlock : held x = 0) :
    Book c s' held (live.erase x) := by
  have hux : u ≠ x := fun heq => by
    have hparent := (h.wf.child _ _ _ hu hedge).2.1
    rw [heq] at hparent
    exact h.wf.parent_ne hx hparent
  have hsize : ∀ (p : Int → Prop) [DecidablePred p], s.sizeOf live p =
      (if p 0 then ((s.nodes x).key.len : Int) else 0) + s'.sizeOf (live.erase x) p := by
    intro p _
    have hsum : s.sizeOf live p =
      (if p (s.nodes x).lockRef then ((s.nodes x).key.len : Int) else 0) +
        s'.sizeOf (live.erase x) p :=
      hs.tree.sum_eq hx fun v _ => by rw [(hs.fields v).2.2.2]
    rwa [h.lock x hx, hlock] at hsum
  have hpaged := hs.tree.paged h.paged hleaf hu hedge
  rw [← hs.rootNode, ← hs.counter] at hpaged
  refine ⟨hpaged.wf, hpaged.fresh, hpaged.aligned, hpaged.values, ?_, ?_, ?_, ?_, ?_⟩
  · intro v hv
    rw [(hs.fields v).2.2.2]
    exact h.lock v (Finset.mem_of_mem_erase hv)
  · rw [hs.rootNode, (hs.fields _).2.2.2, h.rootLock]
  · rw [hs.evictableSize, h.evictable, hsize, if_pos rfl]
    omega
  · rw [hs.protectedSize, h.locked, hsize, if_neg (lt_irrefl _), zero_add]
  · intro v
    rw [hs.leaves, (hs.fields v).2.2.2, Finset.mem_erase]
    by_cases hvu : v = u
    · subst hvu
      rw [if_pos rfl]
      rcases hu with hroot | hmem
      · refine iff_of_false (fun hle => ?_) fun hin => ?_
        · have := h.rootLock
          rw [← hroot] at this
          omega
        · exact h.wf.root_notMem (hroot ▸ hin.1.2)
      · have := h.lock v hmem
        simp only [hux, hmem, ne_eq, not_false_eq_true, true_and]
        refine and_congr_left fun _ => ?_
        omega
    · rw [if_neg hvu, h.leaves, hs.other v hvu, and_assoc]

end DeleteLeaf

end RadixCache

end SpecDecode.MemCache
