import SpecDecode.Lib.Cursor
import SpecDecode.MemCache.SwaLockCalls

/-!
# Eviction from the SWA radix cache

`evict` deletes unlocked leaves, together with the tombstones above them that become
childless, and turns nodes without a window lock into tombstones. `Pruned` is what both leave
behind: the nodes that stay keep their values and locks, and the slots of the others were
freed. `Evicted` adds what was done step by step and what locks protect.
-/

namespace SpecDecode.MemCache

open RadixTree Cursor

variable {σ : Type}

namespace SwaRadixCache

variable {c : SwaCacheParams} {s s' : SwaRadixCache σ} {live live' : Finset Nat}
variable {locks : List Lock} {x u node fuel : Nat}

/-- Nodes were deleted or became tombstones; nothing else happened to the others. -/
structure Pruned (c : SwaCacheParams) (s s' : SwaRadixCache σ) (live live' : Finset Nat) :
    Prop where
  sub : live' ⊆ live
  rootNode : s'.rootNode = s.rootNode
  counter : s'.counter = s.counter
  reads : ∀ p v i, Reads (view c s') s.rootNode p v i ↔
    Reads (view c s) s.rootNode p v i ∧ v ∈ live'
  parent : ∀ v, (s'.nodes v).parent = (s.nodes v).parent
  value : ∀ v, (s'.nodes v).value = (s.nodes v).value
  leaf : ∀ v, (s.nodes v).children = [] → (s'.nodes v).children = []
  tombstone : ∀ v, (s.nodes v).swaTombstone = true → (s'.nodes v).swaTombstone = true
  fullLock : ∀ v, (s'.nodes v).fullLockRef = (s.nodes v).fullLockRef
  swaLock : ∀ v, (s'.nodes v).swaLockRef = (s.nodes v).swaLockRef
  slots : s'.slots live' = s.slots live
  pagesOk : ∀ P : List σ → Prop, PagesOk P c s live → PagesOk P c s' live'

theorem Pruned.refl (hwf : Wf (view c s) s.rootNode live) : Pruned c s s live live :=
  ⟨Finset.Subset.refl _, rfl, rfl, fun _ _ _ => (and_iff_left_of_imp fun hr =>
    (hwf.reads_live hr (.inl rfl)).1).symm, fun _ => rfl, fun _ => rfl, fun _ h => h, fun _ h => h,
    fun _ => rfl, fun _ => rfl, rfl, fun _ h => h⟩

variable {live'' : Finset Nat} {handles : List Nat}

theorem Pruned.trans {s'' : SwaRadixCache σ} (h : Pruned c s s' live live')
    (h' : Pruned c s' s'' live' live'') : Pruned c s s'' live live'' where
  sub := h'.sub.trans h.sub
  reads p v i := by
    rw [← h.rootNode, h'.reads, h.rootNode, h.reads, and_assoc]
    exact and_congr_right fun _ => ⟨And.right, fun hv => ⟨h'.sub hv, hv⟩⟩
  pagesOk P hok := h'.pagesOk P (h.pagesOk P hok)
  rootNode := h'.rootNode.trans h.rootNode
  counter := h'.counter.trans h.counter
  parent v := (h'.parent v).trans (h.parent v)
  value v := (h'.value v).trans (h.value v)
  leaf v hv := h'.leaf v (h.leaf v hv)
  tombstone v hv := h'.tombstone v (h.tombstone v hv)
  fullLock v := (h'.fullLock v).trans (h.fullLock v)
  swaLock v := (h'.swaLock v).trans (h.swaLock v)
  slots := h'.slots.trans h.slots

/-- One node loses slots: an unlocked leaf is deleted, or a node without a window lock becomes a
tombstone. -/
inductive EvictStep (c : SwaCacheParams) (s : SwaRadixCache σ) : SwaRadixCache σ → Prop where
  | delete {x : Nat} {s' : SwaRadixCache σ} (hleaf : (s.nodes x).children = [])
      (hlock : (s.nodes x).fullLockRef = 0) (hrun : s.dropLeaf c x = some s') : EvictStep c s s'
  | tombstone {x size : Nat} {s' : SwaRadixCache σ} (hlock : (s.nodes x).swaLockRef = 0)
      (hrun : s.tombstoneNode x size = some s') : EvictStep c s s'

structure Evicted (c : SwaCacheParams) (s s' : SwaRadixCache σ) (live live' : Finset Nat) : Prop
    extends Pruned c s s' live live' where
  steps : Relation.ReflTransGen (EvictStep c) s s'
  locked : ∀ v ∈ live, 0 < (s.nodes v).fullLockRef → v ∈ live'
  held : ∀ v, 0 < (s.nodes v).swaLockRef → (s'.nodes v).swaTombstone = (s.nodes v).swaTombstone
  fullOrder : s'.fullLruList.order.Sublist s.fullLruList.order
  swaOrder : s'.swaLruList.order.Sublist s.swaLruList.order

theorem Evicted.refl (hwf : Wf (view c s) s.rootNode live) : Evicted c s s live live :=
  ⟨.refl hwf, .refl, fun _ hv _ => hv, fun _ _ => rfl, .refl _, .refl _⟩

theorem Evicted.trans {s'' : SwaRadixCache σ} (h : Evicted c s s' live live')
    (h' : Evicted c s' s'' live' live'') : Evicted c s s'' live live'' where
  toPruned := h.toPruned.trans h'.toPruned
  steps := h.steps.trans h'.steps
  locked v hv hlock := h'.locked v (h.locked v hv hlock) (by rwa [h.fullLock])
  held v hlock := (h'.held v (by rwa [h.swaLock])).trans (h.held v hlock)
  fullOrder := h'.fullOrder.trans h.fullOrder
  swaOrder := h'.swaOrder.trans h.swaOrder

/-- No tombstone became an unlocked leaf. -/
def Settled (s s' : SwaRadixCache σ) (live' : Finset Nat) : Prop :=
  ∀ v ∈ live', (s'.nodes v).swaTombstone = true → (s'.nodes v).children = [] →
    (s'.nodes v).fullLockRef = 0 → (s.nodes v).swaTombstone = true ∧ (s.nodes v).children = []

theorem Settled.refl (s : SwaRadixCache σ) (live : Finset Nat) : Settled s s live :=
  fun _ _ htomb hleaf _ => ⟨htomb, hleaf⟩

theorem Settled.trans {s'' : SwaRadixCache σ} (h : Settled s s' live')
    (h' : Settled s' s'' live'') (hp : Pruned c s' s'' live' live'') : Settled s s'' live'' := by
  intro v hv htomb hleaf hlock
  obtain ⟨htomb', hleaf'⟩ := h' v hv htomb hleaf hlock
  exact h v (hp.sub hv) htomb' hleaf' (hp.fullLock v ▸ hlock)

def windowed (s : SwaRadixCache σ) (live : Finset Nat) : Finset Nat :=
  live.filter fun v => (s.nodes v).swaTombstone = false

theorem Pruned.windowed_sub (h : Pruned c s s' live live') :
    s'.windowed live' ⊆ s.windowed live := by
  intro v hv
  obtain ⟨hv, htomb⟩ := Finset.mem_filter.mp hv
  refine Finset.mem_filter.mpr ⟨h.sub hv, ?_⟩
  by_contra hbad
  rw [h.tombstone v (by simpa using hbad)] at htomb
  cases htomb

theorem Inv.card_le (h : Inv c s locks handles live) : live.card ≤ s.counter := by
  rw [← Finset.card_range s.counter]
  apply Finset.card_le_card
  intro v hv
  exact Finset.mem_range.mpr (h.book.paged.fresh v (.inr hv))

/-- Nodes that were returned need not be kept usable. -/
theorem Inv.forget (h : Inv c s locks handles live) : Inv c s locks [] live :=
  ⟨h.book, h.node, h.window, h.uuids, by simp⟩

theorem removeNode_sublist {nodes : Nat → SwaTreeNode σ} {l l' : LruList}
    (h : l.removeNode nodes x = some l') : l'.order.Sublist l.order := by
  rw [LruList.removeNode] at h
  split at h
  · obtain rfl := Option.some.inj h
    exact List.erase_sublist
  · cases h

section Delete

private theorem onLists_removeNode {s₁ : SwaRadixCache σ} {tombstone : Bool}
    (h : s.onLists tombstone (fun nodes l => l.removeNode nodes x) = some s₁) :
    s₁.fullLruList.order.Sublist s.fullLruList.order ∧
      s₁.swaLruList.order.Sublist s.swaLruList.order := by
  obtain ⟨s₂, hfull, hswa⟩ := Option.bind_eq_some_iff.mp h
  obtain ⟨l, hl, rfl⟩ := Option.map_eq_some_iff.mp hfull
  cases tombstone with
  | true =>
      obtain rfl := Option.some.inj hswa
      exact ⟨removeNode_sublist hl, .refl _⟩
  | false =>
      obtain ⟨l', hl', rfl⟩ := Option.map_eq_some_iff.mp hswa
      exact ⟨removeNode_sublist hl, removeNode_sublist hl'⟩

theorem dropLeaf_sublist (h : s.dropLeaf c x = some s') :
    s'.fullLruList.order.Sublist s.fullLruList.order ∧
      s'.swaLruList.order.Sublist s.swaLruList.order := by
  obtain ⟨s₁, hlists, hdelete⟩ := Option.bind_eq_some_iff.mp h
  obtain ⟨s₂, hpop, rfl⟩ := Option.map_eq_some_iff.mp hdelete
  rw [popLeaf] at hpop
  split at hpop
  · cases hpop
  · split at hpop
    · obtain rfl := Option.some.inj hpop
      have hsub := onLists_removeNode hlists
      exact hsub
    · cases hpop

theorem DropTo.pruned {full swa : Nat → Nat} (h : Book c s full swa live) (hx : x ∈ live)
    (hs : DropTo c s s' u x) (hremove : RemoveLeaf (view c s) (view c s') s.rootNode live u x
      ((s.tree x).key.childKey c.pageSize)) : Pruned c s s' live (live.erase x) where
  reads p v i := by
    rw [hremove.reads_iff h.wf]
    refine and_congr_right fun hr => ?_
    rw [Finset.mem_erase, and_iff_left (h.wf.reads_live hr (.inl rfl)).1]
  pagesOk P hok := by
    refine ⟨hs.tree.pagesOk hok.tree, fun slots hslots => ?_⟩
    rw [hs.frees] at hslots
    rcases List.mem_append.mp hslots with hslots | hslots
    · exact hok.frees slots hslots
    · rw [List.mem_singleton.mp hslots]
      refine ⟨?_, hok.tree x hx⟩
      rw [h.value_length hx]
      exact Nat.dvd_mul_left _ _
  sub := Finset.erase_subset _ _
  rootNode := by rw [hs.rest]
  counter := by rw [hs.rest]
  parent v := (hs.tree.fields v).1
  value v := (hs.tree.fields v).2.2
  leaf _ := hs.tree.leaf
  tombstone v := (hs.flags v).1.trans
  fullLock v := (hs.flags v).2.1
  swaLock v := (hs.flags v).2.2.1
  slots := by
    rw [slots, slots, hs.tree.slots_eq hx, hs.frees, List.flatten_append, List.flatten_singleton,
      ← Multiset.coe_add, add_comm (s.frees.flatten : Multiset σ), ← add_assoc]
    rfl

theorem DropTo.above {u : Nat} (hs : DropTo c s s' u x) (h : Book c s full swa live)
    (hremove : RemoveLeaf (view c s) (view c s') s.rootNode live u x
      ((s.tree x).key.childKey c.pageSize)) {w : Nat} (hw : w = s.rootNode ∨ w ∈ live) (hwx : w ≠ x)
    (hfree : ¬ Under (view c s) s.rootNode x w) : SameAbove c s s' w := by
  have hroot : s'.rootNode = s.rootNode := by rw [hs.rest]
  refine ⟨fun v => by rw [hroot, hremove.under_iff h.wf hw], fun v p hv => ?_, fun v _ => ?_⟩
  · rw [hroot, hremove.spells_iff h.wf, and_iff_left]
    rintro rfl
    rcases hv with hv | hv
    · exact hwx hv.symm
    · exact hfree hv
  · rw [pagesOf, (hs.tree.fields v).2.1]
    rfl

theorem DropTo.evicted {u : Nat} (hs : DropTo c s s' u x) (h : Book c s full swa live)
    (hx : x ∈ live) (hleaf : (s.nodes x).children = []) (hlock : (s.nodes x).fullLockRef = 0)
    (hremove : RemoveLeaf (view c s) (view c s') s.rootNode live u x
      ((s.tree x).key.childKey c.pageSize)) (hrun : s.dropLeaf c x = some s') :
    Evicted c s s' live (live.erase x) := by
  refine ⟨hs.pruned h hx hremove, .single (.delete hleaf hlock hrun), fun v hv hpos => ?_,
    fun v _ => (hs.flags v).1, (dropLeaf_sublist hrun).1, (dropLeaf_sublist hrun).2⟩
  refine Finset.mem_erase_of_ne_of_mem ?_ hv
  rintro rfl
  omega

theorem Inv.dropLeaf (h : Inv c s locks [] live) (hx : x ∈ live)
    (hleaf : (s.nodes x).children = []) (hfull : fullCount c s locks x = 0) :
    ∃ u s', s.dropLeaf c x = some s' ∧ Evicted c s s' live (live.erase x) ∧
      (s.nodes x).parent = some u ∧ (u = s.rootNode ∨ u ∈ live.erase x) ∧
      (s.nodes u).children ≠ [] ∧ DropTo c s s' u x ∧ Inv c s' locks [] (live.erase x) := by
  have hwf := h.book.wf
  have hswa : swaCount c s locks x = 0 := Nat.le_zero.mp (hfull ▸ h.swaCount_le hx)
  obtain ⟨u, s', hrun, hu, hparent, hedge, hs, hbook⟩ := h.book.dropLeaf hx hleaf hfull hswa
  have hremove : RemoveLeaf (view c s) (view c s') s.rootNode live u x
      ((s.tree x).key.childKey c.pageSize) := hs.tree.removeLeaf hleaf hu hedge
  have hroot : s'.rootNode = s.rootNode := by rw [hs.rest]
  have hux : u ≠ x := by
    rintro rfl
    exact hwf.parent_ne hx hparent
  -- nothing that is locked lies at or below the leaf
  have hfree : ∀ lock ∈ locks, ¬ Under (view c s) s.rootNode x lock.node := by
    classical
    intro lock hlock hunder
    have hzero := List.countP_eq_zero.mp hfull lock hlock
    simp [hunder] at hzero
  have hne : ∀ lock ∈ locks, lock.node ≠ x := by
    intro lock hlock heq
    refine hfree lock hlock ?_
    rw [heq]
    exact .self hwf hx
  have habove : ∀ lock ∈ locks, SameAbove c s s' lock.node := fun lock hlock =>
    hs.above h.book hremove (h.node lock hlock) (hne lock hlock) (hfree lock hlock)
  have hedge' : (s.nodes u).children ≠ [] := by
    intro hnil
    have hedge : (s.nodes u).children.lookup _ = some x := hedge
    rw [hnil] at hedge
    cases hedge
  have hlock : (s.nodes x).fullLockRef = 0 := by
    rw [h.book.fullLock x hx, hfull]
    rfl
  refine ⟨u, s', hrun, hs.evicted h.book hx hleaf hlock hremove hrun, hparent,
    hu.imp_right (Finset.mem_erase_of_ne_of_mem hux), hedge', hs,
    hbook.congr_counts (fun v _ => fullCount_congr fun lock hlock => (habove lock hlock).under v)
      fun v hv => swaCount_congr fun lock _ _ => ?_,
    fun lock hlock => ?_, fun lock hlock hheld => ?_,
    h.uuids.of_marks (by rw [hs.rest]) fun v hv uuid hu => ?_, by simp⟩
  · simp only [Covers, hroot, hremove.spells_iff hwf, and_iff_left (Finset.ne_of_mem_erase hv)]
  · rw [hroot]
    exact (h.node lock hlock).imp_right (Finset.mem_erase_of_ne_of_mem (hne lock hlock))
  · obtain ⟨path, start, hw⟩ := h.window lock hlock hheld
    exact ⟨path, start, hw.sameAbove (habove lock hlock) fun v _ _ hu =>
      (hs.flags v).2.2.2.trans hu⟩
  · exact ⟨Finset.mem_of_mem_erase hv, (hs.flags v).2.2.2.symm.trans hu⟩

theorem dropLeaf_tombstone (htomb : (s.nodes x).swaTombstone = true) :
    s.dropLeaf c x = ((s.free (s.nodes x).value).onFull fun nodes l => l.removeNode nodes x).bind
      (deleteTombstoneLeaf c x) := by
  have hnodes : ∀ s₁,
      (s.free (s.nodes x).value).onFull (fun nodes l => l.removeNode nodes x) = some s₁ →
      s₁.nodes = s.nodes := by
    intro s₁ hs₁
    simp only [onFull, Option.map_eq_some_iff] at hs₁
    obtain ⟨l, _, rfl⟩ := hs₁
    rfl
  rw [SwaRadixCache.dropLeaf, onLists, htomb]
  cases hfull : (s.free (s.nodes x).value).onFull fun nodes l => l.removeNode nodes x with
  | none => rfl
  | some s₁ =>
      simp only [Option.bind_some, if_true, SwaRadixCache.deleteLeaf,
        SwaRadixCache.deleteTombstoneLeaf, hnodes s₁ hfull, htomb, sub_zero]
      exact Option.map_id'

theorem Inv.fullLock_le {handles : List Nat} (h : Inv c s locks handles live) (hx : x ∈ live)
    (hlock : ¬ 0 < (s.nodes x).fullLockRef) : fullCount c s locks x = 0 := by
  rw [h.book.fullLock x hx] at hlock
  omega

/-- Tombstones were deleted from `u` upwards, and `w` stays above them. -/
structure Cascaded (c : SwaCacheParams) (s s' : SwaRadixCache σ) (live live' : Finset Nat)
    (u w : Nat) : Prop extends Evicted c s s' live live' where
  removed : ∀ v ∈ live, v ∉ live' →
    (s.nodes v).swaTombstone = true ∧ (v = u ∨ (s.nodes v).children ≠ [])
  leaves : ∀ v ∈ live', (s'.nodes v).children = [] → (s.nodes v).children = [] ∧ v ≠ u ∨ v = w
  settled : (s'.nodes w).children = [] →
    w = s'.rootNode ∨ (s'.nodes w).swaTombstone = false ∨ 0 < (s'.nodes w).fullLockRef
  flags : ∀ v, (s'.nodes v).swaTombstone = (s.nodes v).swaTombstone
  swaSize : s'.swaEvictableSize = s.swaEvictableSize

theorem Cascaded.refl (hwf : Wf (view c s) s.rootNode live)
    (hstop : ¬ ((s.nodes u).swaTombstone = true ∧ (s.nodes u).children = [] ∧ u ≠ s.rootNode ∧
      ¬ 0 < (s.nodes u).fullLockRef)) : Cascaded c s s live live u u where
  toEvicted := .refl hwf
  removed v hv hgone := absurd hv hgone
  leaves v _ hleaf := by
    by_cases hvu : v = u
    · exact Or.inr hvu
    · exact Or.inl ⟨hleaf, hvu⟩
  settled hleaf := by
    by_cases hroot : u = s.rootNode
    · exact Or.inl hroot
    · refine Or.inr ?_
      by_contra hbad
      obtain ⟨htomb, hlock⟩ := not_or.mp hbad
      exact hstop ⟨Bool.not_eq_false _ ▸ htomb, hleaf, hroot, hlock⟩
  flags _ := rfl
  swaSize := rfl

theorem Cascaded.drop {s'' : SwaRadixCache σ} {live'' : Finset Nat} {w w' : Nat}
    (htomb : (s.nodes u).swaTombstone = true) (hs : DropTo c s s' w u)
    (hevicted : Evicted c s s' live (live.erase u)) (hw : (s.nodes w).children ≠ [])
    (h : Cascaded c s' s'' (live.erase u) live'' w w') : Cascaded c s s'' live live'' u w' where
  toEvicted := hevicted.trans h.toEvicted
  removed v hv hgone := by
    by_cases hvu : v = u
    · subst hvu
      exact ⟨htomb, Or.inl rfl⟩
    · obtain ⟨htomb', hor⟩ := h.removed v (Finset.mem_erase_of_ne_of_mem hvu hv) hgone
      refine ⟨(hs.flags v).1.symm.trans htomb', Or.inr ?_⟩
      obtain rfl | hne := hor
      · exact hw
      · exact mt (hevicted.leaf v) hne
  leaves v hv hleaf := by
    have hvu : v ≠ u := Finset.ne_of_mem_erase (h.sub hv)
    obtain ⟨hleaf', hvw⟩ | hvw := h.leaves v hv hleaf
    · have hsame : (s'.tree v).children = (s.tree v).children := by rw [hs.tree.other v hvw]
      exact Or.inl ⟨hsame.symm.trans hleaf', hvu⟩
    · exact Or.inr hvw
  settled := h.settled
  flags v := (h.flags v).trans (hs.flags v).1
  swaSize := by
    have hswa : s'.swaEvictableSize = s.swaEvictableSize := by
      rw [hs.rest, htomb]
      exact sub_zero _
    exact h.swaSize.trans hswa

theorem iterativelyDeleteTombstoneLeaf_spec {k : Nat} (h : Inv c s locks [] live)
    (hparent : (s.nodes node).parent = some u) (hu : u = s.rootNode ∨ u ∈ live)
    (hfuel : live.card < fuel) :
    ∃ last n s' live' w, iterativelyDeleteTombstoneLeaf c fuel node k s = some (last, n, s') ∧
      Cascaded c s s' live live' u w ∧ (s'.nodes last).parent = some w ∧
      s'.fullEvictableSize + n = s.fullEvictableSize + k ∧ Inv c s' locks [] live' := by
  induction fuel generalizing s live node u k with
  | zero => exact absurd hfuel (Nat.not_lt_zero _)
  | succ fuel ih =>
      simp only [iterativelyDeleteTombstoneLeaf, hparent]
      by_cases hdelete : (s.nodes u).swaTombstone = true ∧ (s.nodes u).children = [] ∧
          u ≠ s.rootNode ∧ ¬ 0 < (s.nodes u).fullLockRef
      · obtain ⟨htomb, hleaf, hroot, hlock⟩ := hdelete
        have hlive := hu.resolve_left hroot
        have hswa : (s.nodes u).swaLockRef = 0 := by
          rw [h.book.swaLock u hlive, h.book.tombstone u hlive htomb]
          rfl
        obtain ⟨w, s', hrun, hevicted, hparent', hw, hchildren, hs, hinv⟩ :=
          h.dropLeaf hlive hleaf (h.fullLock_le hlive hlock)
        have hcard : (live.erase u).card < fuel := by
          rw [Finset.card_erase_of_mem hlive]
          have := Finset.card_pos.mpr ⟨u, hlive⟩
          omega
        have hsize : s'.fullEvictableSize = s.fullEvictableSize - (s.nodes u).value.length := by
          have hlen : (s.nodes u).value.length = (s.tree u).key.len := h.book.paged.values u hlive
          rw [hlen, hs.rest]
        obtain ⟨last, n, s'', live'', w', hrun', hcascade, hlast, hcount, hinv'⟩ :=
          ih (k := k + (s.nodes u).value.length) hinv ((hevicted.parent u).trans hparent')
            (hevicted.rootNode ▸ hw) hcard
        refine ⟨last, n, s'', live'', w', ?_, hcascade.drop htomb hs hevicted hchildren, hlast, ?_,
          hinv'⟩
        · rw [if_pos ⟨htomb, hleaf, hroot, hlock⟩, if_pos hswa]
          rw [dropLeaf_tombstone htomb] at hrun
          simp only [Option.bind_eq_bind, ← Option.bind_assoc, hrun, Option.bind_some, hrun']
        · omega
      · rw [if_neg hdelete]
        exact ⟨node, k, s, live, u, rfl, .refl h.book.wf hdelete, hparent, rfl, h⟩

structure Progress (c : SwaCacheParams) (e e' : EvictState σ) (live live' : Finset Nat) : Prop
    extends Evicted c e.cache e'.cache live live' where
  settled : Settled e.cache e'.cache live'
  swa : e'.swaNumEvicted + e'.cache.swaEvictableSize = e.swaNumEvicted + e.cache.swaEvictableSize

theorem Progress.refl {e : EvictState σ} (hwf : Wf (view c e.cache) e.cache.rootNode live) :
    Progress c e e live live := ⟨.refl hwf, .refl e.cache live, rfl⟩

theorem Progress.trans {e e' e'' : EvictState σ} {live'' : Finset Nat}
    (h : Progress c e e' live live') (h' : Progress c e' e'' live' live'') :
    Progress c e e'' live live'' where
  toEvicted := h.toEvicted.trans h'.toEvicted
  settled := h.settled.trans h'.settled h'.toPruned
  swa := h'.swa.trans h.swa

structure LeafEvicted (c : SwaCacheParams) (e e' : EvictState σ) (live live' : Finset Nat)
    (x w : Nat) : Prop extends Progress c e e' live live' where
  gone : x ∉ live'
  removed : ∀ v ∈ live, v ∉ live' →
    v = x ∨ (e.cache.nodes v).swaTombstone = true ∧ (e.cache.nodes v).children ≠ []
  leaves : ∀ v ∈ live', (e'.cache.nodes v).children = [] →
    (e.cache.nodes v).children = [] ∨ v = w
  flags : ∀ v, (e'.cache.nodes v).swaTombstone = (e.cache.nodes v).swaTombstone
  full : e'.fullNumEvicted + e'.cache.fullEvictableSize =
    e.fullNumEvicted + e.cache.fullEvictableSize

theorem evictLeaf_spec {e : EvictState σ} (h : Inv c e.cache locks [] live) (hx : x ∈ live)
    (hleaf : (e.cache.nodes x).children = []) (hlock : ¬ 0 < (e.cache.nodes x).fullLockRef) :
    ∃ last e' live' w, evictLeaf c x e = some (last, e') ∧ LeafEvicted c e e' live live' x w ∧
      (e'.cache.nodes last).parent = some w ∧ Inv c e'.cache locks [] live' := by
  obtain ⟨u, s, hrun, hevicted, hparent, hu, hchildren, hs, hinv⟩ :=
    h.dropLeaf hx hleaf (h.fullLock_le hx hlock)
  obtain ⟨last, n, s', live', w, hrun', hcascade, hlast, hcount, hinv'⟩ :=
    iterativelyDeleteTombstoneLeaf_spec (k := 0) hinv ((hevicted.parent x).trans hparent)
      (hevicted.rootNode ▸ hu) (Nat.lt_succ_of_le hinv.card_le)
  have hlen : (e.cache.nodes x).value.length = (e.cache.tree x).key.len := h.book.paged.values x hx
  have hgone : x ∉ live' := fun hmem => Finset.notMem_erase x live (hcascade.sub hmem)
  have hleaves : ∀ v ∈ live', (s'.nodes v).children = [] →
      (e.cache.nodes v).children = [] ∨ v = w := by
    intro v hv hnil
    obtain ⟨hnil, hvu⟩ | hvw := hcascade.leaves v hv hnil
    · have hsame : (s.tree v).children = (e.cache.tree v).children := by rw [hs.tree.other v hvu]
      exact Or.inl (hsame.symm.trans hnil)
    · exact Or.inr hvw
  refine ⟨last, ⟨e.fullNumEvicted + (e.cache.nodes x).value.length + n, e.swaNumEvicted +
      (if (e.cache.nodes x).swaTombstone then 0 else (e.cache.nodes x).value.length), s'⟩,
    live', w, ?_,
    ⟨⟨hevicted.trans hcascade.toEvicted, fun v hv htomb hnil hfree => ?_, ?_⟩, hgone,
      fun v hv hv' => ?_, hleaves, fun v => (hcascade.flags v).trans (hs.flags v).1, ?_⟩,
    hlast, hinv'⟩
  · rw [SwaRadixCache.dropLeaf] at hrun
    simp only [evictLeaf, Option.bind_eq_bind, ← Option.bind_assoc, hrun, Option.bind_some, hrun']
  · have htomb' := ((hcascade.flags v).trans (hs.flags v).1).symm.trans htomb
    obtain hold | rfl := hleaves v hv hnil
    · exact ⟨htomb', hold⟩
    · -- the node above the deleted ones would have been deleted too
      obtain hroot | hkept | hlocked := hcascade.settled hnil
      · exact absurd (hroot ▸ hv) hinv'.book.wf.root_notMem
      · rw [hkept] at htomb
        cases htomb
      · have hfree : (s'.nodes v).fullLockRef = 0 := hfree
        omega
  · show ((e.swaNumEvicted + (if (e.cache.nodes x).swaTombstone then 0
      else (e.cache.nodes x).value.length) : Nat) : Int) + s'.swaEvictableSize = _
    have hsize : s.swaEvictableSize = e.cache.swaEvictableSize -
        if (e.cache.nodes x).swaTombstone then 0 else ((e.cache.tree x).key.len : Int) := by
      rw [hs.rest]
    have hkept := hcascade.swaSize
    split at hsize
    · rename_i htomb
      rw [if_pos htomb]
      omega
    · rename_i htomb
      rw [if_neg htomb]
      omega
  · by_cases hvx : v = x
    · exact Or.inl hvx
    · obtain ⟨htomb, hor⟩ := hcascade.removed v (Finset.mem_erase_of_ne_of_mem hvx hv) hv'
      refine Or.inr ⟨(hs.flags v).1.symm.trans htomb, ?_⟩
      obtain rfl | hne := hor
      · exact hchildren
      · exact mt (hevicted.leaf v) hne
  · show ((e.fullNumEvicted + (e.cache.nodes x).value.length + n : Nat) : Int) +
      s'.fullEvictableSize = _
    have hsize : s.fullEvictableSize = e.cache.fullEvictableSize - (e.cache.tree x).key.len := by
      rw [hs.rest]
    omega

end Delete

section EvictFull

def UnlockedLeaf (s : SwaRadixCache σ) (v : Nat) : Prop :=
  (s.nodes v).children = [] ∧ ¬ 0 < (s.nodes v).fullLockRef

theorem unlockedLeaf_iff {l : LruList} (hkind : l.isSwaList = false) (v : Nat) :
    decide (¬ (0 < l.lockRef s.nodes v ∨ (s.nodes v).children ≠ [])) = true ↔ s.UnlockedLeaf v := by
  simp only [LruList.lockRef, hkind, Bool.false_eq_true, if_false, decide_eq_true_eq, not_or,
    not_not]
  exact And.comm

theorem getLeafLruNoLock_cleared {l : LruList} (hkind : l.isSwaList = false) :
    Cleared s.UnlockedLeaf l.order (l.getLeafLruNoLock s.nodes) := by
  have hfind := cleared_find
    (fun v => decide (¬ (0 < l.lockRef s.nodes v ∨ (s.nodes v).children ≠ []))) l.order
  simp only [unlockedLeaf_iff hkind] at hfind
  exact hfind

theorem getPrevLeafNoLock_cleared {l : LruList} (hkind : l.isSwaList = false)
    (hnodup : l.order.Nodup) (h : Cleared s.UnlockedLeaf l.order (some x)) :
    ∃ y, l.getPrevLeafNoLock s.nodes x = some y ∧
      Cleared (fun v => s.UnlockedLeaf v ∧ v ≠ x) l.order y :=
  ⟨_, if_pos h.mem, h.prev (unlockedLeaf_iff hkind) hnodup⟩

theorem LeafEvicted.cleared {e e' : EvictState σ} {w : Nat} {z : Option Nat}
    (h : LeafEvicted c e e' live live' x w) (hinv : Inv c e.cache locks [] live)
    (hinv' : Inv c e'.cache locks [] live')
    (hz : Cleared (fun v => e.cache.UnlockedLeaf v ∧ v ≠ x) e.cache.fullLruList.order z) :
    Cleared e'.cache.UnlockedLeaf e'.cache.fullLruList.order
      (if (e'.cache.nodes w).children = [] then e'.cache.fullLruList.getLeafLruNoLock e'.cache.nodes
        else z) := by
  by_cases hw : (e'.cache.nodes w).children = []
  · rw [if_pos hw]
    exact getLeafLruNoLock_cleared hinv'.book.lists.full.kind
  · rw [if_neg hw]
    refine hz.sublist h.fullOrder hinv.book.lists.full.nodup (fun v hv => ?_) fun v hv hleaf => ?_
    · subst hv
      obtain ⟨⟨hleaf, hlock⟩, hvx⟩ := hz.holds
      have hlive := (hinv.book.lists.full.mem v).mp hz.mem
      have hlive' : v ∈ live' := by
        by_contra hgone
        obtain hbad | ⟨_, hbad⟩ := h.removed v hlive hgone
        · exact hvx hbad
        · exact hbad hleaf
      exact ⟨(hinv'.book.lists.full.mem v).mpr hlive', h.leaf v hleaf, by rwa [h.fullLock]⟩
    · have hlive' := (hinv'.book.lists.full.mem v).mp hv
      refine ⟨⟨?_, by rw [← h.fullLock]; exact hleaf.2⟩, fun heq => h.gone (heq ▸ hlive')⟩
      refine (h.leaves v hlive' hleaf.1).resolve_right fun heq => hw ?_
      rw [← heq]
      exact hleaf.1

/-- The first loop deletes unlocked leaves until it has counted enough or none is left. -/
theorem evictFullLoop_spec {n : Nat} {y : Option Nat} {e : EvictState σ}
    (h : Inv c e.cache locks [] live)
    (hy : Cleared e.cache.UnlockedLeaf e.cache.fullLruList.order y) (hfuel : live.card < fuel) :
    ∃ e' live', evictFullLoop c n fuel y e = some e' ∧ Progress c e e' live live' ∧
      Inv c e'.cache locks [] live' ∧
      e'.fullNumEvicted + e'.cache.fullEvictableSize =
        e.fullNumEvicted + e.cache.fullEvictableSize ∧
      (n ≤ e'.fullNumEvicted ∨ ∀ v ∈ live', ¬ e'.cache.UnlockedLeaf v) := by
  induction fuel generalizing e live y with
  | zero => exact absurd hfuel (Nat.not_lt_zero _)
  | succ fuel ih =>
      cases y with
      | none =>
          refine ⟨e, live, by rw [evictFullLoop], .refl h.book.wf, h, rfl, Or.inr fun v hv => ?_⟩
          exact hy v ((h.book.lists.full.mem v).mpr hv)
      | some x =>
          rw [evictFullLoop]
          by_cases hmore : e.fullNumEvicted < n ∧ x ∈ e.cache.fullLruList.order
          · have hx : x ∈ live := (h.book.lists.full.mem x).mp hmore.2
            obtain ⟨hleaf, hlock⟩ := hy.holds
            have hroot : x ≠ e.cache.rootNode := fun heq => h.book.wf.root_notMem (heq ▸ hx)
            have hzero : (e.cache.nodes x).fullLockRef = 0 := by
              rw [h.book.fullLock x hx, h.fullLock_le hx hlock]
              rfl
            obtain ⟨z, hprev, hz⟩ := getPrevLeafNoLock_cleared h.book.lists.full.kind
              h.book.lists.full.nodup hy
            obtain ⟨last, e', live', w, hrun, hevicted, hlast, hinv⟩ :=
              evictLeaf_spec h hx hleaf hlock
            have hcard : live'.card < fuel := by
              have hlt := Finset.card_lt_card
                ((Finset.ssubset_iff_of_subset hevicted.sub).mpr ⟨x, hx, hevicted.gone⟩)
              omega
            obtain ⟨e'', live'', hrun', hprogress, hinv', hfull, hstop⟩ :=
              ih hinv (hevicted.cleared h hinv hz) hcard
            refine ⟨e'', live'', ?_, hevicted.toProgress.trans hprogress, hinv',
              hfull.trans hevicted.full, hstop⟩
            rw [if_pos hmore, if_pos ⟨hroot, hzero⟩]
            simp only [Option.bind_eq_bind, hprev, Option.bind_some, hrun, hlast, hrun']
          · rw [if_neg hmore]
            refine ⟨e, live, rfl, .refl h.book.wf, h, rfl, Or.inl ?_⟩
            exact Nat.not_lt.mp fun hlt => hmore ⟨hlt, hy.mem⟩

end EvictFull

section EvictSwa

theorem Inv.tombstoneNode (h : Inv c s locks [] live) (hx : x ∈ live)
    (htomb : (s.nodes x).swaTombstone = false) (hlock : (s.nodes x).swaLockRef = 0) (size : Nat)
    (hsize : size = (s.nodes x).key.len) :
    ∃ s', s.tombstoneNode x size = some s' ∧ Evicted c s s' live live ∧
      SwaOnly s s' x true (s.nodes x).swaLockRef ∧
      s'.swaLruList.order = s.swaLruList.order.erase x ∧ Inv c s' locks [] live := by
  have hzero : swaCount c s locks x = 0 := by
    rw [h.book.swaLock x hx] at hlock
    exact Int.ofNat_eq_zero.mp hlock
  obtain ⟨s', hrun, hto, hbook, horder⟩ := h.book.tombstoneNode hx htomb hzero hsize
  have hfields : ∀ v, (s'.nodes v).toPageNode = (s.nodes v).toPageNode := congrFun hto.tree
  have hlocks : ∀ v, (s'.nodes v).fullLockRef = (s.nodes v).fullLockRef ∧
      (s'.nodes v).swaLockRef = (s.nodes v).swaLockRef := by
    intro v
    by_cases hv : v = x
    · rw [hv, hto.self]
      exact ⟨rfl, (h.book.swaLock x hx).symm⟩
    · rw [hto.other v hv]
      exact ⟨rfl, rfl⟩
  have hpruned : Pruned c s s' live live := by
    refine ⟨Finset.Subset.refl _, ?_, ?_, ?_, ?_, ?_, ?_, ?_, ?_, ?_, ?_, ?_⟩
    · exact hto.keeps.rootNode
    · exact hto.keeps.counter
    · intro p v i
      rw [hto.keeps.view_eq]
      exact (and_iff_left_of_imp fun hr => (h.book.wf.reads_live hr (.inl rfl)).1).symm
    · exact fun v => congrArg PageNode.parent (hfields v)
    · exact fun v => congrArg PageNode.value (hfields v)
    · exact fun v hv => (congrArg PageNode.children (hfields v)).trans hv
    · intro v hv
      by_cases hvx : v = x
      · rw [hvx, hto.self]
      · rwa [hto.other v hvx]
    · exact fun v => (hlocks v).1
    · exact fun v => (hlocks v).2
    · rw [slots, slots, hto.tree, hto.frees]
    · refine fun P hok => ⟨?_, ?_⟩
      · rw [hto.tree]
        exact hok.tree
      · rw [hto.frees]
        exact hok.frees
  have hfullList : s'.fullLruList = s.fullLruList := by rw [hto.rest]
  refine ⟨s', hrun, ⟨hpruned, .single (.tombstone hlock hrun), fun v hv _ => hv,
    fun v hpos => ?_, ?_, ?_⟩, ?_, horder, ?_⟩
  · have hvx : v ≠ x := by
      rintro rfl
      omega
    rw [hto.other v hvx]
  · rw [hfullList]
  · rw [horder]
    exact List.erase_sublist
  · rw [h.book.swaLock x hx]
    exact hto
  · refine h.retire hto.keeps hto.sameUuid (by rw [hto.rest]) (fun lock hlock => ?_) hbook (by simp)
    exact ⟨h.node lock hlock, h.window lock hlock⟩

def Unheld (s : SwaRadixCache σ) (v : Nat) : Prop := ¬ 0 < (s.nodes v).swaLockRef

theorem unheld_iff {l : LruList} (hkind : l.isSwaList = true) (v : Nat) :
    decide (¬ 0 < l.lockRef s.nodes v) = true ↔ s.Unheld v := by
  simp only [LruList.lockRef, hkind, if_true, decide_eq_true_eq]
  exact Iff.rfl

theorem getLruNoLock_cleared {l : LruList} (hkind : l.isSwaList = true) :
    Cleared s.Unheld l.order (l.getLruNoLock s.nodes) := by
  have hfind := cleared_find (fun v => decide (¬ 0 < l.lockRef s.nodes v)) l.order
  simp only [unheld_iff hkind] at hfind
  exact hfind

theorem getPrevNoLock_cleared {l : LruList} (hkind : l.isSwaList = true) (hnodup : l.order.Nodup)
    (h : Cleared s.Unheld l.order (some x)) :
    ∃ y, l.getPrevNoLock s.nodes x = some y ∧
      Cleared (fun v => s.Unheld v ∧ v ≠ x) l.order y :=
  ⟨_, if_pos h.mem, h.prev (unheld_iff hkind) hnodup⟩

/-- The next node of the second loop is still in the list behind an eviction. -/
theorem Evicted.cleared {z : Option Nat} (h : Evicted c s s' live live')
    (hinv : Inv c s locks [] live) (hgone : x ∉ s'.swaLruList.order)
    (hkept : ∀ v ∈ s.swaLruList.order, v ≠ x → v ∈ s'.swaLruList.order)
    (hz : Cleared (fun v => s.Unheld v ∧ v ≠ x) s.swaLruList.order z) :
    Cleared s'.Unheld s'.swaLruList.order z := by
  refine hz.sublist h.swaOrder hinv.book.lists.swa.nodup (fun v hv => ?_) fun v hv hfree => ?_
  · subst hv
    obtain ⟨hfree, hvx⟩ := hz.holds
    refine ⟨hkept v hz.mem hvx, ?_⟩
    rw [Unheld, h.swaLock]
    exact hfree
  · refine ⟨?_, fun heq => hgone (heq ▸ hv)⟩
    rw [Unheld, ← h.swaLock]
    exact hfree

theorem Inv.tombstoneNode_progress {e : EvictState σ} (h : Inv c e.cache locks [] live)
    (hx : x ∈ live) (htomb : (e.cache.nodes x).swaTombstone = false)
    (hlock : (e.cache.nodes x).swaLockRef = 0)
    (hkept : (e.cache.nodes x).children ≠ [] ∨ 0 < (e.cache.nodes x).fullLockRef) (size : Nat)
    (hsize : size = (e.cache.nodes x).key.len) :
    ∃ s', e.cache.tombstoneNode x size = some s' ∧
      Progress c e { e with
        swaNumEvicted := e.swaNumEvicted + (e.cache.nodes x).value.length, cache := s' } live live ∧
      (s'.nodes x).swaTombstone = true ∧
      s'.swaLruList.order = e.cache.swaLruList.order.erase x ∧ Inv c s' locks [] live := by
  obtain ⟨s', hrun, hevicted, hto, horder, hinv⟩ := h.tombstoneNode hx htomb hlock size hsize
  refine ⟨s', hrun, ⟨hevicted, fun v hv htomb' hleaf hfree => ?_, ?_⟩, ?_, horder, hinv⟩
  · have htomb' : (s'.nodes v).swaTombstone = true := htomb'
    have hleaf : (s'.nodes v).children = [] := hleaf
    have hfree : (s'.nodes v).fullLockRef = 0 := hfree
    by_cases hvx : v = x
    · subst hvx
      rw [hto.self] at hleaf hfree
      obtain hbad | hbad := hkept
      · exact absurd hleaf hbad
      · have hfree : (e.cache.nodes v).fullLockRef = 0 := hfree
        omega
    · rw [hto.other v hvx] at htomb' hleaf
      exact ⟨htomb', hleaf⟩
  · have hlen : (e.cache.nodes x).value.length = (e.cache.nodes x).key.len :=
      h.book.paged.values x hx
    have hsub : s'.swaEvictableSize = e.cache.swaEvictableSize - size := by
      obtain ⟨s₁, hlist, rfl⟩ := Option.map_eq_some_iff.mp hrun
      obtain ⟨l, _, rfl⟩ := Option.map_eq_some_iff.mp hlist
      rfl
    show ((e.swaNumEvicted + (e.cache.nodes x).value.length : Nat) : Int) + s'.swaEvictableSize = _
    omega
  · rw [hto.self]

/-- The second loop takes sliding-window slots from one node after the other, until it has
counted enough or every node that has some is held by a window. -/
theorem evictSwaLoop_spec {m : Nat} {y : Option Nat} {e : EvictState σ}
    (h : Inv c e.cache locks [] live) (hy : Cleared e.cache.Unheld e.cache.swaLruList.order y)
    (hfuel : (e.cache.windowed live).card < fuel) :
    ∃ e' live', evictSwaLoop c m fuel y e = some e' ∧ Progress c e e' live live' ∧
      Inv c e'.cache locks [] live' ∧
      (m ≤ e'.swaNumEvicted ∨ ∀ v ∈ e'.cache.swaLruList.order, ¬ e'.cache.Unheld v) := by
  induction fuel generalizing e live y with
  | zero => exact absurd hfuel (Nat.not_lt_zero _)
  | succ fuel ih =>
      cases y with
      | none => exact ⟨e, live, by rw [evictSwaLoop], .refl h.book.wf, h, Or.inr hy⟩
      | some x =>
          rw [evictSwaLoop]
          by_cases hmore : e.swaNumEvicted < m ∧ x ∈ e.cache.swaLruList.order
          · obtain ⟨hx, htomb⟩ := (h.book.lists.swa.mem x).mp hmore.2
            have hroot : x ≠ e.cache.rootNode := fun heq => h.book.wf.root_notMem (heq ▸ hx)
            have hlock : (e.cache.nodes x).swaLockRef = 0 := by
              have hle : ¬ 0 < (e.cache.nodes x).swaLockRef := hy.holds
              rw [h.book.swaLock x hx] at hle ⊢
              omega
            obtain ⟨z, hprev, hz⟩ := getPrevNoLock_cleared h.book.lists.swa.kind
              h.book.lists.swa.nodup hy
            have hxw : x ∈ e.cache.windowed live := Finset.mem_filter.mpr ⟨hx, htomb⟩
            have hcard : ∀ {s' live'}, Pruned c e.cache s' live live' → x ∉ s'.windowed live' →
                (s'.windowed live').card < fuel := by
              intro s' live' hpruned hgone
              have hlt := Finset.card_lt_card
                ((Finset.ssubset_iff_of_subset hpruned.windowed_sub).mpr ⟨x, hxw, hgone⟩)
              omega
            rw [if_pos hmore, if_pos ⟨by rw [htomb]; exact Bool.false_ne_true, hroot, hlock⟩]
            simp only [Option.bind_eq_bind, hprev, Option.bind_some]
            by_cases hkept : (e.cache.nodes x).children ≠ [] ∨ 0 < (e.cache.nodes x).fullLockRef
            · obtain ⟨s', hrun, hprogress, htomb', horder, hinv⟩ :=
                h.tombstoneNode_progress hx htomb hlock hkept
                  (if (e.cache.nodes x).children ≠ [] then (e.cache.nodes x).key.len
                    else (e.cache.nodes x).value.length)
                  (by
                    have hlen : (e.cache.nodes x).value.length = (e.cache.nodes x).key.len :=
                      h.book.paged.values x hx
                    rw [hlen, ite_self])
              have hgone : x ∉ s'.windowed live := by
                simp [windowed, htomb']
              have hnext := hprogress.cleared h
                (by rw [horder]; exact h.book.lists.swa.nodup.not_mem_erase)
                (fun v hv hvx => by rw [horder]; exact (List.mem_erase_of_ne hvx).mpr hv) hz
              obtain ⟨e'', live'', hrun', hprogress', hinv', hstop⟩ :=
                ih hinv hnext (hcard hprogress.toPruned hgone)
              refine ⟨e'', live'', ?_, hprogress.trans hprogress', hinv', hstop⟩
              rw [if_pos hkept]
              simp only [hrun, Option.bind_some, hrun']
            · have hleaf : (e.cache.nodes x).children = [] := by
                by_contra hbad
                exact hkept (.inl hbad)
              have hfree : ¬ 0 < (e.cache.nodes x).fullLockRef := fun hbad => hkept (.inr hbad)
              have hzero : (e.cache.nodes x).fullLockRef = 0 := by
                rw [h.book.fullLock x hx, h.fullLock_le hx hfree]
                rfl
              obtain ⟨last, e', live', w, hrun, hevicted, _, hinv⟩ :=
                evictLeaf_spec h hx hleaf hfree
              have hgone' : x ∉ e'.cache.windowed live' :=
                fun hbad => hevicted.gone (Finset.mem_filter.mp hbad).1
              have hnext := hevicted.toEvicted.cleared h
                (fun hbad => hevicted.gone ((hinv.book.lists.swa.mem x).mp hbad).1)
                (fun v hv hvx => by
                  obtain ⟨hvlive, hvtomb⟩ := (h.book.lists.swa.mem v).mp hv
                  refine (hinv.book.lists.swa.mem v).mpr ⟨?_, (hevicted.flags v).trans hvtomb⟩
                  by_contra hbad
                  obtain heq | ⟨htomb, _⟩ := hevicted.removed v hvlive hbad
                  · exact hvx heq
                  · rw [hvtomb] at htomb
                    cases htomb) hz
              obtain ⟨e'', live'', hrun', hprogress', hinv', hstop⟩ := ih
                (e := { e' with
                  fullNumEvicted := e.fullNumEvicted + (e.cache.nodes x).value.length })
                hinv hnext (hcard hevicted.toPruned hgone')
              have hsame : Progress c e
                  { e' with fullNumEvicted := e.fullNumEvicted + (e.cache.nodes x).value.length }
                  live live' := ⟨hevicted.toEvicted, hevicted.settled, hevicted.swa⟩
              refine ⟨e'', live'', ?_, hsame.trans hprogress', hinv', hstop⟩
              rw [if_neg hkept, if_pos hzero]
              simp only [hrun, Option.bind_some, hrun']
          · rw [if_neg hmore]
            refine ⟨e, live, rfl, .refl h.book.wf, h, Or.inl ?_⟩
            exact Nat.not_lt.mp fun hlt => hmore ⟨hlt, hy.mem⟩

end EvictSwa

theorem evictSwa_spec {m : Nat} {e : EvictState σ} (h : Inv c e.cache locks [] live) :
    ∃ e' live', (if e.swaNumEvicted < m then
        evictSwaLoop c m (e.cache.counter + 1) (e.cache.swaLruList.getLruNoLock e.cache.nodes) e
      else some e) = some e' ∧ Progress c e e' live live' ∧ Inv c e'.cache locks [] live' ∧
      (m ≤ e'.swaNumEvicted ∨ ∀ v ∈ e'.cache.swaLruList.order, ¬ e'.cache.Unheld v) := by
  by_cases hswa : e.swaNumEvicted < m
  · rw [if_pos hswa]
    have hcard : (e.cache.windowed live).card ≤ e.cache.counter :=
      (Finset.card_le_card (Finset.filter_subset _ _)).trans h.card_le
    exact evictSwaLoop_spec h (getLruNoLock_cleared h.book.lists.swa.kind) (Nat.lt_succ_of_le hcard)
  · rw [if_neg hswa]
    exact ⟨e, live, rfl, .refl h.book.wf, h, Or.inl (Nat.not_lt.mp hswa)⟩

/-- What `evict` did when it ends: the first loop left `mid`, and either loop stopped when it had
counted enough or found nothing more. -/
structure EvictEnd (c : SwaCacheParams) (s mid : SwaRadixCache σ) (e : EvictState σ)
    (live liveMid live' : Finset Nat) (locks : List Lock) (n m : Nat) : Prop
    extends Progress c ⟨0, 0, s⟩ e live live' where
  first : Evicted c s mid live liveMid
  second : Evicted c mid e.cache liveMid live'
  invMid : Inv c mid locks [] liveMid
  inv : Inv c e.cache locks [] live'
  fullStop : n ≤ s.fullEvictableSize - mid.fullEvictableSize ∨
    ∀ v ∈ liveMid, ¬ mid.UnlockedLeaf v
  swaStop : m ≤ e.swaNumEvicted ∨ ∀ v ∈ e.cache.swaLruList.order, ¬ e.cache.Unheld v

theorem Inv.evict (h : Inv c s locks handles live) (hon : c.disable = false)
    (n m : Nat) : ∃ e mid liveMid live', s.evict c n m = some e ∧
      EvictEnd c s mid e live liveMid live' locks n m := by
  have hinv : Inv c (⟨0, 0, s⟩ : EvictState σ).cache locks [] live := h.forget
  rw [SwaRadixCache.evict, hon]
  simp only [Bool.false_eq_true, if_false, Option.bind_eq_bind]
  by_cases hn : 0 < n
  · obtain ⟨e, liveMid, hrun, hfirst, hinvMid, hcount, hstop⟩ := evictFullLoop_spec (n := n) hinv
      (getLeafLruNoLock_cleared hinv.book.lists.full.kind) (Nat.lt_succ_of_le h.card_le)
    obtain ⟨e', live', hrun', hsecond, hinv', hstop'⟩ := evictSwa_spec (m := m) hinvMid
    refine ⟨e', e.cache, liveMid, live', ?_, ⟨hfirst.trans hsecond, hfirst.toEvicted,
      hsecond.toEvicted, hinvMid, hinv', hstop.imp_left fun hle => ?_, hstop'⟩⟩
    · rw [if_pos hn]
      simp only [hrun, Option.bind_some, hrun']
    · have hcount : (e.fullNumEvicted : Int) + e.cache.fullEvictableSize =
        (0 : Nat) + s.fullEvictableSize := hcount
      omega
  · obtain ⟨e', live', hrun', hsecond, hinv', hstop'⟩ := evictSwa_spec (m := m) hinv
    refine ⟨e', s, live, live', ?_, ⟨hsecond, .refl hinv.book.wf, hsecond.toEvicted, hinv, hinv',
      Or.inl (by omega), hstop'⟩⟩
    rw [if_neg hn]
    exact hrun'

end SwaRadixCache

end SpecDecode.MemCache
