import SpecDecode.MemCache.SwaRun
import Mathlib.Algebra.BigOperators.Ring.Finset

/-!
# Progress of the eviction in both pools

When a loop of `evict` finds nothing more, nothing is evictable in its pool: the deepest unlocked
node is a leaf. So each pool loses what was asked for or all that was evictable.
-/

namespace SpecDecode.MemCache

open RadixTree

variable {σ : Type}

namespace SwaRadixCache

variable {c : SwaCacheParams} {s s' : SwaRadixCache σ} {live live' : Finset Nat} {v w : Nat}
variable {locks : List Lock} {handles : List Nat} {x : Session σ}

theorem Inv.fullCount_child (h : Inv c s locks handles live) (hv : v ∈ live) {a : ChildKey}
    (hchild : (view c s v).child a = some w) :
    w ∈ live ∧ fullCount c s locks w ≤ fullCount c s locks v := by
  classical
  have hw := (h.book.wf.child v a w (.inr hv) hchild).1
  refine ⟨hw, List.countP_mono_left fun lock hlock hunder => ?_⟩
  rw [decide_eq_true_eq] at hunder ⊢
  have hbelow := (h.book.wf.under_iff_below hw (h.node lock hlock)).mp hunder
  exact (h.book.wf.under_iff_below hv (h.node lock hlock)).mpr (.head ⟨a, hchild⟩ hbelow)

theorem Inv.fullEvictable_eq_zero (h : Inv c s locks handles live)
    (hnone : ∀ v ∈ live, ¬ s.UnlockedLeaf v) : s.fullEvictableSize = 0 := by
  rw [h.book.fullEvictable, sizeOf]
  refine Finset.sum_eq_zero fun v hv => if_neg fun hfree => ?_
  obtain ⟨y, hy, hyfree, hleaf⟩ := h.book.wf.exists_leaf (P := fun u => fullCount c s locks u = 0)
    (fun u hu hzero a w hw => Nat.le_zero.mp (hzero ▸ (h.fullCount_child hu hw).2)) hv hfree
  refine hnone y hy ⟨children_eq_nil_iff.mpr hleaf, ?_⟩
  rw [h.book.fullLock y hy, hyfree]
  exact Int.lt_irrefl 0

theorem Inv.swaEvictable_eq_zero (h : Inv c s locks handles live)
    (hnone : ∀ v ∈ s.swaLruList.order, ¬ s.Unheld v) : s.swaEvictableSize = 0 := by
  rw [h.book.swaEvictable, sizeOf]
  refine Finset.sum_eq_zero fun v hv => if_neg fun hfree => ?_
  refine hnone v ((h.book.lists.swa.mem v).mpr ⟨hv, hfree.1⟩) ?_
  rw [Unheld, h.book.swaLock v hv, hfree.2]
  exact Int.lt_irrefl 0

/-- The full slots of the nodes that were deleted. -/
def fullFreed (s : SwaRadixCache σ) (live live' : Finset Nat) : Nat :=
  ∑ v ∈ live \ live', (s.nodes v).value.length

/-- The window slots of the nodes that had some and have none any more. -/
def swaFreed (s s' : SwaRadixCache σ) (live live' : Finset Nat) : Nat :=
  ∑ v ∈ s.windowed live \ s'.windowed live', (s.nodes v).value.length

variable (hr : Evicted c s s' live live') (h : Inv c s locks handles live)
  (h' : Inv c s' locks [] live')

include hr in
theorem Evicted.frees_length :
    s'.frees.flatten.length = s.frees.flatten.length + s.fullFreed live live' := by
  have hcard := congrArg Multiset.card hr.slots
  simp only [slots, PageTree.slots, Multiset.card_add, Multiset.card_sum,
    Multiset.coe_card] at hcard
  have hvalue : ∑ v ∈ live', (s'.tree v).value.length = ∑ v ∈ live', (s.tree v).value.length :=
    Finset.sum_congr rfl fun v _ => congrArg List.length (hr.value v)
  have hsplit : ∑ v ∈ live \ live', (s.tree v).value.length + ∑ v ∈ live', (s.tree v).value.length =
      ∑ v ∈ live, (s.tree v).value.length := Finset.sum_sdiff hr.sub
  have hfreed : s.fullFreed live live' = ∑ v ∈ live \ live', (s.tree v).value.length := rfl
  omega

include hr h h'

theorem Evicted.fullSize : s.fullEvictableSize = s'.fullEvictableSize + s.fullFreed live live' := by
  rw [h.exact.fullEvictable, h'.exact.fullEvictable, fullFreed, Nat.cast_sum, add_comm,
    ← Finset.sum_sdiff hr.sub]
  congr 1
  · refine Finset.sum_congr rfl fun v hv => if_pos ?_
    obtain ⟨hvlive, hgone⟩ := Finset.mem_sdiff.mp hv
    have hnot := mt (hr.locked v hvlive) hgone
    rw [h.book.fullLock v hvlive] at hnot ⊢
    omega
  · refine Finset.sum_congr rfl fun v _ => ?_
    rw [hr.fullLock, hr.value]

omit h' in
theorem Evicted.held_mem (hv : v ∈ live) (hlock : 0 < (s.nodes v).swaLockRef) :
    v ∈ live' ∧ (s'.nodes v).swaTombstone = (s.nodes v).swaTombstone := by
  refine ⟨hr.locked v hv ?_, hr.held v hlock⟩
  rw [h.book.swaLock v hv] at hlock
  rw [h.book.fullLock v hv]
  have hle := h.swaCount_le hv
  omega

theorem Evicted.swaSize : s.swaEvictableSize = s'.swaEvictableSize + s.swaFreed s' live live' := by
  have hwindowed {t : SwaRadixCache σ} {l : Finset Nat} {hs : List Nat} (ht : Inv c t locks hs l) :
      t.swaEvictableSize = ∑ v ∈ t.windowed l, if (t.nodes v).swaLockRef = 0 then
        ((t.nodes v).value.length : Int) else 0 := by
    rw [ht.exact.swaEvictable, windowed, Finset.sum_filter]
    refine Finset.sum_congr rfl fun v _ => ?_
    rw [ite_and]
  rw [hwindowed h, hwindowed h', swaFreed, Nat.cast_sum, add_comm,
    ← Finset.sum_sdiff hr.windowed_sub]
  congr 1
  · refine Finset.sum_congr rfl fun v hv => if_pos ?_
    obtain ⟨hw, hgone⟩ := Finset.mem_sdiff.mp hv
    obtain ⟨hvlive, htomb⟩ := Finset.mem_filter.mp hw
    have hnot : ¬ 0 < (s.nodes v).swaLockRef := fun hlock => by
      obtain ⟨hlive', hsame⟩ := hr.held_mem h hvlive hlock
      exact hgone (Finset.mem_filter.mpr ⟨hlive', hsame.trans htomb⟩)
    rw [h.book.swaLock v hvlive] at hnot ⊢
    omega
  · refine Finset.sum_congr rfl fun v _ => ?_
    rw [hr.swaLock, hr.value]

omit hr h h'

/-- In every session `evict` fails no assertion and ends. It deletes unlocked leaves and takes
window slots that no window holds, one after the other, leaves no new unlocked leaf that is a
tombstone, and frees what was asked for, or all that was evictable, in both pools. -/
theorem Reached.evict_bothPools (h : Reached c x) (numTokens swaNumTokens : Nat) :
    ∃ e live live', x.cache.evict c numTokens swaNumTokens = some e ∧
      Exact x.cache live ∧ Exact e.cache live' ∧ live' ⊆ live ∧
      Relation.ReflTransGen (EvictStep c) x.cache e.cache ∧
      (∀ v ∈ live, 0 < (x.cache.nodes v).fullLockRef → v ∈ live') ∧
      (∀ v ∈ live, 0 < (x.cache.nodes v).swaLockRef →
        v ∈ live' ∧ (e.cache.nodes v).swaTombstone = (x.cache.nodes v).swaTombstone) ∧
      Settled x.cache e.cache live' ∧
      e.cache.frees.flatten.length =
        x.cache.frees.flatten.length + x.cache.fullFreed live live' ∧
      min (numTokens : Int) x.cache.fullEvictableSize ≤ x.cache.fullFreed live live' ∧
      e.swaNumEvicted = x.cache.swaFreed e.cache live live' ∧
      min (swaNumTokens : Int) x.cache.swaEvictableSize ≤ e.swaNumEvicted := by
  obtain ⟨live, hx⟩ := h.inv
  by_cases hdis : c.disable = true
  · have hrun : x.cache.evict c numTokens swaNumTokens = some ⟨0, 0, x.cache⟩ := by
      simp [SwaRadixCache.evict, hdis]
    obtain rfl := hx.off hdis
    have hexact := hx.inv.exact
    have hfull : x.cache.fullEvictableSize = 0 := hexact.fullEvictable
    have hswa : x.cache.swaEvictableSize = 0 := hexact.swaEvictable
    refine ⟨_, ∅, ∅, hrun, hexact, hexact, Finset.Subset.refl _, .refl, fun v hv => ?_,
      fun v hv => ?_, .refl _ _, rfl, ?_, rfl, ?_⟩
    · exact absurd hv (Finset.notMem_empty v)
    · exact absurd hv (Finset.notMem_empty v)
    · rw [hfull]
      exact min_le_right _ _
    · rw [hswa]
      exact min_le_right _ _
  · obtain ⟨e, mid, liveMid, live', hrun, hend⟩ :=
      hx.inv.evict (Bool.not_eq_true _ ▸ hdis) numTokens swaNumTokens
    have hinv := hx.inv.forget
    have hr : Evicted c x.cache e.cache live live' := hend.toEvicted
    have hfull := hr.fullSize hinv hend.inv
    have hmid := hend.second.fullSize hend.invMid hend.inv
    have hswa := hr.swaSize hinv hend.inv
    have hcount : (e.swaNumEvicted : Int) + e.cache.swaEvictableSize =
      (0 : Nat) + x.cache.swaEvictableSize := hend.swa
    have hfreed : e.swaNumEvicted = x.cache.swaFreed e.cache live live' := by omega
    refine ⟨e, live, live', hrun, hinv.exact, hend.inv.exact, hend.sub, hend.steps, hend.locked,
      fun v hv hlock => hr.held_mem hinv hv hlock, hend.settled, hr.frees_length, ?_, hfreed, ?_⟩
    · obtain henough | hnone := hend.fullStop
      · omega
      · have hzero := hend.invMid.fullEvictable_eq_zero hnone
        omega
    · obtain henough | hnone := hend.swaStop
      · omega
      · have hzero := hend.inv.swaEvictable_eq_zero hnone
        omega

theorem evict_bothPools_locked :
    ∃ e live live', lockedRequest.cache.evict window2 0 1 = some e ∧
      Exact lockedRequest.cache live ∧ Exact e.cache live' ∧ live' ⊆ live ∧
      Relation.ReflTransGen (EvictStep window2) lockedRequest.cache e.cache ∧
      (∀ v ∈ live, 0 < (lockedRequest.cache.nodes v).fullLockRef → v ∈ live') ∧
      (∀ v ∈ live, 0 < (lockedRequest.cache.nodes v).swaLockRef →
        v ∈ live' ∧ (e.cache.nodes v).swaTombstone = (lockedRequest.cache.nodes v).swaTombstone) ∧
      Settled lockedRequest.cache e.cache live' ∧
      e.cache.frees.flatten.length =
        lockedRequest.cache.frees.flatten.length + lockedRequest.cache.fullFreed live live' ∧
      min ((0 : Nat) : Int) lockedRequest.cache.fullEvictableSize ≤
        lockedRequest.cache.fullFreed live live' ∧
      e.swaNumEvicted = lockedRequest.cache.swaFreed e.cache live live' ∧
      min ((1 : Nat) : Int) lockedRequest.cache.swaEvictableSize ≤ e.swaNumEvicted :=
  reached_lockedRequest.evict_bothPools 0 1

end SwaRadixCache

end SpecDecode.MemCache
