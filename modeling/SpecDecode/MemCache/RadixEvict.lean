import SpecDecode.MemCache.RadixRun
import Mathlib.Algebra.BigOperators.Ring.Finset

/-!
# Progress of eviction

A call of `evict` pops unlocked leaves, a parent after its children, until it has freed
what was asked for or nothing evictable is left. What a lock holds stays matched.
-/

namespace SpecDecode.MemCache

open RadixTree

namespace RadixCache

variable {σ : Type} {c : CacheParams} {s s' : RadixCache σ} {live live' : Finset Nat}
variable {locks : List Nat} {x v w : Nat} {victims pops rest : List Nat} {e e' : EvictState σ}
variable {numTokens : Nat}

/-- The heap of `RadixCache.evict` before its loop. -/
def evictStart (s : RadixCache σ) : EvictState σ := ⟨s.evictableLeaves, [], s⟩

/-- The rounds of the loop of `RadixCache.evict` that pop `pops`. -/
def evictRounds (c : CacheParams) (numTokens : Nat) : List Nat → EvictState σ →
    Option (EvictState σ)
  | [], e => some e
  | x :: pops, e =>
      if e.numEvicted < numTokens then (evictNode c x e).bind (evictRounds c numTokens pops)
      else none

theorem evictLoop_append (pops rest : List Nat) (e : EvictState σ) :
    evictLoop c numTokens (pops ++ rest) e =
      (evictRounds c numTokens pops e).bind (evictLoop c numTokens rest) := by
  induction pops generalizing e with
  | nil => rfl
  | cons x pops ih =>
      rw [List.cons_append, evictLoop, evictRounds]
      split
      · cases evictNode c x e with
        | none => rfl
        | some e₁ => exact ih e₁
      · rfl

open Classical in
theorem Inv.lockRef_child (h : Inv c s locks live) (hv : v ∈ live) {a : ChildKey}
    (hchild : (s.nodes v).children.lookup a = some w) :
    w ∈ live ∧ (s.nodes w).lockRef ≤ (s.nodes v).lockRef := by
  have hw := (h.book.wf.child v a w (.inr hv) hchild).1
  refine ⟨hw, ?_⟩
  rw [h.book.lock v hv, h.book.lock w hw]
  refine Int.ofNat_le.mpr (List.countP_mono_left fun x hx hunder => ?_)
  rw [decide_eq_true_eq] at hunder ⊢
  have hbelow := (h.book.wf.under_iff_below hw (h.held x hx)).mp hunder
  exact (h.book.wf.under_iff_below hv (h.held x hx)).mpr (.head ⟨a, hchild⟩ hbelow)

theorem Inv.lockRef_nonneg (h : Inv c s locks live) (hv : v ∈ live) : 0 ≤ (s.nodes v).lockRef := by
  rw [h.book.lock v hv]
  exact Int.natCast_nonneg _

theorem Inv.exists_evictable (h : Inv c s locks live) (hv : v ∈ live)
    (hlock : (s.nodes v).lockRef = 0) : s.evictableLeaves.Nonempty := by
  have hpass : ∀ u ∈ live, (s.nodes u).lockRef = 0 →
      ∀ a w, (view c s u).child a = some w → (s.nodes w).lockRef = 0 := by
    intro u hu hzero a w hw
    obtain ⟨hwlive, hle⟩ := h.lockRef_child hu hw
    have hnonneg := h.lockRef_nonneg hwlive
    omega
  obtain ⟨x, hx, hxlock, hleaf⟩ := h.book.wf.exists_leaf hpass hv hlock
  exact ⟨x, (h.book.leaves x).mpr ⟨hx, hxlock, children_eq_nil_iff.mpr hleaf⟩⟩

theorem Inv.evictableSize_eq_zero (h : Inv c s locks live) (hnone : s.evictableLeaves = ∅) :
    s.evictableSize = 0 := by
  rw [h.book.evictable, sizeOf]
  refine Finset.sum_eq_zero fun v hv => if_neg fun hlock => ?_
  have hsome := h.exists_evictable hv hlock
  rw [hnone] at hsome
  exact Finset.not_nonempty_empty hsome

theorem evictRounds_append : evictRounds c numTokens (pops ++ rest) e =
    (evictRounds c numTokens pops e).bind (evictRounds c numTokens rest) := by
  induction pops generalizing e with
  | nil => rfl
  | cons x pops ih =>
      rw [List.cons_append, evictRounds, evictRounds]
      split
      · cases evictNode c x e with
        | none => rfl
        | some e₁ => exact ih
      · rfl

theorem evictLoop_eq_some_iff : evictLoop c numTokens victims e = some e' ↔
    evictRounds c numTokens victims e = some e' ∧ (numTokens ≤ e'.numEvicted ∨ e'.heap = ∅) := by
  have happend : evictLoop c numTokens (victims ++ []) e = _ := evictLoop_append victims [] e
  rw [List.append_nil] at happend
  rw [happend]
  cases evictRounds c numTokens victims e with
  | none => simp
  | some e₁ =>
      simp only [Option.bind_some, evictLoop, Option.some.injEq]
      split
      · next hmore =>
          refine iff_of_false (fun hnone => Option.some_ne_none _ hnone.symm) ?_
          rintro ⟨rfl, hstop | hstop⟩
          · omega
          · exact hmore.2 hstop
      · next hstop =>
          rw [not_and, not_not] at hstop
          simp only [Option.some.injEq]
          refine ⟨?_, And.left⟩
          rintro rfl
          exact ⟨rfl, (Nat.lt_or_ge _ _).symm.imp_right hstop⟩

theorem evictNode_pop (h : evictNode c x e = some e') : x ∈ e.heap ∧ ∀ y ∈ e.heap,
    c.evictionPolicy.before (e.cache.nodes y) (e.cache.nodes x) = false := by
  by_contra hnot
  rw [evictNode, if_neg hnot] at h
  cases h

structure EvictedSo (c : CacheParams) (locks : List Nat) (live : Finset Nat) (e : EvictState σ)
    (victims : List Nat) (e' : EvictState σ) (live' : Finset Nat) : Prop where
  evicted : EvictedAt c locks e.cache live victims e'.cache live'
  heap : e'.heap = e'.cache.evictableLeaves
  freed : e'.freed = e.freed ++ victims.map fun x => (e.cache.nodes x).value
  nodup : victims.Nodup

theorem evictRounds_spec (hps : 0 < c.pageSize) (h : Inv c e.cache locks live)
    (hheap : e.heap = e.cache.evictableLeaves)
    (hrounds : evictRounds c numTokens victims e = some e') :
    ∃ live', EvictedSo c locks live e victims e' live' := by
  induction victims generalizing e live with
  | nil =>
      obtain rfl := Option.some.inj hrounds
      exact ⟨live, .refl h, hheap, by simp, List.nodup_nil⟩
  | cons x victims ih =>
      rw [evictRounds] at hrounds
      split at hrounds
      · obtain ⟨e₁, hnode, hrounds⟩ := Option.bind_eq_some_iff.mp hrounds
        obtain ⟨hx, hleast⟩ := evictNode_pop hnode
        obtain ⟨s', hnode', hevicted⟩ := evictNode_spec hps h hheap hx hleast
        rw [hnode'] at hnode
        obtain rfl := Option.some.inj hnode
        obtain ⟨live', hr⟩ := ih hevicted.inv rfl hrounds
        refine ⟨live', hevicted.trans hr.evicted, hr.heap, ?_, List.nodup_cons.mpr ⟨?_, hr.nodup⟩⟩
        · rw [hr.freed, List.map_cons, List.append_assoc, List.singleton_append]
          congr 2
          exact List.map_congr_left fun y _ => (hevicted.fields y).2.1
        · intro hmem
          exact Finset.notMem_erase x live (hr.evicted.unlocked x hmem).1
      · cases hrounds

section Evicted

variable (hr : EvictedSo c locks live e victims e' live')
include hr

theorem EvictedSo.live_eq : live' = live \ victims.toFinset := by
  ext v
  rw [hr.evicted.live_eq, Finset.mem_sdiff, List.mem_toFinset]

theorem EvictedSo.subset : victims.toFinset ⊆ live := by
  intro v hv
  exact (hr.evicted.unlocked v (List.mem_toFinset.mp hv)).1

theorem EvictedSo.size (h : Inv c e.cache locks live) : e.cache.evictableSize =
    e'.cache.evictableSize + (victims.map fun x => (e.cache.nodes x).value.length).sum := by
  have hkept : e'.cache.sizeOf live' (fun n => n = 0) = e.cache.sizeOf live' fun n => n = 0 := by
    refine Finset.sum_congr rfl fun v _ => ?_
    rw [(hr.evicted.fields v).1, (hr.evicted.fields v).2.2]
  have hgone : e.cache.sizeOf victims.toFinset (fun n => n = 0) =
      ((victims.map fun x => (e.cache.nodes x).value.length).sum : Nat) := by
    rw [sizeOf, ← List.sum_toFinset _ hr.nodup, Nat.cast_sum]
    refine Finset.sum_congr rfl fun v hv => ?_
    obtain ⟨hlive, hlock⟩ := hr.evicted.unlocked v (List.mem_toFinset.mp hv)
    rw [if_pos hlock, h.book.values v hlive]
  rw [h.book.evictable, hr.evicted.inv.book.evictable, hkept, ← hgone, hr.live_eq]
  exact (Finset.sum_sdiff hr.subset).symm

end Evicted

/-- A loop that stops has freed enough, or all that was evictable. -/
theorem EvictedSo.progress (h : Inv c s locks live)
    (hr : EvictedSo c locks live s.evictStart victims e' live')
    (hstop : numTokens ≤ e'.numEvicted ∨ e'.heap = ∅) :
    min (numTokens : Int) s.evictableSize ≤ e'.numEvicted := by
  have hsize := hr.size h
  have hfreed : e'.numEvicted = (victims.map fun x => (s.nodes x).value.length).sum := by
    rw [EvictState.numEvicted, hr.freed, List.map_append, List.map_map]
    rfl
  rcases hstop with hstop | hstop
  · omega
  · rw [hr.heap] at hstop
    rw [hr.evicted.inv.evictableSize_eq_zero hstop] at hsize
    change s.evictableSize = _ at hsize
    rw [hsize, hfreed]
    simp [evictStart]

theorem EvictedAt.entry_of_lock (h : Inv c s locks live)
    (hr : EvictedAt c locks s live victims s' live') (hw : w ∈ locks) {p q : List ChildKey}
    {b : List σ} (hp : Spells (view c s) s.rootNode w p) (hq : q <+: p)
    (he : Entry (view c s) s.rootNode q b) : Entry (view c s') s.rootNode q b := by
  refine (hr.entry_iff h.book.wf q b).mpr ⟨he, fun x hx i hread => ?_⟩
  obtain ⟨hxlive, hlock⟩ := hr.unlocked x hx
  obtain ⟨v, j, hread', hunder⟩ :=
    h.book.wf.reads_under hp hq (h.book.wf.reads_ne_nil hread (.inl rfl))
  obtain ⟨rfl, _⟩ := h.book.wf.reads_unique hread hread' (.inl rfl)
  have hnot := List.countP_eq_zero.mp (h.notMem_locks hxlive hlock).1 w hw
  simp only [decide_eq_true_eq] at hnot
  exact hnot hunder

theorem EvictedAt.matched (hps : 0 < c.pageSize) (hon : c.disable = false) (h : Inv c s locks live)
    (hr : EvictedAt c locks s live victims s' live') (hw : w ∈ locks) {key : RadixKey} {now : Nat}
    {r : MatchResult σ} {s₁ : RadixCache σ} (hmatch : matchPrefix c key now s = some (r, s₁))
    (hunder : s₁.InSubtree r.lastDeviceNode w) (now' : Nat) :
    ∃ r' s₂, matchPrefix c key now' s' = some (r', s₂) ∧ r'.deviceIndices = r.deviceIndices := by
  obtain ⟨r₀, s₀, live₁, bs, hmatch₀, hm⟩ := matchPrefix_spec key now hps hon h
  obtain ⟨rfl, rfl⟩ := Prod.mk.inj (Option.some.inj (hmatch₀.symm.trans hmatch))
  obtain ⟨p, hp⟩ := h.book.wf.exists_spells (h.held w hw)
  have hp₁ := hm.keeps.spells w p hp
  have hwf₁ := hm.inv.book.wf
  rw [hm.keeps.rootNode] at hwf₁
  have hend : ((alignedKey c key).syms c.pageSize).take bs.length <+: p := by
    have hspells := hm.spells
    rw [List.nil_append] at hspells
    cases hwf₁.spells_live hspells with
    | inl hroot =>
        rw [hroot] at hspells
        rw [hwf₁.spells_unique hspells .root]
        exact List.nil_prefix
    | inr hlive =>
        refine (hwf₁.prefix_iff_under hlive hspells hp₁).mpr ?_
        exact (hwf₁.under_iff_below hlive (hwf₁.spells_live hp₁)).mpr hunder
  have hlongest : Longest (view c s') s'.rootNode [] ((alignedKey c key).syms c.pageSize) bs := by
    rw [hr.rootNode]
    refine hm.longest.shrink (fun i b hget => ?_) fun q b he =>
      ((hr.entry_iff h.book.wf q b).mp he).1
    have hi := (List.getElem?_eq_some_iff.mp hget).1
    have hpre : ((alignedKey c key).syms c.pageSize).take (i + 1) <+: p :=
      (List.take_prefix_take_left hi).trans hend
    exact hr.entry_of_lock h hw hp hpre (hm.longest.entry i b hget)
  obtain ⟨r', s₂, _, bs', hmatch', hm'⟩ := matchPrefix_spec key now' hps hon hr.inv
  refine ⟨r', s₂, hmatch', ?_⟩
  rw [hm'.values, hm.values, hm'.longest.unique hr.inv.book.wf hlongest]

/-- What a call of `evict` that pops `victims` promises on a cache with these locks. -/
structure Evicts (c : CacheParams) (numTokens : Nat) (s : RadixCache σ) (locks victims : List Nat)
    (freed : List (List σ)) (s' : RadixCache σ) : Prop where
  progress : min (numTokens : Int) s.evictableSize ≤ (freed.map List.length).sum
  freed : freed = victims.map fun x => (s.nodes x).value
  nodup : victims.Nodup
  removed : victims.toFinset ⊆ s.treeNodes ∧ s'.treeNodes = s.treeNodes \ victims.toFinset
  unlocked : ∀ x ∈ victims, (s.nodes x).lockRef = 0
  leaf : ∀ pops x rest, victims = pops ++ x :: rest →
    ∃ e, evictRounds c numTokens pops s.evictStart = some e ∧ x ∈ e.cache.treeNodes ∧
      (e.cache.nodes x).children = [] ∧ (e.cache.nodes x).lockRef = 0
  matched : ∀ w ∈ locks, ∀ key now r s₁, s.matchPrefix c key now = some (r, s₁) →
    s₁.InSubtree r.lastDeviceNode w → ∀ now', ∃ r' s₂,
      s'.matchPrefix c key now' = some (r', s₂) ∧ r'.deviceIndices = r.deviceIndices

theorem evict_evicts (hps : 0 < c.pageSize) (hon : c.disable = false) (h : Inv c s locks live)
    {freed : List (List σ)} (hevict : evict c numTokens victims s = some (freed, s')) :
    Evicts c numTokens s locks victims freed s' := by
  simp only [evict, hon, Bool.false_eq_true, if_false, Option.map_eq_some_iff,
    Prod.mk.injEq] at hevict
  obtain ⟨e', hloop, rfl, rfl⟩ := hevict
  obtain ⟨hrounds, hstop⟩ := evictLoop_eq_some_iff.mp hloop
  obtain ⟨live', hr⟩ := evictRounds_spec (e := s.evictStart) hps h rfl hrounds
  refine ⟨hr.progress h hstop, hr.freed, hr.nodup, ?_, fun x hx => (hr.evicted.unlocked x hx).2,
    fun pops x rest heq => ?_, fun w hw key now r s₁ hmatch hunder now' =>
      hr.evicted.matched hps hon h hw hmatch hunder now'⟩
  · rw [h.treeNodes_eq, hr.evicted.inv.treeNodes_eq]
    exact ⟨hr.subset, hr.live_eq⟩
  · have hpops := hrounds
    rw [heq] at hpops
    change evictRounds c numTokens (pops ++ x :: rest) s.evictStart = some e' at hpops
    rw [evictRounds_append] at hpops
    obtain ⟨e, he, hrest⟩ := Option.bind_eq_some_iff.mp hpops
    obtain ⟨live₁, hr₁⟩ := evictRounds_spec (e := s.evictStart) hps h rfl he
    rw [evictRounds] at hrest
    split at hrest
    · obtain ⟨e₁, hnode, _⟩ := Option.bind_eq_some_iff.mp hrest
      have hx := (evictNode_pop hnode).1
      rw [hr₁.heap] at hx
      obtain ⟨hxlive, hlock, hleaf⟩ := (hr₁.evicted.inv.book.leaves x).mp hx
      refine ⟨e, he, ?_, hleaf, hlock⟩
      rw [hr₁.evicted.inv.treeNodes_eq]
      exact hxlive
    · cases hrest

theorem Inv.evict_ends (hps : 0 < c.pageSize) (hon : c.disable = false) (h : Inv c s locks live)
    (hrounds : evictRounds c numTokens pops s.evictStart = some e) :
    pops.length ≤ s.treeNodes.card ∧
      (∀ x ∈ e.heap, (e.cache.nodes x).children = [] ∧ (e.cache.nodes x).lockRef = 0) ∧
      ∃ rest, (s.evict c numTokens (pops ++ rest)).isSome := by
  obtain ⟨live', hr⟩ := evictRounds_spec (e := s.evictStart) hps h rfl hrounds
  obtain ⟨rest, e', hloop⟩ := evictLoop_total numTokens hps hr.evicted.inv hr.heap
  refine ⟨?_, fun x hx => ?_, rest, ?_⟩
  · rw [h.treeNodes_eq, ← List.toFinset_card_of_nodup hr.nodup]
    exact Finset.card_le_card hr.subset
  · rw [hr.heap] at hx
    exact ((hr.evicted.inv.book.leaves x).mp hx).2.symm
  · have hall : evictLoop c numTokens (pops ++ rest) s.evictStart = some e' := by
      rw [evictLoop_append, hrounds]
      exact hloop
    rw [evictStart] at hall
    simp [evict, hon, hall]

theorem evict_evicts_disabled (hoff : c.disable = true) (h : Inv c s locks ∅)
    {freed : List (List σ)} (hevict : evict c numTokens victims s = some (freed, s')) :
    Evicts c numTokens s locks victims freed s' := by
  simp only [evict, hoff, if_true] at hevict
  split at hevict
  · next hnil =>
      obtain ⟨rfl, rfl⟩ := Prod.mk.inj (Option.some.inj hevict)
      subst hnil
      refine ⟨?_, rfl, List.nodup_nil, by simp, by simp, fun pops x rest heq => ?_, ?_⟩
      · rw [h.book.evictable, sizeOf, Finset.sum_empty]
        exact Int.min_le_right _ _
      · simp at heq
      · intro w hw key now r s₁ hmatch _ now'
        simp only [matchPrefix, hoff, Bool.true_or, if_true] at hmatch ⊢
        exact ⟨_, _, rfl, by rw [← (Prod.mk.inj (Option.some.inj hmatch)).1]⟩
  · cases hevict

theorem Inv.evict_ends_disabled (hoff : c.disable = true) (h : Inv c s locks ∅)
    (hrounds : evictRounds c numTokens pops s.evictStart = some e) :
    pops.length ≤ s.treeNodes.card ∧
      (∀ x ∈ e.heap, (e.cache.nodes x).children = [] ∧ (e.cache.nodes x).lockRef = 0) ∧
      ∃ rest, (s.evict c numTokens (pops ++ rest)).isSome := by
  have hnone : ∀ x, x ∉ s.evictStart.heap := fun x hx =>
    Finset.notMem_empty x ((h.book.leaves x).mp hx).1
  cases pops with
  | nil =>
      obtain rfl := Option.some.inj hrounds
      exact ⟨Nat.zero_le _, fun x hx => absurd hx (hnone x), [], by simp [evict, hoff]⟩
  | cons x pops =>
      rw [evictRounds] at hrounds
      split at hrounds
      · obtain ⟨e₁, hnode, _⟩ := Option.bind_eq_some_iff.mp hrounds
        exact absurd (evictNode_pop hnode).1 (hnone x)
      · cases hrounds

/-- In every state of a run, with whatever locks, `evict` ends, however the heap breaks its ties,
and what it has then freed and kept is what `Evicts` asks for. -/
theorem Run.evict_progress {A : PrefixMap ChildKey (List σ)} (hps : 0 < c.pageSize)
    (h : Run c s locks A) (numTokens : Nat) :
    (∀ pops e, evictRounds c numTokens pops s.evictStart = some e →
      pops.length ≤ s.treeNodes.card ∧
      (∀ x ∈ e.heap, (e.cache.nodes x).children = [] ∧ (e.cache.nodes x).lockRef = 0) ∧
      ∃ rest, (s.evict c numTokens (pops ++ rest)).isSome) ∧
    ∀ victims freed s', s.evict c numTokens victims = some (freed, s') →
      Evicts c numTokens s locks victims freed s' := by
  obtain ⟨live, hinv, _, hempty⟩ := h.inv hps
  cases hoff : c.disable with
  | false =>
      exact ⟨fun _ _ hrounds => hinv.evict_ends hps hoff hrounds,
        fun _ _ _ hevict => evict_evicts hps hoff hinv hevict⟩
  | true =>
      rw [hempty hoff] at hinv
      exact ⟨fun _ _ hrounds => hinv.evict_ends_disabled hoff hrounds,
        fun _ _ _ hevict => evict_evicts_disabled hoff hinv hevict⟩

/-- Of a split branch whose front half is locked only the back half goes. -/
theorem Run.evict_split : ∃ (s s' : RadixCache Nat) (A : PrefixMap ChildKey (List Nat)),
    Run ⟨false, 1, false, .lru⟩ s [2] A ∧
      s.evict ⟨false, 1, false, .lru⟩ 5 [1] = some ([[12]], s') ∧
      Evicts ⟨false, 1, false, .lru⟩ 5 s [2] [1] [[12]] s' := by
  have h₁ := Run.call (.insert ⟨[1, 2, 3], none, false⟩ [10, 11, 12] 0 false 1)
    (Run.new (c := ⟨false, 1, false, .lru⟩) 0) (Nat.le_refl 3) rfl
  have h₂ := h₁.call (.matchPrefix ⟨[1, 2, 4], none, false⟩ 2) trivial rfl
  have h₃ := h₂.call (.incLockRef 2) (.single ⟨(none, [.token 1]), by decide⟩) rfl
  exact ⟨_, _, _, h₃, rfl, (h₃.evict_progress (by decide) 5).2 _ _ _ rfl⟩

end RadixCache

end SpecDecode.MemCache
