import SpecDecode.MemCache.KvInvariant
import SpecDecode.MemCache.PagedAlloc
import SpecDecode.MemCache.RadixEvict

/-!
# Room for a prefill batch

Before a batch gets its slots, the tree gives back what the allocator lacks. As long as the pages
of the batch are not more than the free and the evictable ones together, the allocation succeeds.
-/

namespace SpecDecode.MemCache

namespace RadixCache

variable {σ : Type} {c : CacheParams} {s s' : RadixCache σ} {locks locks' : List Nat}
variable {live : Finset Nat}

@[simp]
private theorem splitNode_evictableSize (c : CacheParams) (s : RadixCache σ)
    (child splitLen now : Nat) :
    (s.splitNode c child splitLen now).2.evictableSize = s.evictableSize := by
  unfold splitNode
  simp only
  split <;> rfl

theorem matchLoop_evictableSize {now fuel node : Nat} {key : RadixKey} {m : MatchResult σ}
    (h : matchLoop c now fuel node key s = some (m, s')) : s'.evictableSize = s.evictableSize := by
  induction fuel generalizing s node key m with
  | zero => cases h
  | succ fuel ih =>
      rw [matchLoop] at h
      split at h
      · split at h
        · obtain ⟨-, rfl⟩ := Prod.mk.inj (Option.some.inj h)
          rfl
        · simp only at h
          split at h
          · obtain ⟨-, rfl⟩ := Prod.mk.inj (Option.some.inj h)
            exact splitNode_evictableSize c _ _ _ now
          · obtain ⟨⟨m', s₁⟩, hloop, heq⟩ := Option.map_eq_some_iff.mp h
            obtain ⟨-, rfl⟩ := Prod.mk.inj heq
            exact (ih hloop).trans rfl
      · obtain ⟨-, rfl⟩ := Prod.mk.inj (Option.some.inj h)
        rfl

theorem matchPrefix_evictableSize {key : RadixKey} {now : Nat} {m : MatchResult σ}
    (h : matchPrefix c key now s = some (m, s')) : s'.evictableSize = s.evictableSize := by
  unfold matchPrefix at h
  simp only at h
  split at h
  · obtain ⟨-, rfl⟩ := Prod.mk.inj (Option.some.inj h)
    rfl
  · split at h
    · obtain ⟨-, rfl⟩ := Prod.mk.inj (Option.some.inj h)
      rfl
    · exact (matchLoop_evictableSize h).trans rfl

/-- What can be evicted depends on which nodes are locked, not on how often. -/
theorem Inv.evictableSize_congr (h : Inv c s locks live) (h' : Inv c s' locks' live)
    (hshape : SameShape s s') (hmem : ∀ w, w ∈ locks' ↔ w ∈ locks) :
    s'.evictableSize = s.evictableSize := by
  rw [h.book.evictable, h'.book.evictable]
  refine Finset.sum_congr rfl fun v hv => ?_
  rw [(hshape.nodes v).2.2.1]
  refine if_congr ?_ rfl rfl
  rw [h.book.lock v hv, h'.book.lock v hv]
  simp only [Nat.cast_eq_zero, lockCount, List.countP_eq_zero, decide_eq_true_eq, hshape.view_eq,
    hshape.rootNode, hmem]

end RadixCache

namespace KvState

/-- `alloc_token_slots` or `alloc_paged_token_slots_extend` for a batch. -/
def allocBatch (p : KvParams) (mem : LaunchMem) (reqs : List ExtendReq) (victims : List Nat)
    (s : KvState) : Option (AllocResult × KvState) :=
  let extendNumTokens := (reqs.map (·.extendLen)).sum
  if p.pageSize = 1 then
    (s.evictFromTreeCache p extendNumTokens victims).map fun s =>
      match s.allocator.alloc extendNumTokens with
      | none => (.refused, s)
      | some (out, a) => (.slots (out.map fun slot => (slot : Int)), { s with allocator := a })
  else
    (s.evictFromTreeCache p (extendNumTokens + reqs.length * p.pageSize) victims).map fun s =>
      let (result, a) := s.allocator.allocExtendBatch mem reqs
      (result, { s with allocator := a })

/-- What is free and what can be evicted. -/
def room (s : KvState) : Int := s.allocator.availableSize + s.cache.evictableSize

end KvState

structure KvOwned (p : KvParams) (s : KvState) (locks : List Nat) (live : Finset Nat) : Prop where
  pageSize : s.allocator.pageSize = p.pageSize
  merged : s.allocator.needSort = false → s.allocator.releasePages = []
  tree : RadixCache.Inv p.toCacheParams s.cache locks live
  off : p.disable = true → live = ∅
  paged : RadixCache.Paged p.toCacheParams s.cache
  nodup : (s.allocator.pages + pageHeads p.pageSize (s.cache.slots live)).Nodup

theorem KvInv.kvOwned {p : KvParams} {n : Nat} {s : KvState} {live : Finset Nat}
    (h : KvInv p n s.allocator s.cache s.reqs live)
    (hmerged : s.allocator.needSort = false → s.allocator.releasePages = []) :
    KvOwned p s (s.reqs.filterMap Req.lastNode) live where
  pageSize := h.pageSize
  merged := hmerged
  tree := h.tree
  off := h.off
  paged := h.paged
  nodup := Multiset.nodup_of_le (Multiset.le_add_right _ _) h.nodup

section Room

variable {p : KvParams} {s s' : KvState} {locks victims : List Nat} {live : Finset Nat}
variable {numTokens : Nat}

theorem availableSize_eq (a : Allocator) :
    a.availableSize = Multiset.card a.pages * a.pageSize := by
  rw [Allocator.card_pages, Allocator.availableSize]

private theorem free_merged (l : List Nat) {a : Allocator}
    (h : a.needSort = false → a.releasePages = []) :
    (a.free l).needSort = false → (a.free l).releasePages = [] := by
  unfold Allocator.free
  split
  · exact h
  · split
    · split
      · next hsort => exact fun hfalse => absurd (hsort.symm.trans hfalse) (by decide)
      · exact h
    · split
      · next hsort => exact fun hfalse => absurd (hsort.symm.trans hfalse) (by decide)
      · exact h

theorem foldl_free_merged (freed : List (List Nat)) {a : Allocator}
    (h : a.needSort = false → a.releasePages = []) :
    (freed.foldl (fun a l => a.free l) a).needSort = false →
      (freed.foldl (fun a l => a.free l) a).releasePages = [] := by
  induction freed generalizing a with
  | nil => exact h
  | cons l freed ih => exact ih (free_merged l h)

theorem card_pageHeads_flatten {ps : Nat} (hps : 0 < ps) {freed : List (List Nat)}
    (hlaid : ∀ l ∈ freed, ∃ P, Laid ps l P) (hdvd : ∀ l ∈ freed, ps ∣ l.length) :
    Multiset.card (pageHeads ps (freed.flatten : List Nat)) * ps =
      (freed.map List.length).sum := by
  induction freed with
  | nil =>
      rw [List.flatten_nil, pageHeads_eq_zero (by simp), Multiset.card_zero, Nat.zero_mul]
      rfl
  | cons l freed ih =>
      obtain ⟨P, hP⟩ := hlaid l List.mem_cons_self
      obtain ⟨k, hk⟩ := hdvd l List.mem_cons_self
      have hrest := ih (fun l' hl' => hlaid l' (List.mem_cons_of_mem _ hl'))
        fun l' hl' => hdvd l' (List.mem_cons_of_mem _ hl')
      rw [List.flatten_cons, pageHeads_append, hP.pageHeads_eq hps, Multiset.card_add,
        Multiset.coe_card, hP.length, Nat.add_mul, hrest, List.map_cons, List.sum_cons, hk,
        Nat.mul_comm ps, numPages_mul hps]

/-- As many pages as there are can be taken off the free list. -/
theorem le_makeRoom_length {a : Allocator} (hmerged : a.needSort = false → a.releasePages = [])
    {num needed : Nat} (hneeded : num ≤ needed) (hnum : num ≤ Multiset.card a.pages) :
    num ≤ (a.makeRoom needed).freePages.length := by
  rw [Allocator.card_pages] at hnum
  rw [Allocator.makeRoom_length]
  cases hsort : a.needSort with
  | false =>
      rw [hmerged hsort] at hnum
      simpa using hnum
  | true =>
      split
      · exact hnum
      · next hmany =>
          rw [not_and, Nat.not_lt] at hmany
          exact Nat.le_trans hneeded (hmany rfl)

variable (hps : 0 < p.pageSize) (h : KvOwned p s locks live)

include h

theorem KvOwned.dvd_room : (p.pageSize : Int) ∣ s.room := by
  refine Int.dvd_add ?_ ?_
  · rw [availableSize_eq, h.pageSize]
    exact Int.natCast_dvd_natCast.mpr (Nat.dvd_mul_left _ _)
  · rw [h.tree.book.evictable, RadixCache.sizeOf]
    refine Finset.dvd_sum fun v hv => ?_
    split
    · exact Int.natCast_dvd_natCast.mpr (h.tree.book.aligned v hv)
    · exact dvd_zero _

theorem KvOwned.sameShape {cache : RadixCache Nat} {locks' : List Nat}
    (hshape : RadixCache.SameShape s.cache cache)
    (htree : RadixCache.Inv p.toCacheParams cache locks' live) :
    KvOwned p { s with cache := cache } locks' live where
  pageSize := h.pageSize
  merged := h.merged
  tree := htree
  off := h.off
  paged := (hshape.keeps live).paged h.paged
  nodup := by
    rw [hshape.slots_eq]
    exact h.nodup

include hps

theorem KvOwned.matchPrefix (tokens : List Int) (extraKey : Option String) (now : Nat) :
    ∃ m cache live', s.cache.matchPrefix p.toCacheParams ⟨tokens, extraKey, false⟩ now =
        some (m, cache) ∧
      KvOwned p { s with cache := cache } locks live' ∧
      cache.evictableSize = s.cache.evictableSize ∧
      (m.lastDeviceNode = cache.rootNode ∨ m.lastDeviceNode ∈ live') ∧
      m.deviceIndices.length ≤ tokens.length ∧ (p.disable = true → m.deviceIndices = []) := by
  obtain ⟨m, cache, live', bs, hmatch, hm, hoff⟩ :=
    RadixCache.matchPrefix_any h.off h.tree ⟨tokens, extraKey, false⟩ now hps
  obtain ⟨-, hlength⟩ := hm.laid hps h.paged
  have hspells := hm.inv.book.wf.spells_live (hm.keeps.rootNode ▸ hm.spells)
  refine ⟨m, cache, live', hmatch, ⟨h.pageSize, h.merged, hm.inv, hoff, hm.keeps.paged h.paged, ?_⟩,
    RadixCache.matchPrefix_evictableSize hmatch, hspells, ?_, fun hdis => ?_⟩
  · rw [hm.keeps.slots]
    exact h.nodup
  · have hle := hm.longest.length_le
    rw [alignedKey_tokens, radixKey_syms, length_tokenWord hps] at hle
    calc m.deviceIndices.length = bs.length * p.pageSize := hlength
      _ ≤ keyLen p tokens.length / p.pageSize * p.pageSize := Nat.mul_le_mul_right _ hle
      _ ≤ keyLen p tokens.length := Nat.div_mul_le_self _ _
      _ ≤ tokens.length := keyLen_le _
  · have hempty : some ((⟨[], s.cache.rootNode⟩ : MatchResult Nat), s.cache) = some (m, cache) := by
      rw [← hmatch, RadixCache.matchPrefix]
      simp [show p.toCacheParams.disable = true from hdis]
    obtain ⟨rfl, -⟩ := Prod.mk.inj (Option.some.inj hempty)
    rfl

theorem KvOwned.evict {freed : List (List Nat)} {cache : RadixCache Nat}
    (hevict : s.cache.evict p.toCacheParams numTokens victims = some (freed, cache)) :
    (freed.foldl (fun a l => a.free l) s.allocator).pageSize = p.pageSize ∧
      min (s.allocator.availableSize + numTokens : Int) s.room ≤
        (freed.foldl (fun a l => a.free l) s.allocator).availableSize := by
  obtain ⟨live', hevicted, hfreed, -⟩ := RadixCache.evict_any h.off h.tree hps hevict
  have hprogress : min (numTokens : Int) s.cache.evictableSize ≤ (freed.map List.length).sum := by
    cases hoff : p.disable with
    | false => exact (RadixCache.evict_evicts hps hoff h.tree hevict).progress
    | true =>
        have htree := h.tree
        rw [h.off hoff] at htree
        exact (RadixCache.evict_evicts_disabled hoff htree hevict).progress
  have hlaid : ∀ l ∈ freed, ∃ P, Laid p.pageSize l P := by
    intro l hl
    rw [hfreed] at hl
    obtain ⟨x, hx, rfl⟩ := List.mem_map.mp hl
    exact h.paged.value hps h.tree (hevicted.unlocked x hx).1
  have hdvd : ∀ l ∈ freed, p.pageSize ∣ l.length := by
    intro l hl
    rw [hfreed] at hl
    obtain ⟨x, hx, rfl⟩ := List.mem_map.mp hl
    have hlive := (hevicted.unlocked x hx).1
    rw [h.tree.book.values x hlive]
    exact h.tree.book.aligned x hlive
  have hnodup := h.nodup
  rw [hevicted.slots, pageHeads_add, ← hfreed] at hnodup
  obtain ⟨hsize, hpages⟩ := foldl_free hps h.pageSize hlaid
    (Multiset.nodup_of_le ((Multiset.le_add_left _ _).trans (Multiset.le_add_left _ _)) hnodup)
  have hcard := card_pageHeads_flatten hps hlaid hdvd
  have havailable : (freed.foldl (fun a l => a.free l) s.allocator).availableSize =
      s.allocator.availableSize + (freed.map List.length).sum := by
    rw [availableSize_eq, availableSize_eq, hsize, hpages, h.pageSize, Multiset.card_add,
      Nat.add_mul, hcard]
  refine ⟨hsize.trans h.pageSize, ?_⟩
  rw [havailable, KvState.room, Nat.cast_add]
  omega

theorem KvOwned.evictFromTreeCache
    (hevict : s.evictFromTreeCache p numTokens victims = some s') :
    s'.allocator.pageSize = p.pageSize ∧
      (s'.allocator.needSort = false → s'.allocator.releasePages = []) ∧
      min (numTokens : Int) s.room ≤ s'.allocator.availableSize := by
  unfold KvState.evictFromTreeCache at hevict
  split at hevict
  · obtain ⟨⟨freed, cache⟩, hcache, rfl⟩ := Option.map_eq_some_iff.mp hevict
    obtain ⟨hsize, hroom⟩ := h.evict hps hcache
    refine ⟨hsize, foldl_free_merged freed h.merged, le_trans ?_ hroom⟩
    exact min_le_min_right _ (Int.le_add_of_nonneg_left (Int.natCast_nonneg _))
  · split at hevict
    · obtain rfl := Option.some.inj hevict
      exact ⟨h.pageSize, h.merged, by omega⟩
    · cases hevict

theorem KvOwned.evictFromTreeCache_ends (numTokens : Nat) :
    ∃ victims, (s.evictFromTreeCache p numTokens victims).isSome := by
  unfold KvState.evictFromTreeCache
  split
  · have hends : ∃ victims, (s.cache.evict p.toCacheParams numTokens victims).isSome := by
      cases hoff : p.disable with
      | false =>
          obtain ⟨-, -, rest, hrest⟩ := RadixCache.Inv.evict_ends hps hoff h.tree
            (show RadixCache.evictRounds p.toCacheParams numTokens [] s.cache.evictStart = _
              from rfl)
          exact ⟨_, hrest⟩
      | true =>
          exact ⟨[], by simp [RadixCache.evict, hoff]⟩
    obtain ⟨victims, hsome⟩ := hends
    exact ⟨victims, by simpa [KvState.evict] using hsome⟩
  · exact ⟨[], rfl⟩

theorem KvOwned.allocBatch {mem : LaunchMem} {reqs : List ExtendReq}
    (hle : ∀ r ∈ reqs, r.prefixLen ≤ r.seqLen)
    (hroom : ((reqs.map (·.numNewPages p.pageSize)).sum * p.pageSize : Nat) ≤ s.room)
    {result : AllocResult} (halloc : s.allocBatch p mem reqs victims = some (result, s')) :
    ∃ out, result = .slots out := by
  unfold KvState.allocBatch at halloc
  simp only at halloc
  split at halloc
  · next hone =>
      obtain ⟨s₁, hevict, halloc⟩ := Option.map_eq_some_iff.mp halloc
      obtain ⟨hsize, hmerged, havail⟩ := h.evictFromTreeCache hps hevict
      have hpage : ∀ n, numPages 1 n = n := fun n => by simpa using numPages_mul Nat.one_pos n
      have hsum : (reqs.map (·.extendLen)).sum = (reqs.map (·.numNewPages p.pageSize)).sum := by
        refine congrArg List.sum (List.map_congr_left fun r _ => ?_)
        rw [ExtendReq.extendLen, ExtendReq.numNewPages, hone, hpage, hpage]
      rw [← hsum, hone, Nat.mul_one] at hroom
      rw [availableSize_eq, hsize, hone, Nat.mul_one] at havail
      have hpages : (reqs.map (·.extendLen)).sum ≤ Multiset.card s₁.allocator.pages := by omega
      have hfree := le_makeRoom_length hmerged (Nat.le_refl _) hpages
      rw [Allocator.alloc, hsize, hone, Nat.div_one, Allocator.takePages,
        if_neg (Nat.not_lt.mpr hfree)] at halloc
      exact ⟨_, (congrArg Prod.fst halloc).symm⟩
  · obtain ⟨s₁, hevict, halloc⟩ := Option.map_eq_some_iff.mp halloc
    obtain ⟨hsize, hmerged, havail⟩ := h.evictFromTreeCache hps hevict
    have hnum : s₁.allocator.newPages reqs = (reqs.map (·.numNewPages p.pageSize)).sum := by
      rw [Allocator.newPages, hsize]
      rfl
    have hestimate := Allocator.newPages_le (a := s₁.allocator) (hsize ▸ hps) hle
    have hmul := Nat.mul_le_mul_right p.pageSize hestimate
    have hdiv := Nat.div_mul_le_self (reqs.map (·.extendLen)).sum p.pageSize
    rw [hsize, Nat.add_mul] at hmul
    rw [availableSize_eq, hsize] at havail
    rw [← hnum] at hroom
    have hcard : s₁.allocator.newPages reqs * p.pageSize ≤
        Multiset.card s₁.allocator.pages * p.pageSize := by omega
    have hfree := le_makeRoom_length hmerged (Nat.le_succ_of_le hestimate)
      (Nat.le_of_mul_le_mul_right hcard hps)
    unfold Allocator.allocExtendBatch at halloc
    simp only at halloc
    generalize hmake : s₁.allocator.makeRoom _ = a at hfree halloc
    have hpage : a.pageSize = s₁.allocator.pageSize := hmake ▸ Allocator.makeRoom_pageSize _ _
    have henough : a.newPages reqs ≤ a.freePages.length :=
      Nat.le_trans (Nat.le_of_eq (Allocator.newPages_congr hpage)) hfree
    have hnew : (a.args reqs).getNumNewPages = a.newPages reqs := rfl
    rw [Allocator.extend_readable (hpage ▸ hsize ▸ hps) hle henough, if_neg Bool.false_ne_true,
      Allocator.giveOut, hnew, if_neg (Nat.not_lt.mpr henough)] at halloc
    exact ⟨_, (congrArg Prod.fst halloc).symm⟩

theorem KvOwned.allocBatch_ends (mem : LaunchMem) (reqs : List ExtendReq) :
    ∃ victims, (s.allocBatch p mem reqs victims).isSome := by
  unfold KvState.allocBatch
  simp only
  split
  · obtain ⟨victims, hsome⟩ := h.evictFromTreeCache_ends hps (reqs.map (·.extendLen)).sum
    exact ⟨victims, by simpa using hsome⟩
  · obtain ⟨victims, hsome⟩ := h.evictFromTreeCache_ends hps
      ((reqs.map (·.extendLen)).sum + reqs.length * p.pageSize)
    exact ⟨victims, by simpa using hsome⟩

end Room

end SpecDecode.MemCache
