import SpecDecode.MemCache.KvPool
import SpecDecode.MemCache.RadixMap

/-!
# The invariant of the KV pool

Every page of the pool is in the free or the release list, in one node of the tree or in
the private part of one request, and only once. The invariant counts pages by the slots
that begin them: a row of slots runs through whole pages, so cutting it at page borders
cuts the pages. What a request has locked stays in the tree.
-/

namespace SpecDecode.MemCache

open RadixTree

section Keys

variable (p : KvParams)

/-- The length of the key of `n` tokens, in whole pages. -/
def keyLen (n : Nat) : Nat := (if p.isEagle then n - 1 else n) / p.pageSize * p.pageSize

def tokenWord (tokens : List Int) (extraKey : Option String) : List ChildKey :=
  (⟨tokens, extraKey, p.isEagle⟩ : RadixKey).syms p.pageSize

variable {p}

@[simp] theorem radixKey_len (tokens : List Int) (extraKey : Option String) :
    (KvState.radixKey p tokens extraKey).len = keyLen p tokens.length := by
  rw [KvState.radixKey, RadixKey.len_pageAligned]
  rfl

theorem radixKey_syms (tokens : List Int) (extraKey : Option String) :
    (KvState.radixKey p tokens extraKey).syms p.pageSize = tokenWord p tokens extraKey :=
  RadixKey.syms_pageAligned _ _

theorem keyLen_dvd (n : Nat) : p.pageSize ∣ keyLen p n := Nat.dvd_mul_left _ _

theorem keyLen_mono {m n : Nat} (h : m ≤ n) : keyLen p m ≤ keyLen p n := by
  refine Nat.mul_le_mul_right _ (Nat.div_le_div_right ?_)
  split <;> omega

theorem keyLen_le (n : Nat) : keyLen p n ≤ n := by
  refine (Nat.div_mul_le_self _ _).trans ?_
  split <;> omega

theorem length_tokenWord (hps : 0 < p.pageSize) (tokens : List Int) (extraKey : Option String) :
    (tokenWord p tokens extraKey).length = keyLen p tokens.length / p.pageSize := by
  rw [tokenWord, RadixKey.length_syms, keyLen, Nat.mul_div_cancel _ hps]
  rfl

theorem tokenWord_take (hps : 0 < p.pageSize) (tokens : List Int) (extraKey : Option String)
    (n : Nat) : tokenWord p (tokens.take n) extraKey =
      (tokenWord p tokens extraKey).take (keyLen p n / p.pageSize) := by
  rw [tokenWord, RadixKey.syms_take_tokens, keyLen, Nat.mul_div_cancel _ hps]
  rfl

theorem alignedKey_tokens (tokens : List Int) (extraKey : Option String) :
    RadixCache.alignedKey p.toCacheParams ⟨tokens, extraKey, false⟩ =
      KvState.radixKey p tokens extraKey := by
  rw [RadixCache.alignedKey, RadixKey.maybeToBigramView, KvState.radixKey]
  cases p.isEagle <;> rfl

theorem alignedKey_radixKey (tokens : List Int) (extraKey : Option String) :
    RadixCache.alignedKey p.toCacheParams (KvState.radixKey p tokens extraKey) =
      KvState.radixKey p tokens extraKey := by
  rw [← alignedKey_tokens, RadixCache.alignedKey_alignedKey]

end Keys

namespace RadixCache

variable {c : CacheParams} {s s' : RadixCache Nat} {live live' : Finset Nat}
  {locks locks' : List Nat}

theorem Inv.perm (h : Inv c s locks live) (hperm : locks.Perm locks') : Inv c s locks' live where
  book := h.book.congr_held fun v _ => (lockCount_perm hperm v).symm
  held w hw := h.held w (hperm.mem_iff.mpr hw)

def Paged (c : CacheParams) (s : RadixCache Nat) : Prop :=
  ∀ w b, Entry (view c s) s.rootNode w b → ∃ page, b = pageSlots c.pageSize page

structure KeepsPaths (c : CacheParams) (s s' : RadixCache Nat) (locks : List Nat) : Prop where
  rootNode : s'.rootNode = s.rootNode
  spells : ∀ v ∈ locks, ∀ w, Spells (view c s) s.rootNode v w → Spells (view c s') s.rootNode v w

theorem KeepsPaths.trans {s'' : RadixCache Nat} (h : KeepsPaths c s s' locks)
    (h' : KeepsPaths c s' s'' locks) : KeepsPaths c s s'' locks where
  rootNode := h'.rootNode.trans h.rootNode
  spells v hv w hw := by
    have hspells := h'.spells v hv w
    rw [h.rootNode] at hspells
    exact hspells (h.spells v hv w hw)

theorem Keeps.keepsPaths (h : Keeps c s s' live live') (locks : List Nat) :
    KeepsPaths c s s' locks :=
  ⟨h.rootNode, fun v _ w => h.spells v w⟩

theorem Keeps.paged (h : Keeps c s s' live live') (hpaged : Paged c s) : Paged c s' := by
  intro w b hb
  rw [h.rootNode, h.entry] at hb
  exact hpaged w b hb

theorem Paged.value (hps : 0 < c.pageSize) (hpaged : Paged c s) (h : Inv c s locks live) {v : Nat}
    (hv : v ∈ live) : ∃ P, Laid c.pageSize (s.nodes v).value P := by
  rw [← h.book.flatten_vals hv]
  refine Laid.of_pages hps fun b hb => ?_
  obtain ⟨i, hi, rfl⟩ := List.getElem_of_mem hb
  obtain ⟨u, a, hu, _, hchild⟩ := h.book.wf.parent v hv
  obtain ⟨q, hq⟩ := h.book.wf.exists_spells hu
  exact hpaged _ _ (h.book.wf.entry_iff.mpr
    ⟨u, a, q, v, i, hq, hchild, rfl, List.getElem?_eq_getElem hi⟩)

theorem MatchedAt.laid {key : RadixKey} {bs : List (List Nat)} {r : MatchResult Nat}
    (hps : 0 < c.pageSize) (h : MatchedAt c locks s live [] key bs r s' live')
    (hpaged : Paged c s) : (∃ P, Laid c.pageSize r.deviceIndices P) ∧
      r.deviceIndices.length = bs.length * c.pageSize := by
  have hpages : ∀ b ∈ bs, ∃ page, b = pageSlots c.pageSize page := by
    intro b hb
    obtain ⟨i, hi, rfl⟩ := List.getElem_of_mem hb
    exact hpaged _ _ (h.longest.entry i _ (List.getElem?_eq_getElem hi))
  rw [h.values]
  refine ⟨Laid.of_pages hps hpages, ?_⟩
  rw [List.length_flatten, List.sum_eq_card_nsmul _ c.pageSize, List.length_map, Nat.nsmul_eq_mul]
  intro n hn
  obtain ⟨b, hb, rfl⟩ := List.mem_map.mp hn
  obtain ⟨page, rfl⟩ := hpages b hb
  simp [pageSlots]

theorem EvictedAt.keepsPaths {victims : List Nat} (h : EvictedAt c locks s live victims s' live')
    (hinv : Inv c s locks live) : KeepsPaths c s s' locks := by
  refine ⟨h.rootNode, fun v hv w hw => ?_⟩
  rcases hinv.held v hv with rfl | hlive
  · cases hw with
    | root => exact .root
    | child hu hchild =>
        exact absurd (hinv.book.wf.child _ _ _ (hinv.book.wf.spells_live hu) hchild).1
          hinv.book.wf.root_notMem
  · have hnot : v ∉ victims := fun hmem =>
      (hinv.notMem_locks hlive (h.unlocked v hmem).2).2 hv
    have hwf := h.inv.book.wf
    rw [h.rootNode] at hwf
    have hlabel : (view c s' v).label = (view c s v).label := by
      simp only [view, (h.fields v).1]
    rw [hwf.spells_iff_reads ((h.live_eq v).mpr ⟨hlive, hnot⟩), hlabel, h.reads]
    exact ⟨(hinv.book.wf.spells_iff_reads hlive).mp hw, hnot⟩

theorem EvictedAt.paged {victims : List Nat} (h : EvictedAt c locks s live victims s' live')
    (hinv : Inv c s locks live) (hpaged : Paged c s) : Paged c s' := by
  intro w b hb
  rw [h.rootNode, h.entry_iff hinv.book.wf] at hb
  exact hpaged w b hb.1

theorem InsertedAt.paged {key : RadixKey} {value P : List Nat} {bs : List (List Nat)}
    (hps : 0 < c.pageSize) (h : InsertedAt c locks s live key value bs s' live')
    (hvalue : Laid c.pageSize value P) (hpaged : Paged c s) : Paged c s' := by
  intro w b hb
  rw [h.rootNode, h.entry] at hb
  rcases hb with hb | ⟨i, _, _, hget⟩
  · exact hpaged w b hb
  · exact hvalue.pages_eq hps hget

section Disabled

variable (hoff : c.disable = true → live = ∅) (h : Inv c s locks live)

theorem Inv.of_empty (h : Inv c s locks ∅) (hheld : ∀ w ∈ locks', w ∈ locks ∨ w = s.rootNode) :
    Inv c s locks' ∅ := by
  refine ⟨h.book.congr_held fun v hv => absurd hv (Finset.notMem_empty v), fun w hw => ?_⟩
  rcases hheld w hw with hw | hw
  · exact h.held w hw
  · exact .inl hw

include hoff h

theorem matchPrefix_any (key : RadixKey) (now : Nat) (hps : 0 < c.pageSize) :
    ∃ r s' live' bs, matchPrefix c key now s = some (r, s') ∧
      MatchedAt c locks s live [] (alignedKey c key) bs r s' live' ∧
      (c.disable = true → live' = ∅) := by
  cases hdis : c.disable with
  | false =>
      obtain ⟨r, s', live', bs, hmatch, hr⟩ := matchPrefix_spec key now hps hdis h
      exact ⟨r, s', live', bs, hmatch, hr, nofun⟩
  | true =>
      obtain rfl := hoff hdis
      have hlongest : Longest (view c s) s.rootNode []
          ((alignedKey c key).syms c.pageSize) ([] : List (List Nat)) := by
        refine .of_no_child h.book.wf .root fun a _ => ?_
        rw [Option.eq_none_iff_forall_ne_some]
        intro v hv
        exact absurd (h.book.wf.child _ _ _ (.inl rfl) hv).1 (Finset.notMem_empty v)
      refine ⟨⟨[], s.rootNode⟩, s, ∅, [], ?_, ?_, fun _ => rfl⟩
      · simp [matchPrefix, hdis]
      · exact ⟨h, (SameTree.refl s).keeps ∅, hlongest, rfl, .root⟩

theorem incLockRef_any {node : Nat} (hnode : node = s.rootNode ∨ node ∈ live) :
    ∃ delta s', incLockRef c node s = some (delta, s') ∧ SameShape s s' ∧
      Inv c s' (node :: locks) live := by
  cases hdis : c.disable with
  | false =>
      obtain ⟨delta, s', hinc, hshape, hinv, _⟩ := incLockRef_spec hdis h hnode
      exact ⟨delta, s', hinc, hshape, hinv⟩
  | true =>
      obtain rfl := hoff hdis
      refine ⟨0, s, by simp [incLockRef, hdis], (SameTree.refl s).toSameShape, h.of_empty ?_⟩
      intro w hw
      rcases List.mem_cons.mp hw with rfl | hw
      · exact .inr (hnode.resolve_right (Finset.notMem_empty w))
      · exact .inl hw

omit h in
theorem decLockRef_any {node : Nat} (h : Inv c s (node :: locks) live) :
    ∃ delta s', decLockRef c node s = some (delta, s') ∧ SameShape s s' ∧ Inv c s' locks live := by
  cases hdis : c.disable with
  | false =>
      obtain ⟨delta, s', hdec, hshape, hinv, _⟩ := decLockRef_spec hdis h List.mem_cons_self
      rw [List.erase_cons_head] at hinv
      exact ⟨delta, s', hdec, hshape, hinv⟩
  | true =>
      obtain rfl := hoff hdis
      refine ⟨0, s, by simp [decLockRef, hdis], (SameTree.refl s).toSameShape, h.of_empty ?_⟩
      exact fun w hw => .inl (List.mem_cons_of_mem _ hw)

theorem evict_any {numTokens : Nat} {victims : List Nat} {freed : List (List Nat)}
    (hps : 0 < c.pageSize) (hevict : evict c numTokens victims s = some (freed, s')) :
    ∃ live', EvictedAt c locks s live victims s' live' ∧
      freed = victims.map (fun x => (s.nodes x).value) ∧ (c.disable = true → live' = ∅) := by
  cases hdis : c.disable with
  | false =>
      obtain ⟨live', hevicted, hfreed⟩ := evict_spec hps hdis h hevict
      exact ⟨live', hevicted, hfreed, nofun⟩
  | true =>
      simp only [evict, hdis, if_true] at hevict
      split at hevict
      · next hnil =>
          obtain ⟨rfl, rfl⟩ := Prod.mk.inj (Option.some.inj hevict)
          subst hnil
          exact ⟨live, .refl h, rfl, fun _ => hoff hdis⟩
      · cases hevict

end Disabled

end RadixCache

/-- The tokens of a request. -/
def Req.tokens (r : Req) : List Int := r.originInputIds ++ r.outputIds

structure ReqInv (p : KvParams) (cache : RadixCache Nat) (r : Req) : Prop where
  waiting : r.lastNode = none → r.row = [] ∧ r.prefixIndices = [] ∧ r.cacheProtectedLen = 0
  aligned : p.pageSize ∣ r.cacheProtectedLen
  protected_le : r.cacheProtectedLen ≤ keyLen p r.tokens.length
  path : ∀ v, r.lastNode = some v → Spells (RadixCache.view p.toCacheParams cache) cache.rootNode v
    ((tokenWord p r.tokens r.extraKey).take (r.cacheProtectedLen / p.pageSize))
  prefixLaid : ∃ P, Laid p.pageSize r.prefixIndices P
  rowLaid : ∃ P, Laid p.pageSize r.row P
  start : r.row = [] → r.prefixIndices.length = r.cacheProtectedLen
  grown : r.row ≠ [] →
    r.prefixIndices.drop r.cacheProtectedLen <+: r.row.drop r.cacheProtectedLen ∧
    r.fillIds = r.tokens.take r.fillIds.length ∧
    r.cacheProtectedLen ≤ keyLen p r.fillIds.length ∧ r.fillIds.length ≤ r.kvCommittedLen ∧
    r.kvCommittedLen ≤ r.row.length

def heldPages (p : KvParams) (r : Req) : Multiset Nat :=
  pageHeads p.pageSize (r.row.drop r.cacheProtectedLen : List Nat)

structure KvInv (p : KvParams) (n : Nat) (a : Allocator) (cache : RadixCache Nat) (reqs : List Req)
    (live : Finset Nat) : Prop where
  pageSize : a.pageSize = p.pageSize
  tree : RadixCache.Inv p.toCacheParams cache (reqs.filterMap Req.lastNode) live
  off : p.disable = true → live = ∅
  paged : RadixCache.Paged p.toCacheParams cache
  each : ∀ r ∈ reqs, ReqInv p cache r
  owned : a.pages + pageHeads p.pageSize (cache.slots live) + (reqs.map (heldPages p)).sum =
    (List.range' 1 n : Multiset Nat)

section Steps

variable {p : KvParams} {n : Nat} {a a' : Allocator} {cache cache' : RadixCache Nat}
variable {reqs rest : List Req} {r r' : Req} {live live' : Finset Nat}

theorem KvInv.perm {reqs' : List Req} (h : KvInv p n a cache reqs live) (hperm : reqs.Perm reqs') :
    KvInv p n a cache reqs' live where
  pageSize := h.pageSize
  tree := h.tree.perm (hperm.filterMap _)
  off := h.off
  paged := h.paged
  each r hr := h.each r (hperm.mem_iff.mpr hr)
  owned := by rw [← (hperm.map (heldPages p)).sum_eq, h.owned]

theorem ReqInv.keepsPaths (h : ReqInv p cache r) {locks : List Nat}
    (hkeep : RadixCache.KeepsPaths p.toCacheParams cache cache' locks)
    (hlock : ∀ v, r.lastNode = some v → v ∈ locks) : ReqInv p cache' r :=
  { h with
    path := fun v hv => by
      rw [hkeep.rootNode]
      exact hkeep.spells v (hlock v hv) _ (h.path v hv) }

theorem KvInv.nodup (h : KvInv p n a cache reqs live) :
    (a.pages + pageHeads p.pageSize (cache.slots live) + (reqs.map (heldPages p)).sum).Nodup := by
  rw [h.owned, Multiset.coe_nodup]
  exact List.nodup_range'

theorem KvInv.update (h : KvInv p n a cache (r :: rest) live) (hsize : a'.pageSize = a.pageSize)
    (htree : RadixCache.Inv p.toCacheParams cache'
      (r'.lastNode.toList ++ rest.filterMap Req.lastNode) live')
    (hoff : p.disable = true → live' = ∅) (hpaged : RadixCache.Paged p.toCacheParams cache')
    (hkeep : RadixCache.KeepsPaths p.toCacheParams cache cache' (rest.filterMap Req.lastNode))
    (hr : ReqInv p cache' r')
    (howned : a'.pages + pageHeads p.pageSize (cache'.slots live') + heldPages p r' =
      a.pages + pageHeads p.pageSize (cache.slots live) + heldPages p r) :
    KvInv p n a' cache' (r' :: rest) live' where
  pageSize := hsize.trans h.pageSize
  tree := by
    rw [List.filterMap_cons]
    cases hnode : r'.lastNode <;> simpa [hnode] using htree
  off := hoff
  paged := hpaged
  each r₁ hr₁ := by
    rcases List.mem_cons.mp hr₁ with rfl | hr₁
    · exact hr
    · refine (h.each r₁ (List.mem_cons_of_mem _ hr₁)).keepsPaths hkeep fun v hv => ?_
      exact List.mem_filterMap.mpr ⟨r₁, hr₁, hv⟩
  owned := by
    rw [← h.owned, List.map_cons, List.sum_cons, List.map_cons, List.sum_cons, ← add_assoc, howned,
      add_assoc]

theorem KvInv.tree_step (h : KvInv p n a cache reqs live) (hsize : a'.pageSize = a.pageSize)
    (htree : RadixCache.Inv p.toCacheParams cache' (reqs.filterMap Req.lastNode) live')
    (hoff : p.disable = true → live' = ∅) (hpaged : RadixCache.Paged p.toCacheParams cache')
    (hkeep : RadixCache.KeepsPaths p.toCacheParams cache cache' (reqs.filterMap Req.lastNode))
    (howned : a'.pages + pageHeads p.pageSize (cache'.slots live') =
      a.pages + pageHeads p.pageSize (cache.slots live)) : KvInv p n a' cache' reqs live' where
  pageSize := hsize.trans h.pageSize
  tree := htree
  off := hoff
  paged := hpaged
  each r hr := (h.each r hr).keepsPaths hkeep fun v hv => List.mem_filterMap.mpr ⟨r, hr, hv⟩
  owned := by rw [howned, h.owned]

variable (hps : 0 < p.pageSize)

include hps

theorem KvInv.matchPrefix (h : KvInv p n a cache reqs live) (key : RadixKey) (now : Nat) :
    ∃ m cache' live' bs, cache.matchPrefix p.toCacheParams key now = some (m, cache') ∧
      RadixCache.MatchedAt p.toCacheParams (reqs.filterMap Req.lastNode) cache live []
        (RadixCache.alignedKey p.toCacheParams key) bs m cache' live' ∧
      KvInv p n a cache' reqs live' := by
  obtain ⟨m, cache', live', bs, hmatch, hm, hoff⟩ :=
    RadixCache.matchPrefix_any h.off h.tree key now hps
  refine ⟨m, cache', live', bs, hmatch, hm, ?_⟩
  exact h.tree_step rfl hm.inv hoff (hm.keeps.paged h.paged) (hm.keeps.keepsPaths _)
    (by rw [hm.keeps.slots])

theorem foldl_free {freed : List (List Nat)} (hsize : a.pageSize = p.pageSize)
    (hfreed : ∀ l ∈ freed, ∃ P, Laid p.pageSize l P)
    (hnodup : (pageHeads p.pageSize (freed.flatten : List Nat)).Nodup) :
    (freed.foldl (fun a l => a.free l) a).pageSize = a.pageSize ∧
      (freed.foldl (fun a l => a.free l) a).pages =
        a.pages + pageHeads p.pageSize (freed.flatten : List Nat) := by
  induction freed generalizing a with
  | nil =>
      refine ⟨rfl, ?_⟩
      rw [List.flatten_nil, pageHeads_eq_zero (by simp), add_zero]
      rfl
  | cons l freed ih =>
      obtain ⟨P, hP⟩ := hfreed l List.mem_cons_self
      rw [List.flatten_cons, pageHeads_append, hP.pageHeads_eq hps] at hnodup ⊢
      have hnodupP : P.Nodup :=
        Multiset.coe_nodup.mp (Multiset.nodup_of_le (Multiset.le_add_right _ _) hnodup)
      rw [← hsize] at hP hps
      have hfree := a.free_pageSize l
      obtain ⟨hsize', hpages⟩ := ih (hfree.trans hsize)
        (fun l hl => hfreed l (List.mem_cons_of_mem _ hl))
        (Multiset.nodup_of_le (Multiset.le_add_left _ _) hnodup)
      rw [List.foldl_cons]
      refine ⟨hsize'.trans hfree, ?_⟩
      rw [hpages, Allocator.free_pages hps hP hnodupP, add_assoc]

variable {numTokens : Nat} {victims row out : List Nat}

theorem KvInv.evict (h : KvInv p n a cache reqs live) {freed : List (List Nat)}
    (hevict : cache.evict p.toCacheParams numTokens victims = some (freed, cache')) :
    ∃ live', KvInv p n (freed.foldl (fun a l => a.free l) a) cache' reqs live' := by
  obtain ⟨live', hevicted, hfreed, hoff⟩ := RadixCache.evict_any h.off h.tree hps hevict
  have hslots : pageHeads p.pageSize (cache.slots live) =
      pageHeads p.pageSize (cache'.slots live') +
        pageHeads p.pageSize (freed.flatten : List Nat) := by
    rw [hevicted.slots, pageHeads_add, hfreed]
  have hnodup := h.nodup
  rw [hslots] at hnodup
  have hlaid : ∀ l ∈ freed, ∃ P, Laid p.pageSize l P := by
    intro l hl
    rw [hfreed] at hl
    obtain ⟨x, hx, rfl⟩ := List.mem_map.mp hl
    exact h.paged.value hps h.tree (hevicted.unlocked x hx).1
  have hfreedNodup : (pageHeads p.pageSize (freed.flatten : List Nat)).Nodup :=
    Multiset.nodup_of_le ((Multiset.le_add_left _ _).trans ((Multiset.le_add_left _ _).trans
      (Multiset.le_add_right _ _))) hnodup
  obtain ⟨hsize, hpages⟩ := foldl_free hps h.pageSize hlaid hfreedNodup
  refine ⟨live', h.tree_step hsize hevicted.inv hoff (hevicted.paged h.tree h.paged)
    (hevicted.keepsPaths h.tree) ?_⟩
  rw [hpages, hslots]
  abel

variable {s s' : KvState}

theorem KvInv.initNextRound (h : KvInv p n s.allocator s.cache (r :: rest) live)
    (hwait : r.lastNode = none)
    {maxPrefixLen now : Nat} (hinit : s.initNextRound p maxPrefixLen now r = some (r', s')) :
    s'.reqs = s.reqs ∧ ∃ live', KvInv p n s'.allocator s'.cache (r' :: rest) live' := by
  have hr := h.each r List.mem_cons_self
  obtain ⟨hrow, _, _⟩ := hr.waiting hwait
  obtain ⟨m, cache₁, live₁, bs, hmatch, hm, h₁⟩ := h.matchPrefix hps
    ⟨r.tokens.take maxPrefixLen, r.extraKey, false⟩ now
  obtain ⟨hlaid, hlen⟩ := hm.laid hps h.paged
  have hspells := hm.spells
  have hle := hm.longest.length_le
  rw [alignedKey_tokens, radixKey_syms, List.nil_append] at hspells
  rw [alignedKey_tokens, radixKey_syms] at hle
  have hlocks : (r :: rest).filterMap Req.lastNode = rest.filterMap Req.lastNode := by
    rw [List.filterMap_cons, hwait]
  have hnode := hm.inv.book.wf.spells_live (by rw [hm.keeps.rootNode]; exact hspells)
  obtain ⟨_, cache₂, hinc, hshape, hinv⟩ := RadixCache.incLockRef_any h₁.off hm.inv hnode
  have hexec : s.initNextRound p maxPrefixLen now r = some
      ({ r with
          prefixIndices := m.deviceIndices
          lastNode := some m.lastDeviceNode
          cacheProtectedLen := m.deviceIndices.length }, { s with cache := cache₂ }) := by
    unfold KvState.initNextRound
    simp only [Req.tokens] at hmatch
    simp only [hmatch, Option.bind_some, hinc, Option.map_some]
  rw [hexec] at hinit
  obtain ⟨rfl, rfl⟩ := Prod.mk.inj (Option.some.inj hinit)
  refine ⟨rfl, live₁, h.update rfl ?_ h₁.off ((hshape.keeps live₁).paged h₁.paged) ?_ ?_ ?_⟩
  · rw [hlocks] at hinv
    exact hinv
  · exact (hm.keeps.keepsPaths _).trans ((hshape.keeps live₁).keepsPaths _)
  · have htake : (tokenWord p (r.tokens.take maxPrefixLen) r.extraKey).take bs.length =
        (tokenWord p r.tokens r.extraKey).take bs.length := by
      rw [tokenWord_take hps] at hle ⊢
      rw [List.length_take] at hle
      rw [List.take_take, Nat.min_eq_left (by omega)]
    rw [length_tokenWord hps, Nat.le_div_iff_mul_le hps] at hle
    have hprotected : m.deviceIndices.length ≤ keyLen p r.tokens.length := by
      rw [hlen]
      exact hle.trans (keyLen_mono (List.length_take_le' _ _))
    refine ⟨nofun, ?_, hprotected, ?_, hlaid, hr.rowLaid, fun _ => rfl, fun hne => absurd hrow hne⟩
    · rw [hlen]
      exact Nat.dvd_mul_left _ _
    · intro v hv
      obtain rfl := Option.some.inj hv
      have hroot : cache₂.rootNode = s.cache.rootNode := hshape.rootNode.trans hm.keeps.rootNode
      rw [hlen, Nat.mul_div_cancel _ hps, hshape.view_eq, hroot]
      exact htake ▸ hspells
  · rw [hshape.slots_eq, hm.keeps.slots, heldPages, heldPages, hrow, List.drop_nil, List.drop_nil]

section

variable (h : KvInv p n s.allocator s.cache reqs live)

include h

theorem KvInv.evictFromTreeCache
    (hevict : s.evictFromTreeCache p numTokens victims = some s') :
    s'.reqs = s.reqs ∧ ∃ live', KvInv p n s'.allocator s'.cache reqs live' := by
  unfold KvState.evictFromTreeCache at hevict
  split at hevict
  · obtain ⟨⟨freed, cache'⟩, hcache, rfl⟩ := Option.map_eq_some_iff.mp hevict
    exact ⟨rfl, h.evict hps hcache⟩
  · split at hevict
    · obtain rfl := Option.some.inj hevict
      exact ⟨rfl, live, h⟩
    · cases hevict

/-- An allocation evicts first. `take` is the call of the allocator; where it gives `len` slots on
new pages behind the row, so does the allocation. -/
theorem KvInv.evictThen {P : List Nat}
    {len : Nat} {take : Allocator → Option (List Nat × Allocator)}
    (htake : ∀ a a' : Allocator, a.pageSize = p.pageSize → take a = some (out, a') →
      ∃ N, Allocator.Grows a a' row out P N ∧ out.length = len)
    (halloc : ((s.evictFromTreeCache p numTokens victims).bind fun s =>
      (take s.allocator).map fun (out, a) => (out, { s with allocator := a })) = some (out, s')) :
    s'.reqs = s.reqs ∧ ∃ live' a N, KvInv p n a s'.cache reqs live' ∧
      Allocator.Grows a s'.allocator row out P N ∧ out.length = len := by
  obtain ⟨s₁, hevict, halloc⟩ := Option.bind_eq_some_iff.mp halloc
  obtain ⟨⟨out', a'⟩, hout, heq⟩ := Option.map_eq_some_iff.mp halloc
  obtain ⟨rfl, rfl⟩ := Prod.mk.inj heq
  obtain ⟨hreqs, live', h₁⟩ := h.evictFromTreeCache hps hevict
  obtain ⟨N, hgrows, hlen⟩ := htake _ _ h₁.pageSize hout
  exact ⟨hreqs, live', _, N, h₁, hgrows, hlen⟩

theorem KvInv.allocSlotsExtend {P : List Nat}
    {seqLen : Nat} (hrow : Laid p.pageSize row P) (hle : row.length ≤ seqLen)
    (halloc : s.allocSlotsExtend p row seqLen victims = some (out, s')) :
    s'.reqs = s.reqs ∧ ∃ live' a N, KvInv p n a s'.cache reqs live' ∧
      Allocator.Grows a s'.allocator row out P N ∧ out.length = seqLen - row.length := by
  unfold KvState.allocSlotsExtend at halloc
  simp only at halloc
  split at halloc
  · next hone =>
      refine h.evictThen hps (fun a a' hsize hout => ?_) halloc
      rw [← hsize] at hrow hps hone
      obtain ⟨N, hgrows, hlen⟩ := Allocator.alloc_grows hps hrow
        (by rw [hone]; exact Nat.one_dvd _) hout
      rw [hone, Nat.div_one, Nat.mul_one] at hlen
      exact ⟨N, hgrows, hlen⟩
  · refine h.evictThen hps (fun a a' hsize hout => ?_) halloc
    rw [← hsize] at hrow hps
    exact Allocator.allocExtend_grows hps hrow hle hout

theorem KvInv.allocSlotsDecode {P : List Nat} (hrow : Laid p.pageSize row P)
    (halloc : s.allocSlotsDecode p row victims = some (out, s')) :
    s'.reqs = s.reqs ∧ ∃ live' a N, KvInv p n a s'.cache reqs live' ∧
      Allocator.Grows a s'.allocator row out P N ∧ out.length = 1 := by
  unfold KvState.allocSlotsDecode at halloc
  split at halloc
  · next hone =>
      refine h.evictThen hps (fun a a' hsize hout => ?_) halloc
      rw [← hsize] at hrow hps hone
      obtain ⟨N, hgrows, hlen⟩ := Allocator.alloc_grows hps hrow
        (by rw [hone]; exact Nat.one_dvd _) hout
      rw [hone] at hlen
      exact ⟨N, hgrows, hlen⟩
  · next hpaged =>
      refine h.evictThen hps (fun a a' hsize hout => ?_) halloc
      rw [← hsize] at hrow hps hpaged
      exact Allocator.allocDecode_grows hps hrow hpaged hout

end

theorem KvInv.grow (h : KvInv p n a cache (r :: rest) live) {P N : List Nat}
    (hgrows : Allocator.Grows a a' row out P N) (hrow : Laid p.pageSize row P)
    (hle : r.cacheProtectedLen ≤ row.length)
    (hsame : r.row.drop r.cacheProtectedLen = row.drop r.cacheProtectedLen)
    (hr' : r'.row = row ++ out ∧ r'.cacheProtectedLen = r.cacheProtectedLen ∧
      r'.lastNode = r.lastNode) (hinv : ReqInv p cache r') :
    KvInv p n a' cache (r' :: rest) live := by
  obtain ⟨hrow', hprotected, hnode⟩ := hr'
  obtain ⟨k, hk⟩ := (h.each r List.mem_cons_self).aligned
  have hlaid := hgrows.laid
  rw [h.pageSize] at hlaid
  have hkP : k ≤ P.length := by
    rw [hrow.length]
    have hmono := numPages_mono hps hle
    rwa [hk, Nat.mul_comm, numPages_mul hps] at hmono
  have hheld : heldPages p r' = heldPages p r + (N : Multiset Nat) := by
    have hdvd : p.pageSize ∣ r.cacheProtectedLen := ⟨k, hk⟩
    rw [heldPages, heldPages, hrow', hprotected, hsame, (hlaid.drop hps hdvd).pageHeads_eq hps,
      (hrow.drop hps hdvd).pageHeads_eq hps, hk, Nat.mul_div_cancel_left _ hps,
      List.drop_append_of_le_length hkP, Multiset.coe_add]
  refine h.update hgrows.pageSize ?_ h.off h.paged ⟨rfl, fun v _ w hw => hw⟩ hinv ?_
  · have htree := h.tree
    rw [List.filterMap_cons] at htree
    cases hnode' : r.lastNode <;> simpa [hnode, hnode'] using htree
  · rw [hgrows.pages, hheld]
    abel

end Steps

end SpecDecode.MemCache
