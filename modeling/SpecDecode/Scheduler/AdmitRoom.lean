import SpecDecode.MemCache.BatchRoom
import SpecDecode.MemCache.Conservation
import SpecDecode.Scheduler.AdmitBatch

/-!
# The admitted batch gets its slots

A request is admitted if its new tokens are within what is free or can be evicted and is not
charged yet, and it is charged with whole pages. So the pages of the batch are there when they
are allocated, as long as no chunked request is added without a budget.
-/

namespace SpecDecode.Admission

open MemCache (KvState KvParams KvOwned ExtendReq LaunchMem)

namespace PrefillAdder

variable {a : PrefillAdder} {t t' m : Int}

section Ceil

variable (hps : 0 < a.pageSize)

include hps

theorem ceilPagedTokens_le_iff (hm : (a.pageSize : Int) ∣ m) : a.ceilPagedTokens t ≤ m ↔ t ≤ m := by
  obtain ⟨k, rfl⟩ := hm
  have hpos : (0 : Int) < a.pageSize := Int.natCast_pos.mpr hps
  rw [ceilPagedTokens, Int.fdiv_eq_ediv_of_nonneg _ hpos.le, Int.mul_comm (a.pageSize : Int),
    Int.mul_le_mul_right hpos, neg_le, Int.le_ediv_iff_mul_le hpos, neg_mul, neg_le_neg_iff]

theorem le_ceilPagedTokens (t : Int) : t ≤ a.ceilPagedTokens t :=
  (ceilPagedTokens_le_iff hps (Int.dvd_mul_left _ _)).mp (le_refl _)

theorem ceilPagedTokens_mono (h : t ≤ t') : a.ceilPagedTokens t ≤ a.ceilPagedTokens t' :=
  (ceilPagedTokens_le_iff hps (Int.dvd_mul_left _ _)).mpr (h.trans (le_ceilPagedTokens hps t'))

theorem numNewPages_le_ceilPagedTokens {r : ExtendReq} (hle : r.prefixLen ≤ r.seqLen) :
    ((r.numNewPages a.pageSize * a.pageSize : Nat) : Int) ≤
      a.ceilPagedTokens (r.seqLen - r.prefixLen) := by
  have hpages := Nat.mul_le_mul_right a.pageSize (MemCache.Allocator.numNewPages_le hps hle)
  have hlen : ((r.extendLen : Nat) : Int) = r.seqLen - r.prefixLen := by
    rw [ExtendReq.extendLen, Nat.cast_sub hle]
  refine (Int.ofNat_le.mpr hpages).trans ?_
  rw [← hlen]
  obtain ⟨k, hk⟩ : (a.pageSize : Int) ∣ a.ceilPagedTokens r.extendLen := Int.dvd_mul_left _ _
  have hceil := le_ceilPagedTokens hps (r.extendLen : Int)
  rw [hk] at hceil ⊢
  have hpos : (0 : Int) < a.pageSize := Int.natCast_pos.mpr hps
  lift k to Nat using Int.nonneg_of_mul_nonneg_right ((Int.natCast_nonneg _).trans hceil) hpos
  have hmono := numPages_mono hps (n := k * a.pageSize)
    (m := r.extendLen) (by rw [Nat.mul_comm]; exact_mod_cast hceil)
  rw [numPages_mul hps] at hmono
  exact_mod_cast (Nat.mul_le_mul_right a.pageSize hmono).trans_eq (Nat.mul_comm _ _)

end Ceil

end PrefillAdder

def Req.extendLen (r : Req) : Int := r.fillIds.length - r.prefixIndices.length

namespace AdmitState

variable {s s' : AdmitState} {id : Nat}

/-- The new tokens of the batch, rounded up to pages. -/
def batchNeed (s : AdmitState) : Int :=
  (s.adder.canRunList.map fun id => s.adder.ceilPagedTokens (s.store id).extendLen).sum

/-- What `alloc_for_extend` passes on for the batch. -/
def batch (s : AdmitState) : List ExtendReq :=
  s.adder.canRunList.map fun id =>
    { prefixLen := (s.store id).prefixIndices.length
      seqLen := (s.store id).fillIds.length
      lastLoc := MemCache.Allocator.lastLoc (s.store id).prefixIndices }

theorem ceilPagedTokens_congr {a a' : PrefillAdder} (h : a'.pageSize = a.pageSize) (t : Int) :
    a'.ceilPagedTokens t = a.ceilPagedTokens t := by
  rw [PrefillAdder.ceilPagedTokens, PrefillAdder.ceilPagedTokens, h]

theorem batchNeed_congr (hsize : s'.adder.pageSize = s.adder.pageSize)
    (hlist : s'.adder.canRunList = s.adder.canRunList)
    (hstore : ∀ id ∈ s.adder.canRunList, s'.store id = s.store id) :
    s'.batchNeed = s.batchNeed := by
  rw [batchNeed, batchNeed, hlist]
  refine congrArg List.sum (List.map_congr_left fun id hid => ?_)
  rw [hstore id hid, ceilPagedTokens_congr hsize]

theorem batchNeed_append (hsize : s'.adder.pageSize = s.adder.pageSize)
    (hlist : s'.adder.canRunList = s.adder.canRunList ++ [id])
    (hstore : ∀ id ∈ s.adder.canRunList, s'.store id = s.store id) :
    s'.batchNeed = s.batchNeed + s.adder.ceilPagedTokens (s'.store id).extendLen := by
  have hfront : (s.adder.canRunList.map fun id =>
      s'.adder.ceilPagedTokens (s'.store id).extendLen).sum = s.batchNeed := by
    refine congrArg List.sum (List.map_congr_left fun id hid => ?_)
    rw [hstore id hid, ceilPagedTokens_congr hsize]
  rw [batchNeed, hlist, List.map_append, List.sum_append, hfront, List.map_singleton,
    List.sum_singleton, ceilPagedTokens_congr hsize]

theorem dvd_batchNeed (s : AdmitState) : (s.adder.pageSize : Int) ∣ s.batchNeed := by
  refine List.dvd_sum fun t ht => ?_
  obtain ⟨id, -, rfl⟩ := List.mem_map.mp ht
  exact Int.dvd_mul_left _ _

end AdmitState

structure Ready (s : AdmitState) (id : Nat) : Prop where
  notMem : id ∉ s.adder.canRunList
  prefix_le : (s.store id).prefixIndices.length ≤ (s.store id).fillIds.length
  extendInputLen : (s.store id).extendInputLen = (s.store id).extendLen
  maxNewTokens : 0 ≤ (s.store id).maxNewTokens

/-- The request has been admitted by `_update_prefill_budget` with these lengths, as a whole or
cut to that length. -/
structure Charged (s s' : AdmitState) (id : Nat) (extendInputLen maxNewTokens : Int) : Prop where
  adder : ∃ sizes reqStates newChunkedReq, s'.adder = ({ s.adder with
    canRunList := s.adder.canRunList ++ [id]
    reqStates := reqStates
    newChunkedReq := newChunkedReq } : PrefillAdder).updatePrefillBudget sizes extendInputLen
      maxNewTokens
  store : s'.store = s.store ∧ (s.store id).extendLen ≤ extendInputLen ∨
    s'.store = s.store.setChunk id extendInputLen ∧ 0 ≤ extendInputLen
  maxNewTokens : 0 ≤ maxNewTokens

structure AdmitBook (p : KvParams) (s : AdmitState) (locks : List Nat) (live : Finset Nat) :
    Prop where
  owned : KvOwned p s.kv locks live
  pageSize : s.adder.pageSize = p.pageSize
  isHybridSwa : s.adder.isHybridSwa = false
  dllm : ∀ d, s.adder.dllm = some d → 0 ≤ d.dllmBlockSize
  prefix_le : ∀ id ∈ s.adder.canRunList,
    (s.store id).prefixIndices.length ≤ (s.store id).fillIds.length
  charged : (s.batchNeed : ℚ) ≤ s.adder.remTotalTokenOffset

structure AdmitInv (p : KvParams) (s : AdmitState) (locks : List Nat) (live : Finset Nat) : Prop
    extends AdmitBook p s locks live where
  room : s.batchNeed ≤ s.kv.room

section Charge

variable {p : KvParams} {s s' : AdmitState} {locks locks' : List Nat} {live live' : Finset Nat}
variable {id : Nat} {n m : Int}

@[simp] theorem Store.set_self (store : Store) (id : Nat) (r : Req) : store.set id r id = r :=
  Function.update_self _ _ _

theorem Store.set_ne (store : Store) {id id' : Nat} (r : Req) (h : id' ≠ id) :
    store.set id r id' = store id' :=
  Function.update_of_ne h _ _

theorem setChunk_extendLen {store : Store} (hpre : (store id).prefixIndices.length ≤
    (store id).fillIds.length) (hn : 0 ≤ n) :
    ((store.setChunk id n) id).prefixIndices = (store id).prefixIndices ∧
      (store id).prefixIndices.length ≤ ((store.setChunk id n) id).fillIds.length ∧
      ((store.setChunk id n) id).extendLen = min (store id).extendLen n := by
  have hlength : ((store.setChunk id n) id).fillIds.length =
      min ((store id).prefixIndices.length + n.toNat) (store id).fillIds.length := by
    rw [Store.setChunk, Store.set_self, sliceTo, if_neg (by omega), List.length_take]
    congr 1
    omega
  have hsame : ((store.setChunk id n) id).prefixIndices = (store id).prefixIndices := by
    rw [Store.setChunk, Store.set_self]
  refine ⟨hsame, by omega, ?_⟩
  rw [Req.extendLen, Req.extendLen, hsame, hlength]
  omega

theorem Charged.extendLen (h : Charged s s' id n m) (hready : Ready s id) :
    (s'.store id).prefixIndices.length ≤ (s'.store id).fillIds.length ∧
      (s'.store id).extendLen ≤ (s.store id).extendLen ∧ (s'.store id).extendLen ≤ n := by
  obtain ⟨hstore, hle⟩ | ⟨hstore, hn⟩ := h.store
  · rw [hstore]
    exact ⟨hready.prefix_le, le_refl _, hle⟩
  · obtain ⟨hsame, hpre, hlen⟩ := setChunk_extendLen hready.prefix_le hn
    rw [hstore, hsame, hlen]
    exact ⟨hpre, min_le_left _ _, min_le_right _ _⟩

theorem Charged.store_ne (h : Charged s s' id n m) {id' : Nat} (hne : id' ≠ id) :
    s'.store id' = s.store id' := by
  obtain ⟨hstore, -⟩ | ⟨hstore, -⟩ := h.store
  · rw [hstore]
  · rw [hstore, Store.setChunk, Store.set_ne _ _ hne]

theorem AdmitBook.charge (hps : 0 < p.pageSize) (h : AdmitBook p s locks live)
    (howned : KvOwned p s'.kv locks' live') (hready : Ready s id) (hcharged : Charged s s' id n m)
    (hfits : ((s'.store id).extendLen : ℚ) ≤ s'.kv.room - s.adder.remTotalTokenOffset) :
    AdmitInv p s' locks' live' := by
  obtain ⟨hpre, -, hlen⟩ := hcharged.extendLen hready
  obtain ⟨sizes, reqStates, newChunkedReq, hadder⟩ := hcharged.adder
  have hstore : ∀ id' ∈ s.adder.canRunList, s'.store id' = s.store id' := fun id' hid' =>
    hcharged.store_ne fun heq => hready.notMem (heq ▸ hid')
  have hsize : s'.adder.pageSize = s.adder.pageSize := by rw [hadder]; rfl
  have hlist : s'.adder.canRunList = s.adder.canRunList ++ [id] := by rw [hadder]; rfl
  have hneed := AdmitState.batchNeed_append hsize hlist hstore
  have hps' : 0 < s.adder.pageSize := h.pageSize ▸ hps
  refine ⟨⟨howned, hsize.trans h.pageSize, ?_, ?_, ?_, ?_⟩, ?_⟩
  · rw [hadder]
    exact h.isHybridSwa
  · intro d hd
    rw [hadder] at hd
    obtain ⟨d', hd', rfl⟩ := Option.map_eq_some_iff.mp hd
    exact h.dllm d' hd'
  · intro id' hid'
    rw [hlist, List.mem_append, List.mem_singleton] at hid'
    obtain hid' | rfl := hid'
    · rw [hstore id' hid']
      exact h.prefix_le id' hid'
    · exact hpre
  · -- the charge counts whole pages, a page more and the tokens to decode
    have hmono := PrefillAdder.ceilPagedTokens_mono hps' hlen
    have hoffset : s'.adder.remTotalTokenOffset = s.adder.remTotalTokenOffset +
        (s.adder.ceilPagedTokens n + m + s.adder.pageSize : Int) := by rw [hadder]; rfl
    have hint : s.adder.ceilPagedTokens (s'.store id).extendLen ≤
        s.adder.ceilPagedTokens n + m + s.adder.pageSize := by
      have hm := hcharged.maxNewTokens
      omega
    rw [hneed, hoffset, Int.cast_add]
    exact add_le_add h.charged (Int.cast_le.mpr hint)
  · -- both sides count whole pages
    have hle : ((s'.store id).extendLen : ℚ) ≤ (s'.kv.room - s.batchNeed : Int) := by
      rw [Int.cast_sub]
      exact hfits.trans (sub_le_sub_left h.charged _)
    have hdvd : (s.adder.pageSize : Int) ∣ s'.kv.room - s.batchNeed :=
      Int.dvd_sub (h.pageSize ▸ howned.dvd_room) s.dvd_batchNeed
    have hceil := (PrefillAdder.ceilPagedTokens_le_iff hps' hdvd).mpr (Int.cast_le.mp hle)
    rw [hneed]
    omega

theorem AdmitInv.keep (h : AdmitInv p s locks live) (howned : KvOwned p s'.kv locks' live')
    (hroom : s'.kv.room = s.kv.room)
    (hadder : ∃ reqStates, s'.adder = { s.adder with reqStates := reqStates })
    (hstore : ∀ id ∈ s.adder.canRunList, s'.store id = s.store id) :
    AdmitInv p s' locks' live' := by
  obtain ⟨reqStates, hadder⟩ := hadder
  have hneed : s'.batchNeed = s.batchNeed :=
    AdmitState.batchNeed_congr (by rw [hadder]) (by rw [hadder]) hstore
  refine ⟨⟨howned, by rw [hadder, ← h.pageSize], by rw [hadder, ← h.isHybridSwa],
    fun d hd => h.dllm d (by rw [← hd, hadder]), fun id hid => ?_, ?_⟩, ?_⟩
  · rw [hadder] at hid
    rw [hstore id hid]
    exact h.prefix_le id hid
  · rw [hneed, hadder]
    exact h.charged
  · rw [hneed, hroom]
    exact h.room

end Charge

section Lookup

variable {p : KvParams} {s : AdmitState} {locks : List Nat} {live : Finset Nat} {id node : Nat}

structure Waits (p : KvParams) (s : AdmitState) (id : Nat) (live : Finset Nat) : Prop
    extends Ready s id where
  hostHitLength : (s.store id).hostHitLength = 0
  lastNode : ∃ v, (s.store id).lastNode = some v ∧ (v = s.kv.cache.rootNode ∨ v ∈ live)
  off : p.disable = true → (s.store id).prefixIndices = []

theorem initNextRound_ready (h : AdmitInv p s locks live) {fillIds : List Int}
    (hid : id ∉ s.adder.canRunList) (hmax : 0 ≤ (s.store id).maxNewTokens)
    (hle : (s.store id).prefixIndices.length ≤ fillIds.length) :
    ∃ s', s.initNextRound p id fillIds none = some s' ∧ AdmitInv p s' locks live ∧ Ready s' id ∧
      s'.adder = s.adder ∧ s'.kv = s.kv := by
  refine ⟨_, rfl, h.keep h.owned rfl ⟨_, rfl⟩ fun id' hid' => ?_, ⟨hid, ?_, ?_, ?_⟩, rfl, rfl⟩
  · exact Store.set_ne _ _ fun heq => hid (heq ▸ hid')
  · simpa [Store.set_self] using hle
  · simp [Store.set_self, Req.extendLen]
  · simpa [Store.set_self] using hmax

theorem initNextRound_waits (hps : 0 < p.pageSize) (h : AdmitInv p s locks live)
    (fillIds : List Int) (lookup : PrefixLookup) (hid : id ∉ s.adder.canRunList)
    (hmax : 0 ≤ (s.store id).maxNewTokens) :
    ∃ s' live', s.initNextRound p id fillIds (some lookup) = some s' ∧
      AdmitInv p s' locks live' ∧ Waits p s' id live' ∧ s'.adder = s.adder := by
  obtain ⟨m, cache, live', hmatch, howned, hsize, hnode, hlength, hoff⟩ :=
    h.owned.matchPrefix hps (fillIds.take lookup.maxPrefixLen) lookup.extraKey lookup.now
  have hroom : (KvState.room { s.kv with cache := cache }) = s.kv.room := by
    rw [KvState.room, KvState.room, hsize]
  have hnext : s.initNextRound p id fillIds (some lookup) = some ⟨s.adder, s.store.set id
      { s.store id with
        fillIds := fillIds
        prefixIndices := m.deviceIndices
        lastNode := some m.lastDeviceNode
        hostHitLength := 0
        extendInputLen := fillIds.length - m.deviceIndices.length },
      { s.kv with cache := cache }⟩ := by
    rw [AdmitState.initNextRound]
    simp only [hmatch, Option.map_some]
  refine ⟨_, live', hnext, h.keep howned hroom ⟨s.adder.reqStates, rfl⟩ ?_,
    ⟨⟨hid, ?_, ?_, ?_⟩, ?_, ?_, ?_⟩, rfl⟩
  · exact fun id' hid' => Store.set_ne _ _ fun heq => hid (heq ▸ hid')
  · have htake := hlength.trans (List.length_take_le' _ _)
    simpa [Store.set_self] using htake
  · simp [Store.set_self, Req.extendLen]
  · simpa [Store.set_self] using hmax
  · simp [Store.set_self]
  · simpa [Store.set_self] using hnode
  · simpa [Store.set_self] using hoff

end Lookup

/-- What `add_chunked_req` may use, before it falls back on the chunk size. -/
def PrefillAdder.chunkBudget (a : PrefillAdder) (sizes : Sizes) : Option Int :=
  match a.dllm with
  | some d => some (a.dllmRoom sizes d)
  | none => a.remChunkTokens.map (a.chunkRoom sizes)

section Chunked

variable {p : KvParams} {s : AdmitState} {locks : List Nat} {live : Finset Nat} {id : Nat}
variable {a : PrefillAdder} {sizes : Sizes} {b : Int}

private theorem le_of_le_int {x : ℚ} (hpos : 0 < b) (hle : b ≤ int x) : (b : ℚ) ≤ x := by
  unfold int at hle
  split at hle
  · exact Int.le_floor.mp hle
  · next hneg =>
      have hceil : ⌈x⌉ ≤ 0 := Int.ceil_le.mpr (by simpa using (not_le.mp hneg).le)
      omega

theorem chunkBudget_spec (hswa : a.isHybridSwa = false) (hbudget : a.chunkBudget sizes = some b)
    (hpos : 0 < b) :
    a.chunkedRemTokens sizes = some (some b) ∧ (b : ℚ) ≤ a.remTotalTokens sizes := by
  cases hd : a.dllm with
  | some d =>
      have hchunk : a.chunkBudget sizes = some (a.dllmRoom sizes d) := by
        rw [PrefillAdder.chunkBudget, hd]
      obtain rfl := Option.some.inj (hchunk.symm.trans hbudget)
      refine ⟨?_, le_of_le_int hpos ((min_le_right _ _).trans (min_le_right _ _))⟩
      rw [PrefillAdder.chunkedRemTokens, hd]
      simp only [PrefillAdder.getDllmRemainTokens, if_neg (not_le.mpr hpos)]
  | none =>
      have hchunk : a.remChunkTokens.map (a.chunkRoom sizes) = some b := by
        rw [← hbudget, PrefillAdder.chunkBudget, hd]
      obtain ⟨remChunkTokens, hrem, rfl⟩ := Option.map_eq_some_iff.mp hchunk
      have hroom : a.chunkRoom sizes remChunkTokens ≤ int (a.remTotalTokens sizes) := by
        simp only [PrefillAdder.chunkRoom, hswa, Bool.false_eq_true, if_false]
        exact min_le_right _ _
      refine ⟨?_, le_of_le_int hpos hroom⟩
      rw [PrefillAdder.chunkedRemTokens, hd]
      simp only [hrem, Option.map_some, if_neg (not_le.mpr hpos)]

theorem addChunkedReq_spec (hps : 0 < p.pageSize) (h : AdmitInv p s locks live)
    (hready : Ready s id) (hbudget : s.adder.chunkBudget (kvSizes s.kv) = some b) (hpos : 0 < b) :
    ∃ chunked s', s.addChunkedReq id = some (chunked, s') ∧ AdmitInv p s' locks live := by
  obtain ⟨hrem, hle⟩ := chunkBudget_spec h.isHybridSwa hbudget hpos
  refine ⟨_, _, by rw [AdmitState.addChunkedReq, PrefillAdder.addChunkedReq, hrem]; rfl, ?_⟩
  have hextend : 0 ≤ (s.store id).extendInputLen := by
    have hpre := hready.prefix_le
    rw [hready.extendInputLen, Req.extendLen]
    omega
  refine h.charge hps (m := _) (n := min (s.store id).extendInputLen b) h.owned hready
    ⟨⟨_, _, _, rfl⟩, .inr ⟨rfl, le_min hextend hpos.le⟩, ?_⟩ ?_
  · split
    · exact le_refl _
    · exact le_min hready.maxNewTokens (by decide)
  · obtain ⟨-, -, hlen⟩ := setChunk_extendLen hready.prefix_le (le_min hextend hpos.le)
    have hmin : ((s.store.setChunk id (min (s.store id).extendInputLen b)) id).extendLen ≤ b := by
      rw [hlen]
      exact (min_le_right _ _).trans (min_le_right _ _)
    exact (Int.cast_le.mpr hmin).trans hle

end Chunked

section Locks

variable {p : KvParams} {kv kv' : KvState} {locks locks' : List Nat} {live : Finset Nat}
variable {node : Nat}

structure Relocked (p : KvParams) (kv kv' : KvState) (locks' : List Nat) (live : Finset Nat) :
    Prop where
  owned : KvOwned p kv' locks' live
  allocator : kv'.allocator = kv.allocator
  shape : MemCache.RadixCache.SameShape kv.cache kv'.cache

theorem Relocked.trans {kv'' : KvState} {locks'' : List Nat} (h : Relocked p kv kv' locks' live)
    (h' : Relocked p kv' kv'' locks'' live) : Relocked p kv kv'' locks'' live :=
  ⟨h'.owned, h'.allocator.trans h.allocator, h.shape.trans h'.shape⟩

theorem Relocked.room_eq (h : KvOwned p kv locks live) (h' : Relocked p kv kv' locks' live)
    (hmem : ∀ w, w ∈ locks' ↔ w ∈ locks) : kv'.room = kv.room := by
  rw [KvState.room, KvState.room, h'.allocator,
    h.tree.evictableSize_congr h'.owned.tree h'.shape hmem]

theorem incLock_spec (h : KvOwned p kv locks live)
    (hnode : node = kv.cache.rootNode ∨ node ∈ live) :
    ∃ kv', incLock p (some node) kv = some kv' ∧ Relocked p kv kv' (node :: locks) live := by
  obtain ⟨_, cache, hinc, hshape, htree⟩ := MemCache.RadixCache.incLockRef_any h.off h.tree hnode
  refine ⟨{ kv with cache := cache }, ?_, h.sameShape hshape htree, rfl, hshape⟩
  simp only [incLock, hinc, Option.map_some]

theorem decLock_spec (h : KvOwned p kv (node :: locks) live) :
    ∃ kv', decLock p (some node) kv = some kv' ∧ Relocked p kv kv' locks live := by
  obtain ⟨_, cache, hdec, hshape, htree⟩ := MemCache.RadixCache.decLockRef_any h.off h.tree
  refine ⟨{ kv with cache := cache }, ?_, h.sameShape hshape htree, rfl, hshape⟩
  simp only [decLock, hdec, Option.map_some]

end Locks

namespace PrefillAdder

variable {a : PrefillAdder}

theorem truncLen_pos {remChunkTokens prefixLen n : Int} {align : Option Int}
    (h : a.truncLen remChunkTokens prefixLen align = some n) : 0 < n := by
  unfold truncLen at h
  simp only at h
  split at h
  · cases h
  · obtain ⟨aligned, -, hlen⟩ := Option.bind_eq_some_iff.mp h
    split at hlen
    · cases hlen
    · next hpos =>
        obtain rfl := Option.some.inj hlen
        exact not_le.mp hpos

theorem extendInputLen_le_totalTokens (req : Req) : req.extendInputLen ≤ a.totalTokens req := by
  have hmax : 0 ≤ min (max (req.maxNewTokens - req.outputIds.length) 0) clipMaxNewTokens :=
    le_min (le_max_right _ _) (by decide)
  unfold totalTokens
  omega

end PrefillAdder

section Waiting

variable {p : KvParams} {o : AddOptions} {s s' : AdmitState} {locks : List Nat}
variable {live : Finset Nat} {id : Nat}

theorem charged_whole (sizes : Sizes) (kv : KvState) {n m : Int} (hn : (s.store id).extendLen ≤ n)
    (hm : 0 ≤ m) : Charged s ⟨({ s.adder with canRunList := s.adder.canRunList ++ [id] } :
      PrefillAdder).updatePrefillBudget sizes n m, s.store, kv⟩ id n m :=
  ⟨⟨sizes, _, _, rfl⟩, .inl ⟨rfl, hn⟩, hm⟩

theorem charged_dllm (id : Nat) {d : Dllm} (sizes : Sizes) (hrem : 0 < d.remDllmTokens)
    (hblock : 0 ≤ d.dllmBlockSize) {prefixLen : Int}
    (hlen : prefixLen = (s.store id).prefixIndices.length) (kv : KvState)
    (reqStates : Option (List Reservation)) :
    ∃ n, Charged s
      ⟨(({ s.adder with reqStates := reqStates } : PrefillAdder).addDllmReq sizes s.store d id
          prefixLen).1,
        (({ s.adder with reqStates := reqStates } : PrefillAdder).addDllmReq sizes s.store d id
          prefixLen).2, kv⟩ id n 0 := by
  refine ⟨(min d.remDllmTokens d.dllmBlockSize).fdiv s.adder.pageSize * s.adder.pageSize,
    ⟨sizes, _, _, rfl⟩, .inr ⟨?_, ?_⟩, le_refl _⟩
  · rw [hlen]
    rfl
  · have hmin : 0 ≤ min d.remDllmTokens d.dllmBlockSize := le_min hrem.le hblock
    rw [Int.fdiv_eq_ediv_of_nonneg _ (Int.natCast_nonneg _)]
    exact Int.mul_nonneg (Int.ediv_nonneg hmin (Int.natCast_nonneg _)) (Int.natCast_nonneg _)

/-- While the prefix is locked, the request is charged and locked once more, or nothing happens. -/
theorem addLocked_spec (h : AdmitBook p s locks live) (hps : 0 < p.pageSize)
    (hwaits : Waits p s id live) {v : Nat} (hlast : (s.store id).lastNode = some v)
    (halign : s.adder.dllm.isSome → o.truncationAlignSize = none) :
    ∃ result s', s.addLocked p o id = some (result, s') ∧ (s' = s ∨
      ∃ n m, Charged s s' id n m ∧
        Relocked p s.kv s'.kv (v :: locks) live ∧
        ((s.store id).extendLen : ℚ) ≤ s.kv.room - s.adder.remTotalTokenOffset) := by
  obtain ⟨v', hlast', hnode⟩ := hwaits.lastNode
  obtain rfl : v' = v := Option.some.inj (hlast'.symm.trans hlast)
  obtain ⟨kv, hinc, hlocked⟩ := incLock_spec h.owned hnode
  have hps' : 0 < s.adder.pageSize := h.pageSize ▸ hps
  have hmax : 0 ≤ min (s.store id).maxNewTokens clipMaxNewTokens :=
    le_min hwaits.maxNewTokens (by decide)
  unfold AdmitState.addLocked
  simp only [hlast, hinc, Option.map_some]
  split
  · exact ⟨_, _, rfl, .inl rfl⟩
  · next htotal =>
      have hfits : ((s.store id).extendLen : ℚ) ≤ s.kv.room - s.adder.remTotalTokenOffset := by
        have hle : ((s.store id).extendLen : ℚ) ≤ s.adder.totalTokens (s.store id) := by
          rw [← hwaits.extendInputLen]
          exact Int.cast_le.mpr (PrefillAdder.extendInputLen_le_totalTokens _)
        exact hle.trans (not_le.mp htotal).le
      rw [if_neg (by simp [h.isHybridSwa]), if_neg (by simp [hwaits.hostHitLength])]
      split
      · exact ⟨_, _, rfl, .inl rfl⟩
      · have hwhole := charged_whole (kvSizes s.kv) kv
          (n := s.adder.ceilPagedTokens (s.store id).extendInputLen) (by
            rw [hwaits.extendInputLen]
            exact PrefillAdder.le_ceilPagedTokens hps' _) hmax
        split
        · next d hd =>
            split
            · exact ⟨_, _, rfl, .inl rfl⟩
            · next hrem =>
                obtain ⟨n, hcharged⟩ := charged_dllm id (kvSizes s.kv)
                  (not_le.mp hrem) (h.dllm d hd) rfl kv s.adder.reqStates
                rw [if_neg (by simp [halign (by simp [hd])])]
                exact ⟨_, _, rfl, .inr ⟨n, 0, hcharged, hlocked, hfits⟩⟩
        · split
          · exact ⟨_, _, rfl, .inr ⟨_, _, hwhole, hlocked, hfits⟩⟩
          · split
            · exact ⟨_, _, rfl, .inr ⟨_, _, hwhole, hlocked, hfits⟩⟩
            · split
              · exact ⟨_, _, rfl, .inl rfl⟩
              · next n hn =>
                  have hpos := PrefillAdder.truncLen_pos hn
                  exact ⟨_, _, rfl, .inr ⟨n, 0, ⟨⟨_, _, _, rfl⟩, .inr ⟨rfl, hpos.le⟩, le_refl _⟩,
                    hlocked, hfits⟩⟩

/-- A request that ignores the end of sequence is charged, or only the list of the simulation
changes. -/
theorem addOneReqIgnoreEos_spec (h : AdmitBook p s locks live) (hps : 0 < p.pageSize)
    (hwaits : Waits p s id live) (hoff : p.disable = true) (allowPrefill : Bool) :
    let out := s.adder.addOneReqIgnoreEos (kvSizes s.kv) s.store id allowPrefill
    (out.store = s.store ∧ ∃ reqStates, out.adder = { s.adder with reqStates := reqStates }) ∨
      ∃ n m, Charged s ⟨out.adder, out.store, s.kv⟩ id n m ∧
        ((s.store id).extendLen : ℚ) ≤ s.kv.room - s.adder.remTotalTokenOffset := by
  have hps' : 0 < s.adder.pageSize := h.pageSize ▸ hps
  have hmax : 0 ≤ min (s.store id).maxNewTokens clipMaxNewTokens :=
    le_min hwaits.maxNewTokens (by decide)
  have hnone : (s.store id).prefixIndices.length = 0 := by rw [hwaits.off hoff, List.length_nil]
  have hextend := hwaits.extendInputLen.ge
  simp only
  unfold PrefillAdder.addOneReqIgnoreEos
  simp only
  split
  · exact .inl ⟨rfl, _, rfl⟩
  · next hroom =>
      have hfits : ((s.store id).extendLen : ℚ) ≤ s.kv.room - s.adder.remTotalTokenOffset := by
        have hceil := hextend.trans (PrefillAdder.le_ceilPagedTokens hps' _)
        exact (Int.cast_le.mpr hceil).trans ((not_lt.mp hroom).trans (min_le_right _ _))
      rw [if_neg (by simp [h.isHybridSwa])]
      split
      · exact .inl ⟨rfl, _, rfl⟩
      · split
        · exact .inl ⟨rfl, _, rfl⟩
        · generalize s.adder.nextReqStates s.store id = states
          unfold PrefillAdder.admitIgnoreEos
          simp only
          split
          · next d hd =>
              split
              · exact .inl ⟨rfl, _, rfl⟩
              · next hrem =>
                  obtain ⟨n, hcharged⟩ := charged_dllm id (kvSizes s.kv)
                    (not_le.mp hrem) (h.dllm d hd) (by rw [hnone]) s.kv (some states)
                  exact .inr ⟨n, 0, hcharged, hfits⟩
          · split
            · exact .inr ⟨_, _, ⟨⟨_, _, _, rfl⟩, .inl ⟨rfl, hextend⟩, hmax⟩, hfits⟩
            · split
              · exact .inr ⟨_, _, ⟨⟨_, _, _, rfl⟩, .inl ⟨rfl, hextend⟩, hmax⟩, hfits⟩
              · split
                · exact .inl ⟨rfl, _, rfl⟩
                · next remChunkTokens _ _ hpos =>
                    refine .inr ⟨remChunkTokens, 0, ⟨⟨_, _, _, rfl⟩, .inr ⟨?_, ?_⟩, le_refl _⟩,
                      hfits⟩
                    · rw [Store.setChunk, hnone, Nat.cast_zero, zero_add]
                    · exact (not_le.mp hpos).le

theorem addOneReq_spec (h : AdmitInv p s locks live) (hps : 0 < p.pageSize)
    (hwaits : Waits p s id live) (halign : s.adder.dllm.isSome → o.truncationAlignSize = none) :
    ∃ result s' locks', s.addOneReq p o id = some (result, s') ∧ AdmitInv p s' locks' live := by
  unfold AdmitState.addOneReq
  simp only
  split
  · exact ⟨_, _, _, rfl, h⟩
  · split
    · exact ⟨_, _, _, rfl, h⟩
    · split
      · exact ⟨_, _, _, rfl, h⟩
      · split
        · next hoff =>
            refine ⟨_, _, locks, rfl, ?_⟩
            obtain ⟨hstore, hadder⟩ | ⟨n, m, hcharged, hfits⟩ :=
              addOneReqIgnoreEos_spec h.toAdmitBook hps hwaits hoff.2 o.allowIgnoreEos
            · exact h.keep h.owned rfl hadder fun id' _ => by rw [hstore]
            · refine h.charge hps h.owned hwaits.toReady hcharged ?_
              exact (Int.cast_le.mpr (hcharged.extendLen hwaits.toReady).2.1).trans hfits
        · split
          · exact ⟨_, _, _, rfl, h⟩
          · rw [if_neg (by simp [h.isHybridSwa])]
            split
            · exact ⟨_, _, _, rfl, h⟩
            · obtain ⟨v, hlast, hnode⟩ := hwaits.lastNode
              obtain ⟨kv₁, hinc, hlocked⟩ := incLock_spec h.owned hnode
              have hbook : AdmitBook p { s with kv := kv₁ } (_ :: locks) live :=
                { h.toAdmitBook with owned := hlocked.owned }
              have hwaits₁ : Waits p { s with kv := kv₁ } id live :=
                { hwaits with
                  lastNode := ⟨v, hlast, hlocked.shape.rootNode.symm ▸ hnode⟩ }
              obtain ⟨result, s', hlock, hs'⟩ := addLocked_spec hbook hps hwaits₁ hlast halign
              obtain rfl | ⟨n, m, hcharged, hrelocked, hfits⟩ := hs'
              · obtain ⟨kv', hdec, hback⟩ := decLock_spec hlocked.owned
                refine ⟨result.getD (s.adder.budgetState (kvSizes kv')), { s with kv := kv' },
                  locks, ?_, h.keep hback.owned ?_ ⟨_, rfl⟩ fun _ _ => rfl⟩
                · simp only [hlast, hinc, Option.bind_some, hlock, hdec, Option.map_some]
                · exact (hlocked.trans hback).room_eq h.owned fun w => Iff.rfl
              · obtain ⟨kv', hdec, hback⟩ := decLock_spec hrelocked.owned
                refine ⟨result.getD (s'.adder.budgetState (kvSizes kv')), { s' with kv := kv' }, _,
                  ?_, hbook.charge hps hback.owned hwaits₁.toReady ⟨hcharged.adder,
                    hcharged.store, hcharged.maxNewTokens⟩ ?_⟩
                · simp only [hlast, hinc, Option.bind_some, hlock, hdec, Option.map_some]
                · -- the lock of the request stays, so as much is protected as while it decided
                  have hroom := (hrelocked.trans hback).room_eq hlocked.owned fun w => Iff.rfl
                  have hless := (hcharged.extendLen hwaits₁.toReady).2.1
                  rw [hroom]
                  exact (Int.cast_le.mpr hless).trans hfits

end Waiting

namespace AdmitCall

/-- What a scheduling round promises: the request is not in the batch yet, its prompt goes on from
its prefix, there is a chunk size if there is a chunked request, and the chunks of a diffusion
model are not aligned. -/
def Fits (s : AdmitState) : AdmitCall → Prop
  | chunked id fillIds => id ∉ s.adder.canRunList ∧ 0 ≤ (s.store id).maxNewTokens ∧
      (s.store id).prefixIndices.length ≤ fillIds.length ∧
      (s.adder.dllm.isSome ∨ s.adder.remChunkTokens.isSome)
  | waiting id _ _ options => id ∉ s.adder.canRunList ∧ 0 ≤ (s.store id).maxNewTokens ∧
      (s.adder.dllm.isSome → options.truncationAlignSize = none)

/-- There is a budget for the chunked request, which need not be added without one. -/
def HasBudget (s : AdmitState) : AdmitCall → Prop
  | chunked _ _ => ∀ b, s.adder.chunkBudget (kvSizes s.kv) = some b → 0 < b
  | waiting _ _ _ _ => True

end AdmitCall

/-- A round begins with an empty batch and the tokens that the running requests may still need. -/
structure Starts (p : KvParams) (s : AdmitState) (locks : List Nat) (live : Finset Nat) : Prop where
  owned : KvOwned p s.kv locks live
  adder : ∃ (runningBatch : List Nat) (newTokenRatio : ℚ) (remInputTokens : Int)
    (remChunkTokens : Option Int) (numMixedDecodeTokens : Nat) (dllm : Option Dllm)
    (threshold : Int), s.adder = PrefillAdder.init s.store p.pageSize false runningBatch
      newTokenRatio remInputTokens remChunkTokens numMixedDecodeTokens dllm threshold
  newTokenRatio : 0 ≤ s.adder.newTokenRatio
  dllm : ∀ d, s.adder.dllm = some d → 0 ≤ d.dllmBlockSize

/-- No running request has more output than it may have. -/
def NotOverdrawn (s : AdmitState) : Prop :=
  ∀ r ∈ s.adder.runningBatch, ((s.store r).outputIds.length : Int) ≤ (s.store r).maxNewTokens

/-- The calls of a round, each of which is as `ok` asks. -/
inductive AdmitRun (p : KvParams) (ok : AdmitState → AdmitCall → Prop) (s₀ : AdmitState) :
    AdmitState → Prop where
  | start : AdmitRun p ok s₀ s₀
  | call {s s' : AdmitState} (k : AdmitCall) (hrun : AdmitRun p ok s₀ s) (hfits : k.Fits s)
      (hok : ok s k) (hexec : k.exec p s = some s') : AdmitRun p ok s₀ s'

section Round

variable {p : KvParams} {s s₀ : AdmitState} {locks : List Nat} {live : Finset Nat} {k : AdmitCall}

theorem Starts.inv (h : Starts p s locks live) (hrunning : NotOverdrawn s) :
    AdmitInv p s locks live := by
  obtain ⟨runningBatch, ratio, remInput, remChunk, mixed, dllm, threshold, hadder⟩ := h.adder
  have hnil : s.adder.canRunList = [] := by rw [hadder]; rfl
  have hneed : s.batchNeed = 0 := by rw [AdmitState.batchNeed, hnil]; rfl
  have hroom : 0 ≤ s.kv.room := by
    rw [KvState.room, h.owned.tree.book.evictable]
    refine Int.add_nonneg (Int.natCast_nonneg _) (Finset.sum_nonneg fun v _ => ?_)
    split
    · exact Int.natCast_nonneg _
    · exact le_refl _
  refine ⟨⟨h.owned, by rw [hadder]; rfl, by rw [hadder]; rfl, h.dllm, fun id hid => ?_, ?_⟩, ?_⟩
  · rw [hnil] at hid
    exact absurd hid List.not_mem_nil
  · have hrest : 0 ≤ (runningBatch.map fun r =>
        PrefillAdder.runningRequestOffset ratio (s.store r)).sum := by
      refine List.sum_nonneg fun x hx => ?_
      obtain ⟨r, hr, rfl⟩ := List.mem_map.mp hx
      have hleft := hrunning r (by rw [hadder]; exact hr)
      have hratio : 0 ≤ ratio := by
        have hratio := h.newTokenRatio
        rwa [hadder] at hratio
      refine mul_nonneg (Int.cast_nonneg (le_min ?_ (by decide))) hratio
      omega
    rw [hneed, hadder, Int.cast_zero]
    exact add_nonneg (by simp) hrest
  · rw [hneed]
    exact hroom

theorem AdmitInv.call (h : AdmitInv p s locks live) (hps : 0 < p.pageSize) (hfits : k.Fits s)
    (hbudget : k.HasBudget s) :
    ∃ s' locks' live', k.exec p s = some s' ∧ AdmitInv p s' locks' live' := by
  cases k with
  | chunked id fillIds =>
      obtain ⟨hid, hmax, hle, hchunk⟩ := hfits
      obtain ⟨s₁, hnext, hinv, hready, hadder, hkv⟩ := initNextRound_ready h hid hmax hle
      have hsome : ∃ b, s.adder.chunkBudget (kvSizes s.kv) = some b := by
        unfold PrefillAdder.chunkBudget
        split
        · exact ⟨_, rfl⟩
        · next hnone =>
            obtain ⟨n, hn⟩ := Option.isSome_iff_exists.mp
              (hchunk.resolve_left (by rw [hnone]; exact Bool.false_ne_true))
            exact ⟨_, by rw [hn]; rfl⟩
      obtain ⟨b, hb⟩ := hsome
      obtain ⟨_, s₂, hadd, hinv₂⟩ := addChunkedReq_spec hps hinv hready
        (by rw [hadder, hkv]; exact hb) (hbudget b hb)
      refine ⟨s₂, locks, live, ?_, hinv₂⟩
      rw [AdmitCall.exec, hnext, Option.bind_some, hadd]
      rfl
  | waiting id fillIds lookup options =>
      obtain ⟨hid, hmax, halign⟩ := hfits
      obtain ⟨s₁, live₁, hnext, hinv, hwaits, hadder⟩ :=
        initNextRound_waits hps h fillIds lookup hid hmax
      obtain ⟨_, s₂, locks₂, hadd, hinv₂⟩ := addOneReq_spec hinv hps hwaits
        (by rw [hadder]; exact halign)
      refine ⟨s₂, locks₂, live₁, ?_, hinv₂⟩
      rw [AdmitCall.exec, hnext, Option.bind_some, hadd]
      rfl

theorem AdmitRun.inv (hps : 0 < p.pageSize) (hstart : Starts p s₀ locks live)
    (hrunning : NotOverdrawn s₀) (h : AdmitRun p (fun s k => k.HasBudget s) s₀ s) :
    ∃ locks' live', AdmitInv p s locks' live' := by
  induction h with
  | start => exact ⟨locks, live, hstart.inv hrunning⟩
  | call k _ hfits hbudget hexec ih =>
      obtain ⟨locks', live', hinv⟩ := ih
      obtain ⟨s₁, locks₁, live₁, hexec₁, hinv₁⟩ := hinv.call hps hfits hbudget
      obtain rfl := Option.some.inj (hexec.symm.trans hexec₁)
      exact ⟨locks₁, live₁, hinv₁⟩

theorem AdmitBook.pages_batch_le (h : AdmitBook p s locks live) (hps : 0 < p.pageSize) :
    (((s.batch.map (·.numNewPages p.pageSize)).sum * p.pageSize : Nat) : Int) ≤ s.batchNeed := by
  rw [AdmitState.batchNeed, AdmitState.batch, List.map_map, ← List.sum_map_mul_right,
    Nat.cast_list_sum, List.map_map]
  refine List.sum_le_sum fun id hid => ?_
  have hpages := PrefillAdder.numNewPages_le_ceilPagedTokens (a := s.adder) (h.pageSize ▸ hps)
    (r := { prefixLen := (s.store id).prefixIndices.length
            seqLen := (s.store id).fillIds.length
            lastLoc := MemCache.Allocator.lastLoc (s.store id).prefixIndices }) (h.prefix_le id hid)
  rw [h.pageSize] at hpages
  exact hpages

/-- The batch of a round in which no chunked request is added without a budget fits into what is
free or can be evicted, and its allocation ends and succeeds. Until then every call returns. -/
theorem AdmitRun.allocates (hps : 0 < p.pageSize) (hstart : Starts p s₀ locks live)
    (hrunning : NotOverdrawn s₀) (h : AdmitRun p (fun s k => k.HasBudget s) s₀ s)
    (mem : LaunchMem) :
    s.batchNeed ≤ s.kv.allocator.availableSize + s.kv.cache.evictableSize ∧
      (∃ victims, (s.kv.allocBatch p mem s.batch victims).isSome) ∧
      (∀ victims result kv, s.kv.allocBatch p mem s.batch victims = some (result, kv) →
        ∃ out, result = .slots out) ∧
      ∀ k : AdmitCall, k.Fits s → k.HasBudget s → (k.exec p s).isSome := by
  obtain ⟨locks', live', hinv⟩ := h.inv hps hstart hrunning
  refine ⟨hinv.room, hinv.owned.allocBatch_ends hps mem _, fun victims result kv halloc => ?_,
    fun k hfits hbudget => ?_⟩
  · refine hinv.owned.allocBatch hps (fun r hr => ?_)
      ((hinv.pages_batch_le hps).trans hinv.room) halloc
    obtain ⟨id, hid, rfl⟩ := List.mem_map.mp hr
    exact hinv.prefix_le id hid
  · obtain ⟨s', -, -, hexec, -⟩ := hinv.call hps hfits hbudget
    rw [hexec]
    rfl

end Round

section Runs

def freshReq (maxNewTokens : Int) (outputIds : List Int) : Req where
  originInputIds := []
  outputIds := outputIds
  fillIds := []
  prefixIndices := []
  extendInputLen := 0
  hostHitLength := 0
  lastNode := none
  maxNewTokens := maxNewTokens
  ignoreEos := false
  priority := 0
  waitQueueEntryTime := 0
  hasInputEmbeds := false
  finished := false

/-- Pages of four slots. -/
def fourSlots : KvParams := ⟨⟨false, 4, false, .lru⟩, false, false⟩

/-- A round over a new pool of `size` slots, with chunks of eight tokens. -/
def newRound (size : Nat) (runningBatch : List Nat) (store : Store) : AdmitState where
  adder := PrefillAdder.init store 4 false runningBatch 1 100 (some 8) (0 : Nat) none 0
  store := store
  kv := ⟨.new size 4 false, .new 0, []⟩

theorem starts_newRound (size : Nat) (runningBatch : List Nat) (store : Store) :
    Starts fourSlots (newRound size runningBatch store) [] ∅ where
  owned := (MemCache.KvInv.new false 0).kvOwned (s := (newRound size runningBatch store).kv)
    (p := fourSlots) (n := size / 4) fun _ => rfl
  adder := ⟨runningBatch, 1, 100, some 8, 0, none, 0, rfl⟩
  newTokenRatio := zero_le_one
  dllm d hd := by cases hd

def waitingCall (id : Nat) (fillIds : List Int) : AdmitCall :=
  .waiting id fillIds ⟨fillIds.length - 1, none, 1⟩ ⟨none, true, true, false, none⟩

theorem exec_eq_getD {k : AdmitCall} {s : AdmitState} (h : (k.exec fourSlots s).isSome) :
    k.exec fourSlots s = some ((k.exec fourSlots s).getD s) := by
  obtain ⟨s', hs'⟩ := Option.isSome_iff_exists.mp h
  rw [hs', Option.getD_some]

/-- A pool of 32 slots whose tree holds the first two pages of a finished request. -/
def sharedPool : KvState :=
  (MemCache.KvOp.execAll fourSlots ⟨.new 32 4 false, .new 0, []⟩
    [.arrive [1, 2, 3, 4, 5, 6, 7, 8, 9] none 0, .initNextRound 0 8 1, .extend 0 9 [],
      .release 0 true 2 true]).getD ⟨.new 32 4 false, .new 0, []⟩

/-- A round over that pool. -/
def sharedRound : AdmitState := { newRound 32 [] fun _ => freshReq 2 [] with kv := sharedPool }

theorem starts_sharedRound : ∃ live, Starts fourSlots sharedRound [] live := by
  have hsome : (MemCache.KvOp.execAll fourSlots ⟨.new 32 4 false, .new 0, []⟩
      [.arrive [1, 2, 3, 4, 5, 6, 7, 8, 9] none 0, .initNextRound 0 8 1, .extend 0 9 [],
        .release 0 true 2 true]).isSome := by decide +kernel
  obtain ⟨kv, hkv⟩ := Option.isSome_iff_exists.mp hsome
  have hpool : sharedPool = kv := by rw [sharedPool, hkv, Option.getD_some]
  have hnew : MemCache.KvRun fourSlots 32 (fun s op => op.KeepsProtected fourSlots s) _ :=
    .new false 0
  obtain ⟨live, hinv⟩ :=
    (hnew.execAll (by simp [MemCache.KvOp.KeepsProtected, fourSlots]) hkv).inv (by decide)
  have hrest : sharedPool.reqs = [] ∧ sharedPool.allocator.releasePages = [] := by
    decide +kernel
  rw [← hpool] at hinv
  have howned := hinv.kvOwned fun _ => hrest.2
  rw [hrest.1] at howned
  exact ⟨live, howned, ⟨[], 1, 100, some 8, 0, none, 0, rfl⟩, zero_le_one, fun d hd => by cases hd⟩

/-- Two waiting requests share the first page of the tree and one of them the second, so both
pages are locked when the batch gets its slots. -/
theorem allocates_sharedPrefix : ∃ s, AdmitRun fourSlots (fun s k => k.HasBudget s) sharedRound s ∧
    s.adder.canRunList = [0, 1] ∧ s.batch.map (·.prefixLen) = [4, 8] ∧
      s.kv.cache.protectedSize = 8 ∧ s.batchNeed = 8 ∧
      s.batchNeed ≤ s.kv.allocator.availableSize + s.kv.cache.evictableSize ∧
      (∃ victims, (s.kv.allocBatch fourSlots .zero s.batch victims).isSome) ∧
      (∀ victims result kv,
        s.kv.allocBatch fourSlots .zero s.batch victims = some (result, kv) →
          ∃ out, result = .slots out) ∧
      ∀ k : AdmitCall, k.Fits s → k.HasBudget s → (k.exec fourSlots s).isSome := by
  let s₁ := ((waitingCall 0 [1, 2, 3, 4, 9, 9]).exec fourSlots sharedRound).getD sharedRound
  let s₂ := ((waitingCall 1 [1, 2, 3, 4, 5, 6, 7, 8, 0]).exec fourSlots s₁).getD s₁
  have hrun₁ : AdmitRun fourSlots (fun s k => k.HasBudget s) sharedRound s₁ :=
    .call (waitingCall 0 [1, 2, 3, 4, 9, 9]) .start
      ⟨by decide +kernel, by decide +kernel, by decide +kernel⟩ trivial
      (exec_eq_getD (by decide +kernel))
  have hrun₂ : AdmitRun fourSlots (fun s k => k.HasBudget s) sharedRound s₂ :=
    .call (waitingCall 1 [1, 2, 3, 4, 5, 6, 7, 8, 0]) hrun₁
      ⟨by decide +kernel, by decide +kernel, by decide +kernel⟩ trivial
      (exec_eq_getD (by decide +kernel))
  obtain ⟨live, hstart⟩ := starts_sharedRound
  exact ⟨s₂, hrun₂, by decide +kernel, by decide +kernel, by decide +kernel, by decide +kernel,
    AdmitRun.allocates (by decide) hstart (fun _ hr => absurd hr List.not_mem_nil) hrun₂ .zero⟩

/-- A call after which the batch has more tokens than there is room for, and gets no slots. -/
private theorem call_refused {k : AdmitCall} {s : AdmitState}
    (h : ((k.exec fourSlots s).bind fun s =>
      (s.kv.allocBatch fourSlots .zero s.batch []).map fun r =>
        (decide (s.kv.room < s.batchNeed), r.1)) = some (true, .refused)) :
    ∃ s' kv, k.exec fourSlots s = some s' ∧ s'.kv.room < s'.batchNeed ∧
      s'.kv.allocBatch fourSlots .zero s'.batch [] = some (.refused, kv) := by
  obtain ⟨s', hexec, hs'⟩ := Option.bind_eq_some_iff.mp h
  obtain ⟨⟨result, kv⟩, halloc, heq⟩ := Option.map_eq_some_iff.mp hs'
  obtain ⟨hlack, rfl⟩ := Prod.mk.inj heq
  exact ⟨s', kv, hexec, of_decide_eq_true hlack, halloc⟩

/-- A chunked request of two pages is added to a pool of one that a running request may still
need; and a waiting request is added on the tokens that a running request has put out beyond its
limit. -/
theorem admitted_refused :
    (∃ s₀ s kv, Starts fourSlots s₀ [] ∅ ∧ NotOverdrawn s₀ ∧
      AdmitRun fourSlots (fun _ _ => True) s₀ s ∧ s.kv.room < s.batchNeed ∧
      s.kv.allocBatch fourSlots .zero s.batch [] = some (.refused, kv)) ∧
    ∃ s₀ s kv, Starts fourSlots s₀ [] ∅ ∧ AdmitRun fourSlots (fun s k => k.HasBudget s) s₀ s ∧
      s.kv.room < s.batchNeed ∧
      s.kv.allocBatch fourSlots .zero s.batch [] = some (.refused, kv) := by
  let s₁ := newRound 4 [1] fun _ => freshReq 4 []
  let s₂ := newRound 4 [1] fun id => freshReq 0 (if id = 1 then List.replicate 20 0 else [])
  have hfits₁ : (AdmitCall.chunked 0 [1, 2, 3, 4, 5, 6, 7, 8]).Fits s₁ :=
    ⟨List.not_mem_nil, by decide, by decide, .inr rfl⟩
  have hfits₂ : (waitingCall 0 [1, 2, 3, 4, 5, 6, 7, 8]).Fits s₂ :=
    ⟨List.not_mem_nil, by decide, fun _ => rfl⟩
  have hrunning : NotOverdrawn s₁ := fun _ _ => Int.natCast_nonneg 4
  constructor
  · obtain ⟨s, kv, hexec, hlack, halloc⟩ :=
      call_refused (k := .chunked 0 [1, 2, 3, 4, 5, 6, 7, 8]) (s := s₁) (by decide +kernel)
    exact ⟨s₁, s, kv, starts_newRound 4 [1] _, hrunning,
      .call _ .start hfits₁ trivial hexec, hlack, halloc⟩
  · obtain ⟨s, kv, hexec, hlack, halloc⟩ :=
      call_refused (k := waitingCall 0 [1, 2, 3, 4, 5, 6, 7, 8]) (s := s₂) (by decide +kernel)
    exact ⟨s₂, s, kv, starts_newRound 4 [1] _, .call _ .start hfits₂ trivial hexec, hlack, halloc⟩

end Runs

end SpecDecode.Admission
