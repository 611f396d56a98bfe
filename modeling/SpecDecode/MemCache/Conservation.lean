import SpecDecode.MemCache.KvInvariant

/-!
# Conservation of KV slots

A run of requests over one pool: they arrive, are matched and locked, computed chunk by
chunk and token by token, cached, evicted under each other, and finish or are retracted.
What a request has locked stays in the tree, so a later insertion of its tokens finds at
least that much, and only the slots between are duplicates.

With `strip_thinking_cache` a request that was retracted and computed again can be
released below what it has cached, and the slots in between are freed under the tree.
-/

namespace SpecDecode.MemCache

open RadixTree

section Growth

variable {p : KvParams} {n : Nat} {a : Allocator} {cache : RadixCache Nat}
variable {rest : List Req} {r r' : Req} {live : Finset Nat} {s s' : KvState}

theorem ReqInv.protected_le_fillIds (h : ReqInv p cache r) (hrow : r.row ≠ []) :
    r.cacheProtectedLen ≤ r.fillIds.length :=
  (h.grown hrow).2.2.1.trans (keyLen_le _)

theorem ReqInv.protected_le_row (h : ReqInv p cache r) (hrow : r.row ≠ []) :
    r.cacheProtectedLen ≤ r.row.length := by
  obtain ⟨_, _, _, hfill, hcommit⟩ := h.grown hrow
  exact (h.protected_le_fillIds hrow).trans (hfill.trans hcommit)

theorem ReqInv.lastNode_of_row (h : ReqInv p cache r) (hrow : r.row ≠ []) :
    ∃ v, r.lastNode = some v := by
  cases hnode : r.lastNode with
  | none => exact absurd (h.waiting hnode).1 hrow
  | some v => exact ⟨v, rfl⟩

theorem ReqInv.prefixIndices_eq (h : ReqInv p cache r)
    (hstart : r.row = [] ∨ r.prefixIndices.length = r.row.length) :
    r.cacheProtectedLen ≤ r.prefixIndices.length ∧
      r.row.drop r.cacheProtectedLen = r.prefixIndices.drop r.cacheProtectedLen := by
  by_cases hrow : r.row = []
  · have hlen := h.start hrow
    refine ⟨hlen.ge, ?_⟩
    rw [hrow, List.drop_nil, List.drop_eq_nil_of_le hlen.le]
  · have hlen := hstart.resolve_left hrow
    refine ⟨(h.protected_le_row hrow).trans hlen.ge, ((h.grown hrow).1.eq_of_length ?_).symm⟩
    rw [List.length_drop, List.length_drop, hlen]

variable (hps : 0 < p.pageSize)

include hps

private theorem le_keyLen_add {m k : Nat} (hm : p.pageSize ∣ m) (hk : 1 ≤ k) :
    m ≤ keyLen p (m + k) := by
  obtain ⟨j, rfl⟩ := hm
  rw [keyLen, Nat.mul_comm p.pageSize j]
  refine Nat.mul_le_mul_right _ ((Nat.le_div_iff_mul_le hps).mpr ?_)
  split <;> omega

theorem KvInv.extend (h : KvInv p n s.allocator s.cache (r :: rest) live)
    (hlocked : r.lastNode ≠ none) (hstart : r.row = [] ∨ r.prefixIndices.length = r.row.length)
    {extendLen : Nat} (hpos : 1 ≤ extendLen)
    (hle : r.prefixIndices.length + extendLen ≤ r.tokens.length) {victims : List Nat}
    (hextend : s.extend p extendLen victims r = some (r', s')) :
    s'.reqs = s.reqs ∧ ∃ live', KvInv p n s'.allocator s'.cache (r' :: rest) live' := by
  obtain ⟨⟨out, s₁⟩, halloc, heq⟩ := Option.map_eq_some_iff.mp hextend
  obtain ⟨rfl, rfl⟩ := Prod.mk.inj heq
  have hr := h.each r List.mem_cons_self
  obtain ⟨P, hP⟩ := hr.prefixLaid
  have hfill :
    ((r.originInputIds ++ r.outputIds).take (r.prefixIndices.length + extendLen)).length =
      r.prefixIndices.length + extendLen := List.length_take_of_le hle
  rw [hfill] at halloc
  obtain ⟨hreqs, live', a, N, h₁, hgrows, hlen⟩ :=
    h.allocSlotsExtend hps hP (Nat.le_add_right _ _) halloc
  have hr₁ := h₁.each r List.mem_cons_self
  obtain ⟨hprotected, hsame⟩ := hr.prefixIndices_eq hstart
  have hlaid := hgrows.laid
  rw [h₁.pageSize] at hlaid
  refine ⟨hreqs, live', h₁.grow hps hgrows hP hprotected hsame ⟨rfl, rfl, rfl⟩ ?_⟩
  refine ⟨fun hnone => absurd hnone hlocked, hr.aligned, hr.protected_le, hr₁.path, hr.prefixLaid,
    ⟨_, hlaid⟩, fun hnil => ?_,
    fun _ => ⟨(List.prefix_append _ _).drop _, ?_, ?_, Nat.le_refl _, ?_⟩⟩
  · have hout : out = [] := (List.append_eq_nil_iff.mp hnil).2
    rw [hout, List.length_nil] at hlen
    omega
  · simp only [Req.tokens, hfill]
  · simp only [hfill]
    by_cases hrow : r.row = []
    · rw [hr.start hrow]
      exact le_keyLen_add hps hr.aligned hpos
    · obtain ⟨_, _, hkey, hcommit, hrowlen⟩ := hr.grown hrow
      exact hkey.trans (keyLen_mono (by have := hstart.resolve_left hrow; omega))
  · simp only [hfill, List.length_append, hlen]
    omega

/-- Slots are added behind the row, and some of them are counted as committed. -/
theorem KvInv.append (h : KvInv p n a cache (r :: rest) live) {a' : Allocator} {out P N : List Nat}
    (hrow : r.row ≠ []) (hP : Laid p.pageSize r.row P)
    (hgrows : Allocator.Grows a a' r.row out P N) {committed : Nat}
    (hle : r.kvCommittedLen ≤ committed) (hlen : committed ≤ r.row.length + out.length) :
    KvInv p n a' cache ({ r with row := r.row ++ out, kvCommittedLen := committed } :: rest)
    live := by
  have hr := h.each r List.mem_cons_self
  have hlaid := hgrows.laid
  rw [h.pageSize] at hlaid
  refine h.grow hps hgrows hP (hr.protected_le_row hrow) rfl ⟨rfl, rfl, rfl⟩ ?_
  obtain ⟨hkept, hfill, hkey, hcommit, _⟩ := hr.grown hrow
  refine ⟨fun hnone => absurd (hr.waiting hnone).1 hrow, hr.aligned, hr.protected_le, hr.path,
    hr.prefixLaid, ⟨_, hlaid⟩, fun hnil => absurd (List.append_eq_nil_iff.mp hnil).1 hrow,
    fun _ => ⟨hkept.trans ((List.prefix_append _ _).drop _), hfill, hkey, hcommit.trans hle, ?_⟩⟩
  rw [List.length_append]
  exact hlen

theorem KvInv.decode (h : KvInv p n s.allocator s.cache (r :: rest) live) (hrow : r.row ≠ [])
    (hfull : r.kvCommittedLen = r.row.length) {victims : List Nat}
    (hdecode : s.decode p victims r = some (r', s')) :
    s'.reqs = s.reqs ∧ ∃ live', KvInv p n s'.allocator s'.cache (r' :: rest) live' := by
  obtain ⟨⟨out, s₁⟩, halloc, heq⟩ := Option.map_eq_some_iff.mp hdecode
  obtain ⟨rfl, rfl⟩ := Prod.mk.inj heq
  obtain ⟨P, hP⟩ := (h.each r List.mem_cons_self).rowLaid
  rw [hfull, List.take_length] at halloc
  obtain ⟨hreqs, live', a, N, h₁, hgrows, hlen⟩ := h.allocSlotsDecode hps hP halloc
  refine ⟨hreqs, live', ?_⟩
  have hwrite : writeSlice r.row r.kvCommittedLen (r.kvCommittedLen + 1) out = r.row ++ out := by
    rw [writeSlice, if_pos (Nat.lt_succ_self _), hfull, List.take_length,
      List.drop_eq_nil_of_le (Nat.le_succ _), List.append_nil]
  rw [hwrite]
  exact h₁.append hps hrow hP hgrows (Nat.le_succ _) (by omega)

theorem KvInv.specDecode (h : KvInv p n s.allocator s.cache (r :: rest) live) (hrow : r.row ≠ [])
    {doubleAlloc : Nat} (hpos : 1 ≤ doubleAlloc)
    (hle : r.row.length ≤ r.kvCommittedLen + doubleAlloc)
    {victims : List Nat} (hdecode : s.specDecode p doubleAlloc victims r = some (r', s')) :
    s'.reqs = s.reqs ∧ ∃ live', KvInv p n s'.allocator s'.cache (r' :: rest) live' := by
  obtain ⟨⟨out, s₁⟩, halloc, heq⟩ := Option.map_eq_some_iff.mp hdecode
  obtain ⟨rfl, rfl⟩ := Prod.mk.inj heq
  obtain ⟨P, hP⟩ := (h.each r List.mem_cons_self).rowLaid
  obtain ⟨hreqs, live', a, N, h₁, hgrows, hlen⟩ := h.allocSlotsExtend hps hP hle halloc
  exact ⟨hreqs, live', h₁.append hps hrow hP hgrows (Nat.le_succ _) (by omega)⟩

omit hps in
theorem KvInv.keep (h : KvInv p n a cache (r :: rest) live)
    (hr' : r'.row = r.row ∧ r'.cacheProtectedLen = r.cacheProtectedLen ∧ r'.lastNode = r.lastNode)
    (hinv : ReqInv p cache r') : KvInv p n a cache (r' :: rest) live := by
  obtain ⟨hrow, hprotected, hnode⟩ := hr'
  refine h.update rfl ?_ h.off h.paged ⟨rfl, fun v _ w hw => hw⟩ hinv ?_
  · have htree := h.tree
    rw [List.filterMap_cons] at htree
    cases hnode' : r.lastNode <;> simpa [hnode, hnode'] using htree
  · rw [heldPages, heldPages, hrow, hprotected]

omit hps in
theorem KvInv.commit (h : KvInv p n a cache (r :: rest) live) (hrow : r.row ≠ []) {k : Nat}
    (hle : r.kvCommittedLen + k ≤ r.row.length) :
    KvInv p n a cache ({ r with kvCommittedLen := r.kvCommittedLen + k } :: rest) live := by
  have hr := h.each r List.mem_cons_self
  refine h.keep ⟨rfl, rfl, rfl⟩ { hr with grown := fun _ => ?_ }
  obtain ⟨hkept, hfill, hkey, hcommit, _⟩ := hr.grown hrow
  exact ⟨hkept, hfill, hkey, hcommit.trans (Nat.le_add_right _ _), hle⟩

/-- The tokens that a request gets leave the path of its node alone. -/
theorem KvInv.output (h : KvInv p n a cache (r :: rest) live) (ids : List Int) (reasoning : Nat) :
    KvInv p n a cache ({ r with
      outputIds := r.outputIds ++ ids
      reasoningTokens := r.reasoningTokens + reasoning } :: rest) live := by
  have hr := h.each r List.mem_cons_self
  have htokens : (r.originInputIds ++ (r.outputIds ++ ids)).take r.tokens.length = r.tokens := by
    rw [← List.append_assoc]
    exact List.take_left
  refine h.keep ⟨rfl, rfl, rfl⟩
    { hr with protected_le := ?_, path := fun v hv => ?_, grown := fun hrow => ?_ }
  · refine hr.protected_le.trans (keyLen_mono ?_)
    simp only [Req.tokens, List.length_append]
    omega
  · have hpath := hr.path v hv
    rw [← htokens, tokenWord_take hps, List.take_take,
      Nat.min_eq_left (Nat.div_le_div_right hr.protected_le)] at hpath
    exact hpath
  · obtain ⟨hkept, hfill, hrest⟩ := hr.grown hrow
    refine ⟨hkept, ?_, hrest⟩
    have hle : r.fillIds.length ≤ r.tokens.length := by
      rw [hfill]
      exact List.length_take_le' _ _
    rw [← htokens, List.take_take, Nat.min_eq_left hle] at hfill
    exact hfill

end Growth

/-- Of the first `m` tokens of a request the tree has had `pre`, at least what the request
has locked, and it has taken the slots behind them. -/
structure CachedAt (p : KvParams) (reqs : List Req) (r : Req) (cache : RadixCache Nat)
    (live : Finset Nat) (m pre : Nat) (cache' : RadixCache Nat) (live' : Finset Nat) : Prop where
  inv : RadixCache.Inv p.toCacheParams cache' (reqs.filterMap Req.lastNode) live'
  paged : RadixCache.Paged p.toCacheParams cache'
  keeps : ∀ locks, RadixCache.KeepsPaths p.toCacheParams cache cache' locks
  protected_le : r.cacheProtectedLen ≤ pre
  le_keyLen : pre ≤ keyLen p m
  slots : cache'.slots live' = cache.slots live + (slice r.row pre (keyLen p m) : List Nat)

/-- What a cache call for a finished request frees and leaves: `gain` is the tree's, and
the slots from `stop` on are still to be freed. -/
structure FinishedAt (p : KvParams) (rest : List Req) (r : Req) (cache : RadixCache Nat)
    (live : Finset Nat) (freed : List (List Nat)) (gain : Multiset Nat) (stop : Nat)
    (cache' : RadixCache Nat) (live' : Finset Nat) : Prop where
  inv : RadixCache.Inv p.toCacheParams cache' (rest.filterMap Req.lastNode) live'
  off : p.disable = true → live' = ∅
  paged : RadixCache.Paged p.toCacheParams cache'
  keeps : RadixCache.KeepsPaths p.toCacheParams cache cache' (rest.filterMap Req.lastNode)
  slots : pageHeads p.pageSize (cache'.slots live') = pageHeads p.pageSize (cache.slots live) + gain
  laid : ∀ l ∈ freed, ∃ P, Laid p.pageSize l P
  parts : pageHeads p.pageSize (freed.flatten : List Nat) + gain +
    pageHeads p.pageSize (r.row.drop stop : List Nat) = heldPages p r

section Release

variable {p : KvParams} {n : Nat} {a : Allocator} {cache : RadixCache Nat}
variable {rest : List Req} {r r' : Req} {live : Finset Nat} {s s' : KvState}
variable (hps : 0 < p.pageSize)

include hps

/-- The first `m` tokens of a request are inserted with their slots. -/
theorem KvInv.insert (h : KvInv p n a cache (r :: rest) live) (hon : p.disable = false)
    {node m : Nat} (hnode : r.lastNode = some node) (hrow : m ≤ r.row.length)
    (hm : m ≤ r.tokens.length) (hprotected : r.cacheProtectedLen ≤ keyLen p m) (priority : Int)
    (chunked : Bool) (now : Nat) :
    ∃ pre cache' live', cache.insert p.toCacheParams
        (KvState.radixKey p (r.tokens.take m) r.extraKey) ((r.row.take m).take (keyLen p m))
        priority chunked now = some (pre, cache') ∧
      CachedAt p (r :: rest) r cache live m pre cache' live' := by
  have hr := h.each r List.mem_cons_self
  obtain ⟨P, hP⟩ := hr.rowLaid
  have hlen : (r.tokens.take m).length = m := List.length_take_of_le hm
  have hkey : (RadixCache.alignedKey p.toCacheParams
      (KvState.radixKey p (r.tokens.take m) r.extraKey)).len = keyLen p m := by
    rw [alignedKey_radixKey, radixKey_len, hlen]
  have hle := keyLen_le (p := p) m
  have hvalue : (r.row.take m).take (keyLen p m) = r.row.take (keyLen p m) := by
    rw [List.take_take, Nat.min_eq_left hle]
  have hvaluelen : (r.row.take (keyLen p m)).length = keyLen p m := by
    rw [List.length_take]
    omega
  have hfits : (RadixCache.alignedKey p.toCacheParams
      (KvState.radixKey p (r.tokens.take m) r.extraKey)).len ≤
        (r.row.take (keyLen p m)).length := by
    rw [hkey, hvaluelen]
  obtain ⟨cache', live', bs, hinsert, hins⟩ := RadixCache.insert_spec
    (r.row.take (keyLen p m)) priority chunked now hps hon h.tree hfits
  rw [hkey, List.take_of_length_le hvaluelen.le, alignedKey_radixKey] at hins
  have hword : (KvState.radixKey p (r.tokens.take m) r.extraKey).syms p.pageSize =
      (tokenWord p r.tokens r.extraKey).take (keyLen p m / p.pageSize) := by
    rw [radixKey_syms, tokenWord_take hps]
  have hwordlen : ((tokenWord p r.tokens r.extraKey).take (keyLen p m / p.pageSize)).length =
      keyLen p m / p.pageSize := by
    rw [List.length_take, length_tokenWord hps]
    exact Nat.min_eq_left (Nat.div_le_div_right (keyLen_mono hm))
  have hlongest := hins.longest
  rw [hword] at hlongest
  have hpre := hlongest.length_le
  rw [hwordlen] at hpre
  have hdiv : r.cacheProtectedLen / p.pageSize ≤ keyLen p m / p.pageSize :=
    Nat.div_le_div_right hprotected
  have hfound : r.cacheProtectedLen / p.pageSize ≤ bs.length := by
    have hpath := hr.path node hnode
    rw [← Nat.min_eq_left hdiv, ← List.take_take] at hpath
    exact hlongest.le_of_spells h.tree.book.wf hpath (hdiv.trans hwordlen.ge)
  rw [hvalue]
  refine ⟨bs.length * p.pageSize, cache', live', hinsert, hins.inv,
    hins.paged hps (hP.take hps (hle.trans hrow)) h.paged,
    fun _ => ⟨hins.rootNode, fun v _ w => hins.spells v w⟩, ?_, ?_, hins.slots⟩
  · rw [← Nat.div_mul_cancel hr.aligned]
    exact Nat.mul_le_mul_right _ hfound
  · rw [← Nat.div_mul_cancel (keyLen_dvd (p := p) m)]
    exact Nat.mul_le_mul_right _ hpre

theorem KvInv.free (h : KvInv p n a cache (r :: rest) live) {freed : List (List Nat)}
    {kept : Multiset Nat} (hlaid : ∀ l ∈ freed, ∃ P, Laid p.pageSize l P)
    (hparts : pageHeads p.pageSize (freed.flatten : List Nat) + kept = heldPages p r) :
    (freed.foldl (fun a l => a.free l) a).pageSize = a.pageSize ∧
      (freed.foldl (fun a l => a.free l) a).pages =
        a.pages + pageHeads p.pageSize (freed.flatten : List Nat) := by
  have hnodup := h.nodup
  rw [List.map_cons, List.sum_cons, ← hparts] at hnodup
  refine foldl_free hps h.pageSize hlaid (Multiset.nodup_of_le ?_ hnodup)
  exact (Multiset.le_add_right _ _).trans
    ((Multiset.le_add_right _ _).trans (Multiset.le_add_left _ _))

omit hps in
theorem drop_eq_slice_append {l : List Nat} {i j : Nat} (hij : i ≤ j) (hj : j ≤ l.length) :
    l.drop i = slice l i j ++ l.drop j := by
  have hle : i ≤ (l.take j).length := by
    rw [List.length_take]
    omega
  rw [slice, ← List.drop_append_of_le_length hle, List.take_append_drop]

theorem writeSlice_spec {row idx P M : List Nat} {start : Nat} (hrow : Laid p.pageSize row P)
    (hidx : Laid p.pageSize idx M) (hstart : p.pageSize ∣ start) (hstop : p.pageSize ∣ idx.length)
    (hle : start ≤ idx.length) (hlen : idx.length ≤ row.length) :
    (∃ P', Laid p.pageSize (writeSlice row start idx.length (idx.drop start)) P') ∧
      (writeSlice row start idx.length (idx.drop start)).drop idx.length = row.drop idx.length ∧
      (writeSlice row start idx.length (idx.drop start)).length = row.length := by
  unfold writeSlice
  split
  · have htake : (row.take start).length = start := List.length_take_of_le (hle.trans hlen)
    have hmid : (row.take start ++ idx.drop start).length = idx.length := by
      rw [List.length_append, htake, List.length_drop]
      omega
    refine ⟨⟨_, ((hrow.take hps (hle.trans hlen)).append hps (hidx.drop hps hstart) ?_).append hps
      (hrow.drop hps hstop) ?_⟩, ?_, ?_⟩
    · rw [htake]
      exact hstart
    · rw [hmid]
      exact hstop
    · exact List.drop_left' hmid
    · rw [List.length_append, hmid, List.length_drop]
      omega
  · exact ⟨⟨P, hrow⟩, rfl, rfl⟩

omit hps in
/-- The part of a request that is its own lies behind what it has cached. -/
private theorem kept_suffix {idx row : List Nat} {m : Nat} :
    (if idx.length < (row.take m).length then idx ++ (row.take m).drop idx.length else idx).drop
      idx.length <+: row.drop idx.length := by
  split
  · rw [List.drop_left, List.drop_take]
    exact List.take_prefix _ _
  · rw [List.drop_length]
    exact List.nil_prefix

theorem ReqInv.cached {cache' : RadixCache Nat} (h : ReqInv p cache r) (hrow : r.row ≠ [])
    {node : Nat} {idx M : List Nat} (hidx : Laid p.pageSize idx M)
    (hlen : idx.length = keyLen p r.fillIds.length)
    (hpath : Spells (RadixCache.view p.toCacheParams cache') cache'.rootNode node
      ((tokenWord p r.tokens r.extraKey).take (keyLen p r.fillIds.length / p.pageSize)))
    (hr' : r' = { r with
      row := writeSlice r.row r.cacheProtectedLen idx.length (idx.drop r.cacheProtectedLen)
      cacheProtectedLen := idx.length
      prefixIndices :=
        if idx.length < (r.row.take r.fillIds.length).length then
          idx ++ (r.row.take r.fillIds.length).drop idx.length
        else idx
      lastNode := some node }) :
    ReqInv p cache' r' ∧ heldPages p r' =
      pageHeads p.pageSize (r.row.drop (keyLen p r.fillIds.length) : List Nat) := by
  obtain ⟨_, hfill, hprotected, hcommit, hcommitted⟩ := h.grown hrow
  obtain ⟨P, hP⟩ := h.rowLaid
  have hdvd : p.pageSize ∣ idx.length := hlen ▸ keyLen_dvd _
  have hfillRow : r.fillIds.length ≤ r.row.length := hcommit.trans hcommitted
  have hle : idx.length ≤ r.row.length := hlen.le.trans ((keyLen_le _).trans hfillRow)
  have hfillTokens : r.fillIds.length ≤ r.tokens.length := by
    rw [hfill]
    exact List.length_take_le' _ _
  obtain ⟨hlaid, hdrop, hrowlen⟩ :=
    writeSlice_spec hps hP hidx h.aligned hdvd (hprotected.trans hlen.ge) hle
  subst hr'
  refine ⟨⟨nofun, hdvd, hlen.le.trans (keyLen_mono hfillTokens), fun v hv => ?_, ?_, hlaid,
    fun hnil => ?_, fun _ => ⟨?_, hfill, hlen.le, hcommit, hcommitted.trans hrowlen.ge⟩⟩, ?_⟩
  · obtain rfl := Option.some.inj hv
    rw [← hlen] at hpath
    exact hpath
  · split
    · exact ⟨_, hidx.append hps ((hP.take hps hfillRow).drop hps hdvd) hdvd⟩
    · exact ⟨M, hidx⟩
  · have hzero := congrArg List.length hnil
    rw [hrowlen, List.length_nil] at hzero
    exact absurd (List.length_eq_zero_iff.mp hzero) hrow
  · simp only [hdrop]
    exact kept_suffix
  · rw [← hlen, ← hdrop]
    rfl

/-- A computed chunk goes into the tree, and the request holds what is behind it. -/
theorem KvInv.cacheUnfinishedReq (h : KvInv p n s.allocator s.cache (r :: rest) live)
    (hrow : r.row ≠ []) {chunked : Bool} {now : Nat}
    (hcache : s.cacheUnfinishedReq p chunked now r = some (r', s')) :
    s'.reqs = s.reqs ∧ ∃ live', KvInv p n s'.allocator s'.cache (r' :: rest) live' := by
  have hr := h.each r List.mem_cons_self
  obtain ⟨node, hnode⟩ := hr.lastNode_of_row hrow
  obtain ⟨hkept, hfill, hprotected, hcommit, hcommitted⟩ := hr.grown hrow
  obtain ⟨P, hP⟩ := hr.rowLaid
  unfold KvState.cacheUnfinishedReq at hcache
  split at hcache
  · obtain ⟨rfl, rfl⟩ := Prod.mk.inj (Option.some.inj hcache)
    exact ⟨rfl, live, h⟩
  · next hdis =>
      have hon : p.disable = false := Bool.eq_false_iff.mpr hdis
      have hfillTokens : r.fillIds.length ≤ r.tokens.length := by
        rw [hfill]
        exact List.length_take_le' _ _
      have hfillRow : r.fillIds.length ≤ r.row.length := hcommit.trans hcommitted
      have hkeyRow : keyLen p r.fillIds.length ≤ r.row.length := (keyLen_le _).trans hfillRow
      obtain ⟨pre, cache₁, live₁, hinsert, hinv₁, hpaged₁, hkeep₁, hpre, hpreKey, hslots⟩ :=
        h.insert hps hon hnode hfillRow hfillTokens hprotected r.priority chunked now
      rw [← hfill] at hinsert
      obtain ⟨m, cache₂, live₂, bs, hmatch, hm⟩ := RadixCache.matchPrefix_spec
        (KvState.radixKey p r.fillIds r.extraKey) now hps hon hinv₁
      rw [alignedKey_radixKey] at hm
      obtain ⟨⟨M, hM⟩, hmlen⟩ := hm.laid hps hpaged₁
      simp only [radixKey_len, hinsert, hmatch, Option.bind_some, hnode] at hcache
      split at hcache
      · cases hcache
      · next hlen =>
          have hlen : m.deviceIndices.length = keyLen p r.fillIds.length := not_not.mp hlen
          have hlocks : (r :: rest).filterMap Req.lastNode = node ::
              rest.filterMap Req.lastNode := by
            rw [List.filterMap_cons, hnode]
          have hinv₂ := hm.inv
          rw [hlocks] at hinv₂
          obtain ⟨_, cache₃, hdec, hshape₃, hinv₃⟩ := RadixCache.decLockRef_any
            (fun htrue => absurd htrue hdis) hinv₂
          have hspells := hm.spells
          rw [List.nil_append, ← hm.keeps.rootNode, ← hshape₃.view_eq, ← hshape₃.rootNode]
            at hspells
          obtain ⟨_, cache₄, hinc, hshape₄, hinv₄⟩ := RadixCache.incLockRef_any
            (fun htrue => absurd htrue hdis) hinv₃ (hinv₃.book.wf.spells_live hspells)
          simp only [hdec, Option.bind_some, hinc, Option.map_some] at hcache
          obtain ⟨hr', rfl⟩ := Prod.mk.inj (Option.some.inj hcache)
          rw [← hshape₄.view_eq, ← hshape₄.rootNode] at hspells
          have hbs : bs.length = keyLen p r.fillIds.length / p.pageSize := by
            rw [← hlen, hmlen, Nat.mul_div_cancel _ hps]
          have hword : tokenWord p r.fillIds r.extraKey =
              (tokenWord p r.tokens r.extraKey).take (keyLen p r.fillIds.length / p.pageSize) := by
            conv_lhs => rw [hfill]
            exact tokenWord_take hps _ _ _
          rw [hbs, radixKey_syms, ← length_tokenWord hps _ r.extraKey, List.take_length, hword]
            at hspells
          obtain ⟨hinv', hheld⟩ := hr.cached hps hrow hM hlen hspells hr'.symm
          have hslice : slice (r.row.take r.fillIds.length) r.cacheProtectedLen pre =
              slice r.row r.cacheProtectedLen pre := by
            rw [slice, List.take_take, Nat.min_eq_left (hpreKey.trans (keyLen_le _)), slice]
          have hparts : pageHeads p.pageSize
            ([slice r.row r.cacheProtectedLen pre].flatten : List Nat) +
              (pageHeads p.pageSize (slice r.row pre (keyLen p r.fillIds.length) : List Nat) +
                heldPages p r') = heldPages p r := by
            rw [hheld, List.flatten_singleton, ← pageHeads_append, ← pageHeads_append,
              ← drop_eq_slice_append hpreKey hkeyRow,
              ← drop_eq_slice_append hpre (hpreKey.trans hkeyRow)]
            rfl
          have hlaid : ∀ l ∈ [slice r.row r.cacheProtectedLen pre], ∃ P, Laid p.pageSize l P := by
            intro l hl
            rw [List.mem_singleton.mp hl]
            exact ⟨_, (hP.take hps (hpreKey.trans hkeyRow)).drop hps hr.aligned⟩
          obtain ⟨hsize, hpages⟩ := h.free hps hlaid hparts
          rw [List.foldl_cons, List.foldl_nil] at hpages
          rw [hslice]
          refine ⟨rfl, live₂, h.update hsize ?_ (fun htrue => absurd htrue hdis) ?_ ?_ hinv' ?_⟩
          · rw [← hr']
            exact hinv₄
          · exact (hshape₄.keeps live₂).paged ((hshape₃.keeps live₂).paged (hm.keeps.paged hpaged₁))
          · exact (hkeep₁ _).trans ((hm.keeps.keepsPaths _).trans
              (((hshape₃.keeps live₂).keepsPaths _).trans ((hshape₄.keeps live₂).keepsPaths _)))
          · rw [← hparts, hshape₄.slots_eq, hshape₃.slots_eq, hm.keeps.slots, hslots, pageHeads_add,
              hpages]
            abel

theorem KvInv.protected_eq_zero (h : KvInv p n a cache (r :: rest) live) (hdis : p.disable = true)
    (hrow : r.row ≠ []) : r.cacheProtectedLen = 0 := by
  have hr := h.each r List.mem_cons_self
  obtain ⟨node, hnode⟩ := hr.lastNode_of_row hrow
  have hpath := hr.path node hnode
  have hroot : node = cache.rootNode := by
    refine (h.tree.book.wf.spells_live hpath).resolve_right ?_
    rw [h.off hdis]
    exact Finset.notMem_empty node
  rw [hroot] at hpath
  have hlen := congrArg List.length (h.tree.book.wf.spells_unique hpath .root)
  rw [List.length_take, length_tokenWord hps,
    Nat.min_eq_left (Nat.div_le_div_right hr.protected_le), List.length_nil] at hlen
  rw [← Nat.div_mul_cancel hr.aligned, hlen, Nat.zero_mul]

omit hps in
theorem cacheCommitLen_le (p : KvParams) (r : Req) : r.cacheCommitLen p ≤ r.kvCommittedLen := by
  unfold Req.cacheCommitLen
  split
  · exact Nat.min_le_left _ _
  · exact Nat.le_refl _

theorem KvInv.insertIf (h : KvInv p n a cache (r :: rest) live) (hon : p.disable = false)
    {node m : Nat} (hnode : r.lastNode = some node) (hrow : m ≤ r.row.length)
    (hm : m ≤ r.tokens.length) (hprotected : r.cacheProtectedLen ≤ keyLen p m) (isInsert : Bool)
    (now : Nat) :
    ∃ pre cache' live', (if isInsert then cache.insert p.toCacheParams
        (KvState.radixKey p (r.tokens.take m) r.extraKey) ((r.row.take m).take (keyLen p m))
        r.priority false now else some (keyLen p m, cache)) = some (pre, cache') ∧
      CachedAt p (r :: rest) r cache live m pre cache' live' := by
  cases isInsert with
  | true => exact h.insert hps hon hnode hrow hm hprotected r.priority false now
  | false =>
      refine ⟨keyLen p m, cache, live, rfl, h.tree, h.paged, fun _ => ⟨rfl, fun _ _ _ hw => hw⟩,
        hprotected, Nat.le_refl _, ?_⟩
      rw [slice, List.drop_eq_nil_of_le (List.length_take_le _ _), Multiset.coe_nil, add_zero]

theorem KvInv.cacheFinishedReq (h : KvInv p n s.allocator s.cache (r :: rest) live)
    (hrow : r.row ≠ []) (htokens : r.kvCommittedLen ≤ r.tokens.length)
    (hcommit : r.cacheProtectedLen ≤ keyLen p (r.cacheCommitLen p)) {isInsert : Bool} {now : Nat}
    (hfinish : s.cacheFinishedReq p isInsert now r = some s') :
    s'.reqs = s.reqs ∧ ∃ freed gain live',
      s'.allocator = freed.foldl (fun a l => a.free l) s.allocator ∧
      FinishedAt p rest r s.cache live freed gain (r.cacheCommitLen p) s'.cache live' := by
  have hr := h.each r List.mem_cons_self
  obtain ⟨node, hnode⟩ := hr.lastNode_of_row hrow
  obtain ⟨P, hP⟩ := hr.rowLaid
  have hlocks : (r :: rest).filterMap Req.lastNode = node :: rest.filterMap Req.lastNode := by
    rw [List.filterMap_cons, hnode]
  have hle : r.cacheCommitLen p ≤ r.row.length :=
    (cacheCommitLen_le p r).trans (hr.grown hrow).2.2.2.2
  unfold KvState.cacheFinishedReq at hfinish
  simp only at hfinish
  split at hfinish
  · next hdis =>
      obtain rfl := Option.some.inj hfinish
      refine ⟨rfl, [r.row.take (r.cacheCommitLen p)], 0, live, rfl, ?_, h.off, h.paged,
        ⟨rfl, fun _ _ _ hw => hw⟩, (add_zero _).symm, ?_, ?_⟩
      · have htree := h.tree
        rw [h.off hdis] at htree ⊢
        refine htree.of_empty fun w hw => .inl ?_
        rw [hlocks]
        exact List.mem_cons_of_mem _ hw
      · intro l hl
        rw [List.mem_singleton.mp hl]
        exact ⟨_, hP.take hps hle⟩
      · rw [List.flatten_singleton, add_zero, ← pageHeads_append, List.take_append_drop, heldPages,
          h.protected_eq_zero hps hdis hrow, List.drop_zero]
  · next hdis =>
      have hon : p.disable = false := Bool.eq_false_iff.mpr hdis
      have hm : r.cacheCommitLen p ≤ r.tokens.length := (cacheCommitLen_le p r).trans htokens
      have hlen : ((r.originInputIds ++ r.outputIds).take (r.cacheCommitLen p)).length =
          r.cacheCommitLen p := List.length_take_of_le hm
      obtain ⟨pre, cache₁, live₁, hinsert, hcached⟩ :=
        h.insertIf hps hon hnode hle hm hcommit isInsert now
      have hinv₁ := hcached.inv
      rw [hlocks] at hinv₁
      obtain ⟨_, cache₂, hdec, hshape, hinv₂⟩ := RadixCache.decLockRef_any
        (fun htrue => absurd htrue hdis) hinv₁
      simp only [Req.tokens] at hinsert
      simp only [hlen, radixKey_len, hinsert, Option.bind_some, hnode, hdec, Option.map_some]
        at hfinish
      obtain rfl := Option.some.inj hfinish
      have hkeyRow : keyLen p (r.cacheCommitLen p) ≤ r.row.length := (keyLen_le _).trans hle
      have hpreRow : pre ≤ r.row.length := hcached.le_keyLen.trans hkeyRow
      have hslice : slice (r.row.take (r.cacheCommitLen p)) r.cacheProtectedLen pre =
          slice r.row r.cacheProtectedLen pre := by
        rw [slice, List.take_take, Nat.min_eq_left (hcached.le_keyLen.trans (keyLen_le _)), slice]
      refine ⟨rfl, [slice r.row r.cacheProtectedLen pre,
        slice r.row (keyLen p (r.cacheCommitLen p)) (r.cacheCommitLen p)],
        pageHeads p.pageSize (slice r.row pre (keyLen p (r.cacheCommitLen p)) : List Nat), live₁,
        ?_, hinv₂, fun htrue => absurd htrue hdis, (hshape.keeps live₁).paged hcached.paged,
        (hcached.keeps _).trans ((hshape.keeps live₁).keepsPaths _), ?_, ?_, ?_⟩
      · simp only [hslice, List.foldl_cons, List.foldl_nil]
        rfl
      · rw [hshape.slots_eq, hcached.slots, pageHeads_add]
      · intro l hl
        rcases List.mem_cons.mp hl with rfl | hl
        · exact ⟨_, (hP.take hps hpreRow).drop hps hr.aligned⟩
        · rw [List.mem_singleton.mp hl]
          exact ⟨_, (hP.take hps hle).drop hps (keyLen_dvd _)⟩
      · rw [List.flatten_cons, List.flatten_singleton, pageHeads_append, heldPages,
          drop_eq_slice_append hcached.protected_le hpreRow,
          drop_eq_slice_append hcached.le_keyLen hkeyRow, drop_eq_slice_append (keyLen_le _) hle,
          pageHeads_append, pageHeads_append, pageHeads_append]
        abel

omit hps in
theorem ReqInv.resetForRetract {cache' : RadixCache Nat} (hps : 0 < p.pageSize) (r : Req) :
    ReqInv p cache' r.resetForRetract where
  waiting _ := ⟨rfl, rfl, rfl⟩
  aligned := Nat.dvd_zero _
  protected_le := Nat.zero_le _
  path := nofun
  prefixLaid := ⟨[], .nil hps⟩
  rowLaid := ⟨[], .nil hps⟩
  start _ := rfl
  grown hne := absurd rfl hne

/-- All that a request holds is freed or left to the tree, if what it has cached is not
longer than what it is released with. -/
theorem KvInv.releaseKvCache (h : KvInv p n s.allocator s.cache (r :: rest) live)
    (htokens : r.kvCommittedLen ≤ r.tokens.length)
    (hcommit : r.cacheProtectedLen ≤ keyLen p (r.cacheCommitLen p)) {isInsert : Bool} {now : Nat}
    (hrelease : s.releaseKvCache p isInsert now r = some s') :
    s'.reqs = s.reqs ∧
      ∃ live', KvInv p n s'.allocator s'.cache (r.resetForRetract :: rest) live' := by
  unfold KvState.releaseKvCache at hrelease
  split at hrelease
  · cases hrelease
  next hrow =>
  have hr := h.each r List.mem_cons_self
  obtain ⟨P, hP⟩ := hr.rowLaid
  obtain ⟨s₁, hfinish, hrelease⟩ := Option.bind_eq_some_iff.mp hrelease
  obtain ⟨hreqs, freed, gain, live', halloc, hfin⟩ :=
    h.cacheFinishedReq hps hrow htokens hcommit hfinish
  have hle : r.cacheCommitLen p ≤ r.row.length :=
    (cacheCommitLen_le p r).trans (hr.grown hrow).2.2.2.2
  have hstart : (if 1 < p.pageSize then numPages p.pageSize (r.cacheCommitLen p) * p.pageSize
      else r.cacheCommitLen p) = numPages p.pageSize (r.cacheCommitLen p) * p.pageSize := by
    split
    · rfl
    · obtain hone : p.pageSize = 1 := by omega
      simp [hone, numPages]
  simp only [hstart] at hrelease
  have hs' : s' = { s₁ with
      allocator := List.foldl (fun a l => a.free l) s.allocator
        (freed ++ [r.row.drop (numPages p.pageSize (r.cacheCommitLen p) * p.pageSize)]) } := by
    rw [List.foldl_append, ← halloc, List.foldl_cons, List.foldl_nil]
    split at hrelease
    · cases hrelease
    split at hrelease
    · rw [slice, List.take_length] at hrelease
      exact (Option.some.inj hrelease).symm
    · next hlt =>
        rw [List.drop_eq_nil_of_le (Nat.le_of_not_lt hlt)]
        exact (Option.some.inj hrelease).symm
  have hparts : pageHeads p.pageSize ((freed ++
      [r.row.drop (numPages p.pageSize (r.cacheCommitLen p) * p.pageSize)]).flatten : List Nat) +
        gain = heldPages p r := by
    rw [List.flatten_append, List.flatten_singleton, pageHeads_append, ← hP.pageHeads_drop hps hle,
      ← hfin.parts]
    abel
  have hlaid : ∀ l ∈ freed ++ [r.row.drop (numPages p.pageSize (r.cacheCommitLen p) * p.pageSize)],
      ∃ P, Laid p.pageSize l P := by
    intro l hl
    rcases List.mem_append.mp hl with hl | hl
    · exact hfin.laid l hl
    · rw [List.mem_singleton.mp hl]
      exact ⟨_, hP.drop hps (Nat.dvd_mul_left _ _)⟩
  obtain ⟨hsize, hpages⟩ := h.free hps hlaid hparts
  subst hs'
  refine ⟨hreqs, live', h.update hsize hfin.inv hfin.off hfin.paged hfin.keeps
    (.resetForRetract hps r) ?_⟩
  have hnone : heldPages p r.resetForRetract = 0 := rfl
  rw [hpages, hfin.slots, hnone, ← hparts]
  abel

omit hps in
theorem KvInv.of_waiting (h : KvInv p n a cache (r :: rest) live) (hnode : r.lastNode = none) :
    KvInv p n a cache rest live where
  pageSize := h.pageSize
  tree := by
    have htree := h.tree
    rw [List.filterMap_cons, hnode] at htree
    exact htree
  off := h.off
  paged := h.paged
  each r₁ hr₁ := h.each r₁ (List.mem_cons_of_mem _ hr₁)
  owned := by
    have howned := h.owned
    have hzero : heldPages p r = 0 := by
      obtain ⟨hrow, _, _⟩ := (h.each r List.mem_cons_self).waiting hnode
      rw [heldPages, hrow, List.drop_nil]
      rfl
    rw [List.map_cons, List.sum_cons, hzero, zero_add] at howned
    exact howned

end Release

inductive KvOp where
  | arrive (originInputIds : List Int) (extraKey : Option String) (priority : Int)
  | matchPrefix (key : RadixKey) (now : Nat)
  | evict (numTokens : Nat) (victims : List Nat)
  | initNextRound (i maxPrefixLen now : Nat)
  | extend (i extendLen : Nat) (victims : List Nat)
  | decode (i : Nat) (victims : List Nat)
  | specDecode (i doubleAlloc : Nat) (victims : List Nat)
  /-- Speculated tokens are accepted. -/
  | commit (i k : Nat)
  /-- Tokens are sampled, some of them while the model thinks. -/
  | output (i : Nat) (ids : List Int) (reasoning : Nat)
  | cacheUnfinished (i : Nat) (chunked : Bool) (now : Nat)
  /-- The request is finished, or retracted. -/
  | release (i : Nat) (isInsert : Bool) (now : Nat) (finish : Bool)

namespace KvOp

def onReq (s : KvState) (i : Nat) (f : Req → KvState → Option (Req × KvState)) : Option KvState :=
  s.reqs[i]?.bind fun r => (f r s).map fun (r', s') => { s' with reqs := s'.reqs.set i r' }

/-- The state behind a step, `none` where the code raises. -/
def exec (p : KvParams) (s : KvState) : KvOp → Option KvState
  | arrive originInputIds extraKey priority =>
      some { s with reqs := Req.new originInputIds extraKey priority :: s.reqs }
  | matchPrefix key now =>
      (s.cache.matchPrefix p.toCacheParams key now).map fun (_, cache) => { s with cache := cache }
  | evict numTokens victims => s.evict p numTokens victims
  | initNextRound i maxPrefixLen now => onReq s i fun r s => s.initNextRound p maxPrefixLen now r
  | extend i extendLen victims => onReq s i fun r s => s.extend p extendLen victims r
  | decode i victims => onReq s i fun r s => s.decode p victims r
  | specDecode i doubleAlloc victims => onReq s i fun r s => s.specDecode p doubleAlloc victims r
  | commit i k => onReq s i fun r s => some ({ r with kvCommittedLen := r.kvCommittedLen + k }, s)
  | output i ids reasoning => onReq s i fun r s =>
      some ({ r with
        outputIds := r.outputIds ++ ids
        reasoningTokens := r.reasoningTokens + reasoning }, s)
  | cacheUnfinished i chunked now => onReq s i fun r s => s.cacheUnfinishedReq p chunked now r
  | release i isInsert now finish => s.reqs[i]?.bind fun r =>
      (s.releaseKvCache p isInsert now r).map fun s' =>
        { s' with reqs := if finish then s'.reqs.eraseIdx i else s'.reqs.set i r.resetForRetract }

def FitsReq (r : Req) : KvOp → Prop
  | initNextRound _ _ _ => r.lastNode = none
  | extend _ extendLen _ => r.lastNode ≠ none ∧
      (r.row = [] ∨ r.prefixIndices.length = r.row.length) ∧ 1 ≤ extendLen ∧
      r.prefixIndices.length + extendLen ≤ r.tokens.length
  | decode _ _ => r.row ≠ [] ∧ r.kvCommittedLen = r.row.length
  | specDecode _ doubleAlloc _ => r.row ≠ [] ∧ 1 ≤ doubleAlloc ∧
      r.row.length ≤ r.kvCommittedLen + doubleAlloc
  | commit _ k => r.row ≠ [] ∧ r.kvCommittedLen + k ≤ r.row.length
  | cacheUnfinished _ _ _ => r.row ≠ []
  | release _ _ _ _ => r.kvCommittedLen ≤ r.tokens.length
  | _ => True

def req? (s : KvState) : KvOp → Option Req
  | initNextRound i _ _ | extend i _ _ | decode i _ | specDecode i _ _ | commit i _ | output i _ _
  | cacheUnfinished i _ _ | release i _ _ _ => s.reqs[i]?
  | _ => none

def Fits (s : KvState) (op : KvOp) : Prop := ∀ r, op.req? s = some r → op.FitsReq r

/-- No request that has thought is released below what it has cached, if its thinking is
stripped. -/
def KeepsProtected (p : KvParams) (s : KvState) (op : KvOp) : Prop :=
  match op with
  | release _ _ _ _ => ∀ r, op.req? s = some r → p.stripThinkingCache = true →
      0 < r.reasoningTokens →
      r.cacheProtectedLen ≤ keyLen p (min r.kvCommittedLen r.originInputIds.length)
  | _ => True

instance (r : Req) (op : KvOp) : Decidable (op.FitsReq r) := by
  cases op <;> unfold FitsReq <;> infer_instance

instance (op : KvOp) (s : KvState) : Decidable (op.Fits s) :=
  match h : op.req? s with
  | none => .isTrue fun _ hr => nomatch h.symm.trans hr
  | some r => decidable_of_iff (op.FitsReq r)
      ⟨fun hfits _ hr => Option.some.inj (h.symm.trans hr) ▸ hfits, fun hfits => hfits r h⟩

end KvOp

/-- The states that a pool of `size` slots gets into by steps that are `ok`. -/
inductive KvRun (p : KvParams) (size : Nat) (ok : KvState → KvOp → Prop) : KvState → Prop where
  | new (needSort : Bool) (now : Nat) :
      KvRun p size ok ⟨.new size p.pageSize needSort, .new now, []⟩
  | step {s s' : KvState} (op : KvOp) (h : KvRun p size ok s) (hfits : op.Fits s) (hok : ok s op)
      (hexec : op.exec p s = some s') : KvRun p size ok s'

/-- Each of the pages `1, …, n` is in the free or the release list, in the value of one node
or in the private part of one request, and there once. -/
structure Conserved (p : KvParams) (n : Nat) (s : KvState) : Prop where
  pages : ((s.allocator.freePages ++ s.allocator.releasePages : List Nat) : Multiset Nat) +
    ∑ v ∈ s.cache.treeNodes, (touched p.pageSize (s.cache.nodes v).value).val +
    (s.reqs.map fun r => (touched p.pageSize (r.row.drop r.cacheProtectedLen)).val).sum =
      (List.range' 1 n : List Nat)
  node : ∀ v ∈ s.cache.treeNodes, (s.cache.nodes v).value.Nodup
  req : ∀ r ∈ s.reqs, (r.row.drop r.cacheProtectedLen).Nodup

section Runs

variable {p : KvParams} {n size : Nat} {s s' : KvState} {live : Finset Nat}
variable (hps : 0 < p.pageSize)

theorem KvInv.onReq {i : Nat} {f : Req → KvState → Option (Req × KvState)}
    (h : KvInv p n s.allocator s.cache s.reqs live)
    (hstep : ∀ r r' s₁ rest, s.reqs[i]? = some r → f r s = some (r', s₁) →
      KvInv p n s.allocator s.cache (r :: rest) live →
        s₁.reqs = s.reqs ∧ ∃ live', KvInv p n s₁.allocator s₁.cache (r' :: rest) live')
    (hexec : KvOp.onReq s i f = some s') :
    ∃ live', KvInv p n s'.allocator s'.cache s'.reqs live' := by
  obtain ⟨r, hr, hexec⟩ := Option.bind_eq_some_iff.mp hexec
  obtain ⟨⟨r', s₁⟩, hf, rfl⟩ := Option.map_eq_some_iff.mp hexec
  obtain ⟨hi, hget⟩ := List.getElem?_eq_some_iff.mp hr
  have hperm := List.getElem_cons_eraseIdx_perm hi
  rw [hget] at hperm
  obtain ⟨hreqs, live', h'⟩ := hstep r r' s₁ (s.reqs.eraseIdx i) hr hf (h.perm hperm.symm)
  refine ⟨live', h'.perm ?_⟩
  simp only [hreqs]
  exact (List.set_perm_cons_eraseIdx hi r').symm

theorem KvInv.new (needSort : Bool) (now : Nat) :
    KvInv p (size / p.pageSize) (.new size p.pageSize needSort) (.new now) [] ∅ where
  pageSize := rfl
  tree := RadixCache.inv_new _ now
  off _ := rfl
  paged w b hb := by
    obtain ⟨u, a, q, v, i, hu, hchild, _⟩ := (RadixCache.inv_new _ now).book.wf.entry_iff.mp hb
    exact absurd ((RadixCache.inv_new _ now).book.wf.child _ _ _
      ((RadixCache.inv_new _ now).book.wf.spells_live hu) hchild).1 (Finset.notMem_empty v)
  each := nofun
  owned := by simp [Allocator.new, Allocator.pages, RadixCache.slots, pageHeads]

/-- What a released request has cached is not longer than what it is released with. -/
theorem ReqInv.protected_le_commit {cache : RadixCache Nat} {r : Req} (h : ReqInv p cache r)
    (hrow : r.row ≠ []) (hkeeps : p.stripThinkingCache = true → 0 < r.reasoningTokens →
      r.cacheProtectedLen ≤ keyLen p (min r.kvCommittedLen r.originInputIds.length)) :
    r.cacheProtectedLen ≤ keyLen p (r.cacheCommitLen p) := by
  unfold Req.cacheCommitLen
  split
  · next hstrip => exact hkeeps hstrip.1 hstrip.2
  · obtain ⟨_, _, hkey, hcommit, _⟩ := h.grown hrow
    exact hkey.trans (keyLen_mono hcommit)

include hps

theorem KvInv.release (h : KvInv p n s.allocator s.cache s.reqs live) {i now : Nat}
    {isInsert finish : Bool} (hfits : (KvOp.release i isInsert now finish).Fits s)
    (hok : (KvOp.release i isInsert now finish).KeepsProtected p s)
    (hexec : (KvOp.release i isInsert now finish).exec p s = some s') :
    ∃ live', KvInv p n s'.allocator s'.cache s'.reqs live' := by
  obtain ⟨r, hr, hexec⟩ := Option.bind_eq_some_iff.mp hexec
  obtain ⟨s₁, hrelease, rfl⟩ := Option.map_eq_some_iff.mp hexec
  obtain ⟨hi, hget⟩ := List.getElem?_eq_some_iff.mp hr
  have hperm := List.getElem_cons_eraseIdx_perm hi
  rw [hget] at hperm
  have h₁ := h.perm hperm.symm
  have hrow : r.row ≠ [] := by
    intro hnil
    rw [KvState.releaseKvCache, if_pos hnil] at hrelease
    cases hrelease
  have hcommit := (h₁.each r List.mem_cons_self).protected_le_commit hrow (hok r hr)
  obtain ⟨hreqs, live', h'⟩ := h₁.releaseKvCache hps (hfits r hr) hcommit hrelease
  refine ⟨live', ?_⟩
  cases finish with
  | true =>
      have hrest := h'.of_waiting rfl
      rw [← hreqs] at hrest
      exact hrest
  | false =>
      refine h'.perm ?_
      rw [← hreqs] at hi ⊢
      exact (List.set_perm_cons_eraseIdx hi r.resetForRetract).symm

theorem KvInv.step (h : KvInv p n s.allocator s.cache s.reqs live) {op : KvOp} (hfits : op.Fits s)
    (hok : op.KeepsProtected p s) (hexec : op.exec p s = some s') :
    ∃ live', KvInv p n s'.allocator s'.cache s'.reqs live' := by
  cases op with
  | arrive originInputIds extraKey priority =>
      obtain rfl := Option.some.inj hexec
      refine ⟨live, h.pageSize, h.tree, h.off, h.paged, fun r hr => ?_, ?_⟩
      · rcases List.mem_cons.mp hr with rfl | hr
        · exact .resetForRetract hps (Req.new originInputIds extraKey priority)
        · exact h.each r hr
      · have hzero : heldPages p (Req.new originInputIds extraKey priority) = 0 := rfl
        rw [List.map_cons, List.sum_cons, hzero, zero_add, h.owned]
  | matchPrefix key now =>
      obtain ⟨m, cache', live', _, hmatch, _, h'⟩ := h.matchPrefix hps key now
      simp only [KvOp.exec, hmatch, Option.map_some] at hexec
      obtain rfl := Option.some.inj hexec
      exact ⟨live', h'⟩
  | evict numTokens victims =>
      obtain ⟨⟨freed, cache'⟩, hevict, rfl⟩ := Option.map_eq_some_iff.mp hexec
      exact h.evict hps hevict
  | initNextRound i maxPrefixLen now =>
      exact h.onReq (fun r r' s₁ rest hr hf h => h.initNextRound hps (hfits r hr) hf) hexec
  | extend i extendLen victims =>
      refine h.onReq (fun r r' s₁ rest hr hf h => ?_) hexec
      obtain ⟨hnode, hstart, hpos, hle⟩ := hfits r hr
      exact h.extend hps hnode hstart hpos hle hf
  | decode i victims =>
      refine h.onReq (fun r r' s₁ rest hr hf h => ?_) hexec
      exact h.decode hps (hfits r hr).1 (hfits r hr).2 hf
  | specDecode i doubleAlloc victims =>
      refine h.onReq (fun r r' s₁ rest hr hf h => ?_) hexec
      obtain ⟨hrow, hpos, hle⟩ := hfits r hr
      exact h.specDecode hps hrow hpos hle hf
  | commit i k =>
      simp only [KvOp.exec] at hexec
      refine h.onReq (fun r r' s₁ rest hr hf h => ?_) hexec
      obtain ⟨rfl, rfl⟩ := Prod.mk.inj (Option.some.inj hf)
      exact ⟨rfl, live, h.commit (hfits r hr).1 (hfits r hr).2⟩
  | output i ids reasoning =>
      simp only [KvOp.exec] at hexec
      refine h.onReq (fun r r' s₁ rest hr hf h => ?_) hexec
      obtain ⟨rfl, rfl⟩ := Prod.mk.inj (Option.some.inj hf)
      exact ⟨rfl, live, h.output hps ids reasoning⟩
  | cacheUnfinished i chunked now =>
      exact h.onReq (fun r r' s₁ rest hr hf h => h.cacheUnfinishedReq hps (hfits r hr) hf) hexec
  | release i isInsert now finish => exact h.release hps hfits hok hexec

theorem KvRun.inv (h : KvRun p size (fun s op => op.KeepsProtected p s) s) :
    ∃ live, KvInv p (size / p.pageSize) s.allocator s.cache s.reqs live := by
  induction h with
  | new needSort now => exact ⟨∅, .new needSort now⟩
  | step op _ hfits hok hexec ih =>
      obtain ⟨live, h⟩ := ih
      exact h.step hps hfits hok hexec

/-- What is counted by page heads is laid out on distinct pages. -/
theorem KvInv.conserved (h : KvInv p n s.allocator s.cache s.reqs live) : Conserved p n s := by
  have hnodup := h.nodup
  have hnode : ∀ v ∈ live, (touched p.pageSize (s.cache.nodes v).value).val =
      pageHeads p.pageSize ((s.cache.nodes v).value : List Nat) ∧
        (s.cache.nodes v).value.Nodup := by
    intro v hv
    obtain ⟨P, hP⟩ := h.paged.value hps h.tree hv
    refine hP.touched_eq_pageHeads hps (Multiset.nodup_of_le ?_ hnodup)
    rw [RadixCache.slots, pageHeads_sum]
    exact (Finset.single_le_sum (fun _ _ => Multiset.zero_le _) hv).trans
      ((Multiset.le_add_left _ _).trans (Multiset.le_add_right _ _))
  have hreq : ∀ r ∈ s.reqs, (touched p.pageSize (r.row.drop r.cacheProtectedLen)).val =
      heldPages p r ∧ (r.row.drop r.cacheProtectedLen).Nodup := by
    intro r hr
    obtain ⟨P, hP⟩ := (h.each r hr).rowLaid
    refine (hP.drop hps (h.each r hr).aligned).touched_eq_pageHeads hps
      (Multiset.nodup_of_le ?_ hnodup)
    exact (List.le_sum_of_mem (List.mem_map_of_mem hr)).trans (Multiset.le_add_left _ _)
  refine ⟨?_, fun v hv => ?_, fun r hr => (hreq r hr).2⟩
  · rw [h.tree.treeNodes_eq, ← h.owned, Finset.sum_congr rfl fun v hv => (hnode v hv).1,
      RadixCache.slots, pageHeads_sum, List.map_congr_left fun r hr => (hreq r hr).1]
    rfl
  · rw [h.tree.treeNodes_eq] at hv
    exact (hnode v hv).2

/-- The pages of the pool are conserved as long as no request is released below what it has
cached. -/
theorem run_conserved (h : KvRun p size (fun s op => op.KeepsProtected p s) s) :
    Conserved p (size / p.pageSize) s := by
  obtain ⟨live, hinv⟩ := h.inv hps
  exact hinv.conserved hps

end Runs

/-- A pool runs through a list of steps. -/
def KvOp.execAll (p : KvParams) (s : KvState) (ops : List KvOp) : Option KvState :=
  ops.foldlM (fun s op => if op.Fits s then op.exec p s else none) s

theorem KvRun.execAll {p : KvParams} {size : Nat} {ok : KvState → KvOp → Prop} {s s' : KvState}
    {ops : List KvOp} (h : KvRun p size ok s) (hok : ∀ s, ∀ op ∈ ops, ok s op)
    (hexec : KvOp.execAll p s ops = some s') : KvRun p size ok s' := by
  induction ops generalizing s with
  | nil =>
      obtain rfl := Option.some.inj hexec
      exact h
  | cons op ops ih =>
      obtain ⟨s₁, hstep, hexec⟩ := Option.bind_eq_some_iff.mp hexec
      simp only at hstep
      split at hstep
      · next hfits =>
          exact ih (.step op h hfits (hok s op List.mem_cons_self) hstep)
            (fun s op hop => hok s op (List.mem_cons_of_mem _ hop)) hexec
      · cases hstep

/-- A prompt is computed in two chunks on pages of two slots, and a second request finds
its beginning. -/
theorem run_conserved_chunks : ∃ s : KvState,
    s.reqs.map (fun r => (r.cacheProtectedLen, r.row)) = [(2, [2, 3, 8, 9]), (4, [2, 3, 4, 5, 6])] ∧
      Conserved ⟨⟨false, 2, false, .lru⟩, false, false⟩ 5 s := by
  have hnew : KvRun ⟨⟨false, 2, false, .lru⟩, false, false⟩ 10
      (fun s op => op.KeepsProtected ⟨⟨false, 2, false, .lru⟩, false, false⟩ s) _ := .new false 0
  have hrow : (KvOp.execAll ⟨⟨false, 2, false, .lru⟩, false, false⟩ ⟨.new 10 2 false, .new 0, []⟩
      [.arrive [1, 2, 3, 4, 5] none 0, .initNextRound 0 4 1, .extend 0 3 [],
        .cacheUnfinished 0 true 2, .extend 0 2 [], .cacheUnfinished 0 false 3,
        .arrive [1, 2, 6, 7] none 0, .initNextRound 0 3 4, .extend 0 2 []]).map
        (fun s => s.reqs.map fun r => (r.cacheProtectedLen, r.row)) =
      some [(2, [2, 3, 8, 9]), (4, [2, 3, 4, 5, 6])] := by decide +kernel
  obtain ⟨s, hexec, hs⟩ := Option.map_eq_some_iff.mp hrow
  exact ⟨s, hs, run_conserved (by decide) (hnew.execAll (by simp [KvOp.KeepsProtected]) hexec)⟩

/-- A request that thought is retracted and computed again with its output; when it is
finished, the slot of its first output token is freed and stays in the tree. -/
theorem strip_thinking_not_conserved : ∃ (p : KvParams) (size : Nat) (s : KvState),
    0 < p.pageSize ∧ KvRun p size (fun _ _ => True) s ∧ ¬ Conserved p (size / p.pageSize) s := by
  have hnew : KvRun ⟨⟨false, 1, false, .lru⟩, false, true⟩ 8 (fun _ _ => True) _ := .new false 0
  have hlast : (KvOp.execAll ⟨⟨false, 1, false, .lru⟩, false, true⟩ ⟨.new 8 1 false, .new 0, []⟩
      [.arrive [1, 2] none 0, .initNextRound 0 1 1, .extend 0 2 [], .output 0 [7] 1,
        .cacheUnfinished 0 false 2, .release 0 false 3 false, .initNextRound 0 2 4, .extend 0 1 [],
        .cacheUnfinished 0 false 5, .release 0 true 6 true]).map
      (fun s => (s.allocator.freePages, (s.cache.nodes 2).value,
        [s.cache.counter, s.cache.rootNode], [(s.cache.nodes 0).children.lookup (none, [.token 1]),
          (s.cache.nodes 1).children.lookup (none, [.token 7])])) =
      some ([4, 5, 6, 7, 8, 3], [3], [3, 0], [some 1, some 2]) := by decide +kernel
  obtain ⟨s, hexec, hs⟩ := Option.map_eq_some_iff.mp hlast
  simp only [Prod.mk.injEq, List.cons.injEq, and_true] at hs
  obtain ⟨hfree, hvalue, ⟨hcounter, hroot⟩, hchild, hleaf⟩ := hs
  refine ⟨_, 8, s, by decide, hnew.execAll (fun _ _ _ => trivial) hexec, fun hcons => ?_⟩
  have htree : 2 ∈ s.cache.treeNodes := by
    classical
    rw [RadixCache.treeNodes, Finset.mem_filter, Finset.mem_range, hcounter, hroot]
    refine ⟨by decide, by decide, ?_⟩
    rw [RadixCache.InTree, hroot]
    exact .tail (.single ⟨_, hchild⟩) ⟨_, hleaf⟩
  have hmem : 3 ∈ ∑ v ∈ s.cache.treeNodes, (touched 1 (s.cache.nodes v).value).val := by
    rw [Multiset.mem_sum]
    refine ⟨2, htree, ?_⟩
    rw [hvalue]
    decide
  have hnodup : (((s.allocator.freePages ++ s.allocator.releasePages : List Nat) : Multiset Nat) +
      ∑ v ∈ s.cache.treeNodes, (touched 1 (s.cache.nodes v).value).val).Nodup := by
    have hall : ((List.range' 1 8 : List Nat) : Multiset Nat).Nodup :=
      Multiset.coe_nodup.mpr List.nodup_range'
    exact Multiset.nodup_of_le (Multiset.le_add_right _ _) (hcons.pages.symm ▸ hall)
  have hfreed :
      3 ∈ ((s.allocator.freePages ++ s.allocator.releasePages : List Nat) : Multiset Nat) := by
    rw [hfree, Multiset.mem_coe]
    exact List.mem_append_left _ (by decide)
  exact Multiset.disjoint_left.mp (Multiset.nodup_add.mp hnodup).2.2 hfreed hmem

end SpecDecode.MemCache
