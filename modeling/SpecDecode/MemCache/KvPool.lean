import SpecDecode.MemCache.Allocator
import SpecDecode.MemCache.RadixCache

/-!
# Requests over the allocator and the radix cache

The KV cache side of a request's life: it is matched against the tree and locks what it
finds, it gets slots for the tokens to compute, chunk by chunk, then one by one or, with
speculative decoding, some ahead; its prompt goes into the tree when it is computed, and
everything it holds is given back when it is finished or retracted.

`row` is the row of `req_to_token` below `kv_allocated_len`; it is empty as long as the
request has no `req_pool_idx`. A request with `last_node` `None` waits. The flags against
popping twice are left out, since a request is dropped or reset once it is released.
-/

namespace SpecDecode.MemCache

/-- What the KV cache uses of a `Req`. -/
structure Req where
  originInputIds : List Int
  outputIds : List Int
  extraKey : Option String
  priority : Int
  reasoningTokens : Nat
  fillIds : List Int
  prefixIndices : List Nat
  lastNode : Option Nat
  cacheProtectedLen : Nat
  kvCommittedLen : Nat
  row : List Nat

structure KvParams extends CacheParams where
  /-- `speculative_algorithm` is set. -/
  specAlgorithm : Bool
  stripThinkingCache : Bool

structure KvState where
  allocator : Allocator
  cache : RadixCache Nat
  reqs : List Req

namespace Req

/-- A request when it arrives. -/
def new (originInputIds : List Int) (extraKey : Option String) (priority : Int) : Req where
  originInputIds := originInputIds
  outputIds := []
  extraKey := extraKey
  priority := priority
  reasoningTokens := 0
  fillIds := []
  prefixIndices := []
  lastNode := none
  cacheProtectedLen := 0
  kvCommittedLen := 0
  row := []

def cacheCommitLen (p : KvParams) (r : Req) : Nat :=
  if p.stripThinkingCache ∧ 0 < r.reasoningTokens then
    min r.kvCommittedLen r.originInputIds.length
  else r.kvCommittedLen

def resetForRetract (r : Req) : Req :=
  { r with prefixIndices := [], lastNode := none, cacheProtectedLen := 0, kvCommittedLen := 0,
           row := [] }

end Req

def slice (l : List Nat) (start stop : Nat) : List Nat := (l.take stop).drop start

def writeSlice (l : List Nat) (start stop : Nat) (vals : List Nat) : List Nat :=
  if start < stop then l.take start ++ vals ++ l.drop stop else l

namespace KvState

def radixKey (p : KvParams) (tokenIds : List Int) (extraKey : Option String) : RadixKey :=
  (⟨tokenIds, extraKey, p.isEagle⟩ : RadixKey).pageAligned p.pageSize

/-- `RadixCache.evict`, whose slots are freed node by node. -/
def evict (p : KvParams) (numTokens : Nat) (victims : List Nat) (s : KvState) : Option KvState :=
  (s.cache.evict p.toCacheParams numTokens victims).map fun (freed, cache) =>
    { s with cache := cache, allocator := freed.foldl (fun a value => a.free value) s.allocator }

def evictFromTreeCache (p : KvParams) (numTokens : Nat) (victims : List Nat) (s : KvState) :
    Option KvState :=
  if s.allocator.availableSize < numTokens then s.evict p numTokens victims
  else if victims = [] then some s else none

/-- `alloc_token_slots` or `alloc_paged_token_slots_extend` for slots behind `row` up to
`seqLen`. -/
def allocSlotsExtend (p : KvParams) (row : List Nat) (seqLen : Nat) (victims : List Nat)
    (s : KvState) : Option (List Nat × KvState) :=
  let numTokens := seqLen - row.length
  if p.pageSize = 1 then
    (s.evictFromTreeCache p numTokens victims).bind fun s =>
      (s.allocator.alloc numTokens).map fun (out, a) => (out, { s with allocator := a })
  else
    (s.evictFromTreeCache p (numTokens + p.pageSize) victims).bind fun s =>
      (s.allocator.allocExtend row.length seqLen (Allocator.lastLoc row)).map fun (out, a) =>
        (out, { s with allocator := a })

/-- `alloc_token_slots` or `alloc_paged_token_slots_decode` for one more slot behind `row`. -/
def allocSlotsDecode (p : KvParams) (row : List Nat) (victims : List Nat) (s : KvState) :
    Option (List Nat × KvState) :=
  if p.pageSize = 1 then
    (s.evictFromTreeCache p 1 victims).bind fun s =>
      (s.allocator.alloc 1).map fun (out, a) => (out, { s with allocator := a })
  else
    (s.evictFromTreeCache p p.pageSize victims).bind fun s =>
      (s.allocator.allocDecode (row.length + 1) (Allocator.lastLoc row)).map fun (out, a) =>
        (out, { s with allocator := a })

/-- `init_next_round_input` with the tree, up to `maxPrefixLen` tokens, and `inc_lock_ref`
of the matched node. -/
def initNextRound (p : KvParams) (maxPrefixLen now : Nat) (r : Req) (s : KvState) :
    Option (Req × KvState) :=
  let key : RadixKey := ⟨(r.originInputIds ++ r.outputIds).take maxPrefixLen, r.extraKey, false⟩
  (s.cache.matchPrefix p.toCacheParams key now).bind fun (m, cache) =>
    (cache.incLockRef p.toCacheParams m.lastDeviceNode).map fun (_, cache) =>
      ({ r with
          prefixIndices := m.deviceIndices
          lastNode := some m.lastDeviceNode
          cacheProtectedLen := m.deviceIndices.length },
        { s with cache := cache })

/-- `prepare_for_extend`, with `alloc_for_extend`, by a chunk of `extendLen` tokens. -/
def extend (p : KvParams) (extendLen : Nat) (victims : List Nat) (r : Req) (s : KvState) :
    Option (Req × KvState) :=
  let fillIds := (r.originInputIds ++ r.outputIds).take (r.prefixIndices.length + extendLen)
  (s.allocSlotsExtend p r.prefixIndices fillIds.length victims).map fun (out, s) =>
    ({ r with
        fillIds := fillIds
        row := r.prefixIndices ++ out
        kvCommittedLen := fillIds.length }, s)

/-- `prepare_for_decode`, with `alloc_for_decode`. -/
def decode (p : KvParams) (victims : List Nat) (r : Req) (s : KvState) : Option (Req × KvState) :=
  let seqLen := r.kvCommittedLen
  (s.allocSlotsDecode p (r.row.take seqLen) victims).map fun (out, s) =>
    ({ r with
        row := writeSlice r.row seqLen (seqLen + 1) out
        kvCommittedLen := r.kvCommittedLen + 1 }, s)

def specDecode (p : KvParams) (doubleAlloc : Nat) (victims : List Nat) (r : Req) (s : KvState) :
    Option (Req × KvState) :=
  (s.allocSlotsExtend p r.row (r.kvCommittedLen + doubleAlloc) victims).map fun (out, s) =>
    ({ r with row := r.row ++ out, kvCommittedLen := r.kvCommittedLen + 1 }, s)

def cacheUnfinishedReq (p : KvParams) (chunked : Bool) (now : Nat) (r : Req) (s : KvState) :
    Option (Req × KvState) :=
  if p.disable then some (r, s)
  else
    let kvIndices := r.row.take r.fillIds.length
    let key := radixKey p r.fillIds r.extraKey
    (s.cache.insert p.toCacheParams key (kvIndices.take key.len) r.priority chunked now).bind
      fun (newPrefixLen, cache) =>
    let a := s.allocator.free (slice kvIndices r.cacheProtectedLen newPrefixLen)
    (cache.matchPrefix p.toCacheParams key now).bind fun (m, cache) =>
    let newIndices := m.deviceIndices
    if newIndices.length ≠ key.len then none
    else r.lastNode.bind fun node =>
      (cache.decLockRef p.toCacheParams node).bind fun (_, cache) =>
      (cache.incLockRef p.toCacheParams m.lastDeviceNode).map fun (_, cache) =>
        ({ r with
            row := writeSlice r.row r.cacheProtectedLen newIndices.length
              (newIndices.drop r.cacheProtectedLen)
            cacheProtectedLen := newIndices.length
            prefixIndices :=
              if newIndices.length < kvIndices.length then
                newIndices ++ kvIndices.drop newIndices.length
              else newIndices
            lastNode := some m.lastDeviceNode },
          { s with cache := cache, allocator := a })

def cacheFinishedReq (p : KvParams) (isInsert : Bool) (now : Nat) (r : Req) (s : KvState) :
    Option KvState :=
  let kvCommittedLen := r.cacheCommitLen p
  if p.disable then
    some { s with allocator := s.allocator.free (r.row.take kvCommittedLen) }
  else
    let tokenIds := (r.originInputIds ++ r.outputIds).take kvCommittedLen
    let kvIndices := r.row.take tokenIds.length
    let key := radixKey p tokenIds r.extraKey
    let cached :=
      if isInsert then
        s.cache.insert p.toCacheParams key (kvIndices.take key.len) r.priority false now
      else some (key.len, s.cache)
    cached.bind fun (prefixLen, cache) =>
      let a := s.allocator.free (slice kvIndices r.cacheProtectedLen prefixLen)
      let a := a.free (kvIndices.drop key.len)
      match r.lastNode with
      | none => some { s with cache := cache, allocator := a }
      | some node => (cache.decLockRef p.toCacheParams node).map fun (_, cache) =>
          { s with cache := cache, allocator := a }

def releaseKvCache (p : KvParams) (isInsert : Bool) (now : Nat) (r : Req) (s : KvState) :
    Option KvState :=
  if r.row = [] then none
  else (s.cacheFinishedReq p isInsert now r).bind fun s =>
    let start := r.cacheCommitLen p
    let stop := r.row.length
    if !p.specAlgorithm ∧ !p.stripThinkingCache ∧ start ≠ stop then none
    else
      let start := if 1 < p.pageSize then numPages p.pageSize start * p.pageSize else start
      if start < stop then some { s with allocator := s.allocator.free (slice r.row start stop) }
      else some s

end KvState

end SpecDecode.MemCache
