import SpecDecode.MemCache.KvPool
import SpecDecode.Scheduler.IgnoreEos

/-!
# Adding requests to a prefill batch

`add_chunked_req` goes on with the request whose prompt was cut in the round before, and
`add_one_req` looks at a waiting request. While it decides, the prefix of the request is locked,
which makes less of the tree evictable; if the request is admitted, a lock of its own is kept.

The memory is an allocator without a sliding window and a radix cache without a host tier, which
cannot load anything back: there `init_load_back` raises. `none` stands for an exception.
-/

namespace SpecDecode.Admission

open MemCache (KvState KvParams RadixKey)

def int (x : ℚ) : Int := if 0 ≤ x then ⌊x⌋ else ⌈x⌉

def kvSizes (kv : KvState) : Sizes where
  full := kv.allocator.availableSize + kv.cache.evictableSize
  swa := 0
  slidingWindowSize := 0

/-- `set_extend_input_len`, and the tokens of the prompt up to there. -/
def Store.setChunk (store : Store) (id : Nat) (extendInputLen : Int) : Store :=
  let req := store id
  store.set id { req with
    extendInputLen := extendInputLen
    fillIds := sliceTo req.fillIds (req.prefixIndices.length + extendInputLen) }

/-- What `add_one_req` is called with, and what it is told: the answers of the prefill delayer, if
there is one, whether the context is computed in parallel and the largest batch. -/
structure AddOptions where
  truncationAlignSize : Option Int
  allowPrefill : Bool
  allowIgnoreEos : Bool
  contextParallel : Bool
  prefillMaxRequests : Option Nat
deriving Repr, DecidableEq

structure AdmitState where
  adder : PrefillAdder
  store : Store
  kv : KvState

namespace PrefillAdder

variable (a : PrefillAdder) (sizes : Sizes)

/-- What `_get_dllm_remain_tokens` looks at first. -/
def dllmRoom (d : Dllm) : Int :=
  min d.remDllmTokens (min d.dllmBlockSize (int (a.remTotalTokens sizes)))

def getDllmRemainTokens (d : Dllm) : Int :=
  if a.dllmRoom sizes d ≤ 0 then d.remDllmTokens else a.dllmRoom sizes d

def chunkRoom (remChunkTokens : Int) : Int :=
  let remTokens := min remChunkTokens (int (a.remTotalTokens sizes))
  if a.isHybridSwa then min remTokens (a.remSwaTokens sizes - a.pageSize) else remTokens

/-- `_rem_tokens` of `add_chunked_req`; the inner `none` is its early return. -/
def chunkedRemTokens : Option (Option Int) :=
  match a.dllm with
  | some d => some (some (a.getDllmRemainTokens sizes d))
  | none =>
      a.remChunkTokens.map fun remChunkTokens =>
        if a.chunkRoom sizes remChunkTokens ≤ 0 then
          if a.isHybridSwa then none else some remChunkTokens
        else some (a.chunkRoom sizes remChunkTokens)

/-- `add_chunked_req`: the request if its prefill is still not finished, and what is left. -/
def addChunkedReq (store : Store) (id : Nat) : Option (Option Nat × PrefillAdder × Store) :=
  (a.chunkedRemTokens sizes).map fun remTokens? =>
    match remTokens? with
    | none => (some id, a, store)
    | some remTokens =>
        let req := store id
        let truncated := remTokens < req.extendInputLen
        let extendInputLen := min req.extendInputLen remTokens
        let added : PrefillAdder := { a with canRunList := a.canRunList ++ [id] }
        (if truncated then some id else none,
          added.updatePrefillBudget sizes extendInputLen
            (if truncated then 0 else min req.maxNewTokens clipMaxNewTokens),
          store.setChunk id extendInputLen)

/-- The length of a chunk that leaves a page border behind; `none` if there is no such chunk. -/
def truncLen (remChunkTokens prefixLen : Int) (truncationAlignSize : Option Int) : Option Int :=
  let truncLen := remChunkTokens.fdiv a.pageSize * a.pageSize
  if truncLen ≤ 0 then none
  else
    let aligned :=
      match truncationAlignSize with
      | none => some truncLen
      | some size => if truncLen < size then none else some (size * truncLen.fdiv size)
    aligned.bind fun truncLen =>
      let nowInputLen := (truncLen + prefixLen).fdiv a.pageSize * a.pageSize
      let truncLen := nowInputLen - prefixLen
      if truncLen ≤ 0 then none else some truncLen

def totalTokens (req : Req) : Int :=
  req.extendInputLen + min (max (req.maxNewTokens - req.outputIds.length) 0) clipMaxNewTokens +
    a.pageSize

end PrefillAdder

/-- `inc_lock_ref`, which reads `None` only if the cache is enabled. -/
def incLock (p : KvParams) (node : Option Nat) (kv : KvState) : Option KvState :=
  match node with
  | none => if p.disable then some kv else none
  | some node =>
      (kv.cache.incLockRef p.toCacheParams node).map fun (_, cache) => { kv with cache := cache }

def decLock (p : KvParams) (node : Option Nat) (kv : KvState) : Option KvState :=
  match node with
  | none => if p.disable then some kv else none
  | some node =>
      (kv.cache.decLockRef p.toCacheParams node).map fun (_, cache) => { kv with cache := cache }

namespace AdmitState

variable (p : KvParams) (o : AddOptions) (id : Nat) (s : AdmitState)

/-- The rest of `add_one_req` while the prefix is locked: what it returns there, if it returns
there, and the state. -/
def addLocked : Option (Option AddReqResult × AdmitState) :=
  let a := s.adder
  let req := s.store id
  let sizes := kvSizes s.kv
  if a.remTotalTokens sizes ≤ a.totalTokens req then some (some .noToken, s)
  else if a.isHybridSwa ∧ a.remSwaTokens sizes ≤ a.swaBudgetForReq sizes req.extendInputLen then
    some (some .noToken, s)
  else if 0 < req.hostHitLength then none
  else
    let inputTokens := a.ceilPagedTokens req.extendInputLen
    let added : PrefillAdder := { a with canRunList := a.canRunList ++ [id] }
    if a.remInputTokens ≤ inputTokens ∧ a.canRunList.length ≠ 0 then some (some .other, s)
    else
      match a.dllm with
      | some d =>
          if d.remDllmTokens ≤ 0 then some (some .other, s)
          else if o.truncationAlignSize.isSome then none
          else
            let (adder, store) := a.addDllmReq sizes s.store d id req.prefixIndices.length
            (incLock p req.lastNode s.kv).map fun kv => (none, ⟨adder, store, kv⟩)
      | none =>
          let whole := (incLock p req.lastNode s.kv).map fun kv =>
            (none, ⟨added.updatePrefillBudget sizes inputTokens
              (min req.maxNewTokens clipMaxNewTokens), s.store, kv⟩)
          match a.remChunkTokens with
          | none => whole
          | some remChunkTokens =>
              if inputTokens ≤ remChunkTokens then whole
              else
                match a.truncLen remChunkTokens req.prefixIndices.length o.truncationAlignSize with
                | none => some (some .other, s)
                | some truncLen => (incLock p req.lastNode s.kv).map fun kv =>
                    (none, ⟨({ added with newChunkedReq := some id } :
                      PrefillAdder).updatePrefillBudget sizes truncLen 0,
                      s.store.setChunk id truncLen, kv⟩)

def addOneReq : Option (AddReqResult × AdmitState) :=
  let a := s.adder
  let req := s.store id
  let sizes := kvSizes s.kv
  if !o.allowPrefill then some (.other, s)
  else if o.contextParallel ∧ 1 ≤ a.canRunList.length then some (.other, s)
  else if o.prefillMaxRequests.any (· ≤ a.canRunList.length) then some (.other, s)
  else if req.ignoreEos ∧ p.disable then
    let added := a.addOneReqIgnoreEos sizes s.store id o.allowIgnoreEos
    some (added.result, ⟨added.adder, added.store, s.kv⟩)
  else
    let realInputTokens := a.ceilPagedTokens (req.extendInputLen - req.hostHitLength)
    if a.remTotalTokens sizes ≤ a.totalTokens req then some (.noToken, s)
    else if a.isHybridSwa ∧ a.remSwaTokens sizes ≤ a.swaBudgetForReq sizes req.extendInputLen then
      some (.noToken, s)
    else if a.remInputTokens ≤ realInputTokens ∧ a.canRunList.length ≠ 0 then some (.other, s)
    else
      (incLock p req.lastNode s.kv).bind fun kv =>
        (addLocked p o id { s with kv := kv }).bind fun (result?, s') =>
          (decLock p req.lastNode s'.kv).map fun kv =>
            let s' := { s' with kv := kv }
            (result?.getD (s'.adder.budgetState (kvSizes s'.kv)), s')

def addChunkedReq : Option (Option Nat × AdmitState) :=
  (s.adder.addChunkedReq (kvSizes s.kv) s.store id).map fun (chunked, adder, store) =>
    (chunked, ⟨adder, store, s.kv⟩)

end AdmitState

structure PrefixLookup where
  maxPrefixLen : Nat
  extraKey : Option String
  now : Nat
deriving Repr, DecidableEq

/-- `init_next_round_input` for the tokens `fillIds`, with the tree if a prefix is looked up. -/
def AdmitState.initNextRound (p : KvParams) (id : Nat) (fillIds : List Int)
    (lookup? : Option PrefixLookup) (s : AdmitState) : Option AdmitState :=
  let req := s.store id
  match lookup? with
  | none => some { s with store := s.store.set id { req with
      fillIds := fillIds
      extendInputLen := fillIds.length - req.prefixIndices.length } }
  | some lookup =>
      let key : RadixKey := ⟨fillIds.take lookup.maxPrefixLen, lookup.extraKey, false⟩
      (s.kv.cache.matchPrefix p.toCacheParams key lookup.now).map fun (m, cache) =>
        { s with
          kv := { s.kv with cache := cache }
          store := s.store.set id { req with
            fillIds := fillIds
            prefixIndices := m.deviceIndices
            lastNode := some m.lastDeviceNode
            hostHitLength := 0
            extendInputLen := fillIds.length - m.deviceIndices.length } }

/-- What a scheduling round does with a request: it goes on with the one that was cut, or it
looks at a waiting one. -/
inductive AdmitCall where
  | chunked (id : Nat) (fillIds : List Int)
  | waiting (id : Nat) (fillIds : List Int) (lookup : PrefixLookup) (options : AddOptions)

def AdmitCall.exec (p : KvParams) (s : AdmitState) : AdmitCall → Option AdmitState
  | chunked id fillIds =>
      (s.initNextRound p id fillIds none).bind fun s => (s.addChunkedReq id).map (·.2)
  | waiting id fillIds lookup options =>
      (s.initNextRound p id fillIds (some lookup)).bind fun s =>
        (s.addOneReq p options id).map (·.2)

end SpecDecode.Admission
