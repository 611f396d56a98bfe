import SpecDecode.Lib.WriteBack
import SpecDecode.MemCache.AllocExtend

/-!
# Cache locations on the NPU

`cache_loc_assign` copies the slots of a batch into the rows of `req_to_token`, and
`cache_loc_update` reads them back. A core works on a row through a local tensor: it copies a
window of the pool in and, to assign, `MAX_STEP` entries of it back. The Triton kernels
`assign_req_to_token_pool` and `assign_extend_cache_locs` touch the entries of a request only.

A tensor is a function on the offsets of the memory, also behind its end. A core's copies take
effect in its program order, those of different cores in any order. Offsets have no 32-bit
bound. An access behind a local tensor is `none`, as is the exception of the host.
-/

namespace SpecDecode.Npu

open Buffer MemCache WriteBack

/-- The arguments that the operations share. -/
structure CacheLocArgs where
  reqPoolIndices : Nat → Nat
  startOffset : Nat → Nat
  endOffset : Nat → Nat
  batchSize : Nat
  poolLen : Nat

namespace CacheLocArgs

variable (a : CacheLocArgs)

/-- The number of slots of a request. -/
def step (i : Nat) : Nat := a.endOffset i - a.startOffset i

def poolOffset (i : Nat) : Nat := a.reqPoolIndices i * a.poolLen + a.startOffset i

def outOffset (bsUpper pid : Nat) : Nat :=
  ((List.range bsUpper).map fun lane => if lane < pid then a.step lane else 0).sum

def assignReqToTokenPool (outCacheLoc reqToToken : Nat → Int) (pid : Nat) : Nat → Int :=
  let outOffset := a.outOffset (nextPowerOf2 a.batchSize) pid
  blockedStore reqToToken (a.poolOffset pid) ((a.step pid + 31) / 32) 32 (a.step pid) fun j =>
    outCacheLoc (outOffset + j)

def assignExtendCacheLocs (reqToToken outCacheLoc : Nat → Int) (pid : Nat) : Nat → Int :=
  let outOffset := a.outOffset (nextPowerOf2 a.batchSize) pid
  blockedStore outCacheLoc outOffset ((a.step pid + 31) / 32) 32 (a.step pid) fun j =>
    reqToToken (a.poolOffset pid + j)

/-- `assign_req_to_token_pool_func`. -/
def assignReqToTokenPoolFunc (outCacheLoc reqToToken : Nat → Int) : Nat → Int :=
  (List.range a.batchSize).foldl (a.assignReqToTokenPool outCacheLoc) reqToToken

/-- `assign_extend_cache_locs_func`, from the contents of the new tensor. -/
def assignExtendCacheLocsFunc (reqToToken outCacheLoc : Nat → Int) : Nat → Int :=
  (List.range a.batchSize).foldl (a.assignExtendCacheLocs reqToToken) outCacheLoc

/-- `MAX_STEP`. -/
def maxStep : Nat := 5

def alinInt32Count (count : Nat) : Nat := (count + 8 - 1) / 8 * 8

def alinInt64Count (count : Nat) : Nat := (count + 4 - 1) / 4 * 4

structure TilingData where
  vcoreNum : Nat
  rowNumNoTail : Nat
  tailNum : Nat
  tokenCountAlignInt32 : Nat
  cacheLocSize : Nat
  cacheLocCountAlignInt32 : Nat

/-- `ubBufferSizeToUse`, in bytes. -/
def ubBufferSizeToUse : Nat :=
  alinInt32Count maxStep * 4 + 3 * (alinInt64Count a.batchSize * 8) + 3 * a.batchSize * 4 +
    alinInt32Count (a.batchSize * maxStep) * 4

/-- What `getTiling` fills in for `blockDim` cores. -/
def tiling (blockDim : Nat) : TilingData where
  vcoreNum := blockDim
  rowNumNoTail := a.batchSize / blockDim
  tailNum := a.batchSize % blockDim
  tokenCountAlignInt32 := alinInt32Count maxStep
  cacheLocSize := a.batchSize * maxStep
  cacheLocCountAlignInt32 := alinInt32Count (a.batchSize * maxStep)

/-- `getTiling`, with `ubSize` bytes of local memory. -/
def getTiling (blockDim ubSize : Nat) : Option TilingData :=
  if ubSize < a.ubBufferSizeToUse then none else some (a.tiling blockDim)

namespace TilingData

variable (t : TilingData)

def rowNum (coreId : Nat) : Nat :=
  if coreId < t.tailNum then t.rowNumNoTail + 1 else t.rowNumNoTail

def rowOffset (coreId : Nat) : Nat :=
  let tailOffset := if coreId < t.tailNum then coreId else t.tailNum
  t.rowNumNoTail * coreId + tailOffset

/-- The rows of a core. -/
def coreRows (coreId : Nat) : List Nat := List.range' (t.rowOffset coreId) (t.rowNum coreId)

end TilingData

def getCacheIdx (rowIdx lastRowIdx cacheIdxStart : Nat) : Nat :=
  cacheIdxStart + ((List.range' lastRowIdx (rowIdx - lastRowIdx)).map a.step).sum

/-- The loop over the slots of a row stays inside of the two local tensors. -/
def InBounds (t : TilingData) (rowIdx cacheIdxStart : Nat) : Prop :=
  a.step rowIdx ≤ t.tokenCountAlignInt32 ∧
    (a.step rowIdx = 0 ∨ cacheIdxStart + a.step rowIdx ≤ t.cacheLocCountAlignInt32)

instance (t : TilingData) (rowIdx cacheIdxStart : Nat) :
    Decidable (a.InBounds t rowIdx cacheIdxStart) := inferInstanceAs (Decidable (_ ∧ _))

def coreJobs (t : TilingData) (outCacheLoc : Nat → Int) :
    (rows : List Nat) → (lastRowIdx cacheIdxStart : Nat) → Option (List (Job Int))
  | [], _, _ => some []
  | rowIdx :: rows, lastRowIdx, cacheIdxStart =>
      let cacheIdxStart := a.getCacheIdx rowIdx lastRowIdx cacheIdxStart
      if a.InBounds t rowIdx cacheIdxStart then
        (coreJobs t outCacheLoc rows rowIdx cacheIdxStart).map fun js =>
          ⟨a.poolOffset rowIdx, a.step rowIdx, fun j => outCacheLoc (cacheIdxStart + j)⟩ :: js
      else none

/-- `cache_loc_assign`, with the cores stepping in the order of `schedule`. -/
def cacheLocAssign (coreNumAiv ubSize : Nat) (outCacheLoc : Nat → Int) (schedule : List Nat)
    (tokenPool : Nat → Int) : Option (State Int) :=
  (a.getTiling coreNumAiv ubSize).bind fun t =>
    let jobs := fun core => a.coreJobs t outCacheLoc (t.coreRows core) 0 0
    if ∀ core < t.vcoreNum, (jobs core).isSome then
      some (run maxStep schedule
        (start (fun core => if core < t.vcoreNum then (jobs core).getD [] else []) tokenPool))
    else none

/-- The rows of `ProcessForCacheUpdate`, on the local copy of `out_cache_loc`. -/
def updateRows (t : TilingData) (tokenPool : Nat → Int) :
    (rows : List Nat) → (lastRowIdx cacheIdxStart : Nat) → (Nat → Int) → Option (Nat → Int)
  | [], _, _, ubCacheLoc => some ubCacheLoc
  | rowIdx :: rows, lastRowIdx, cacheIdxStart, ubCacheLoc =>
      let cacheIdxStart := a.getCacheIdx rowIdx lastRowIdx cacheIdxStart
      if a.InBounds t rowIdx cacheIdxStart then
        updateRows t tokenPool rows rowIdx cacheIdxStart
          (fill ubCacheLoc cacheIdxStart (a.step rowIdx) fun j =>
            tokenPool (a.poolOffset rowIdx + j))
      else none

/-- `cache_loc_update`, which runs on one core. -/
def cacheLocUpdate (ubSize : Nat) (tokenPool outCacheLoc : Nat → Int) : Option (Nat → Int) :=
  (a.getTiling 1 ubSize).bind fun t =>
    if t.rowNum 0 = 0 then some outCacheLoc
    else
      (a.updateRows t tokenPool (t.coreRows 0) 0 0 outCacheLoc).map fun ubCacheLoc =>
        fill outCacheLoc 0 t.cacheLocSize ubCacheLoc

end CacheLocArgs

end SpecDecode.Npu
