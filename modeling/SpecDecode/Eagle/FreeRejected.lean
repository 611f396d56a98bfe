import SpecDecode.MemCache.AllocExtendSpec
import Mathlib.Data.List.Nodup

/-!
# Freeing the slots of rejected drafts

A verified batch has `draft_token_num` slots for every request, behind the slots of its
sequence, and keeps `num_accepted_drafts + 1` tokens of them. With pages the slots can only
be given back page by page, and there are three ways to find out which: the evict mask of a
chain of drafts is cut at a page border, the accepted tokens of a tree are moved to the front
and the rest is cut, and DFlash computes how many slots to keep.

Lanes of a Triton load that are masked out are `0`.
-/

namespace SpecDecode.Eagle

open Buffer MemCache

structure VerifyBatch where
  alloc : ExtendArgs
  draftTokenNum : Nat
  numAcceptedDrafts : List Nat

namespace VerifyBatch

variable (b : VerifyBatch)

def bs : Nat := b.alloc.reqs.length

def pageSize : Nat := b.alloc.pageSize

/-- The entry of `batch.seq_lens`. -/
def seqLen (i : Nat) : Nat := (b.alloc.req i).prefixLen

def numAccepted (i : Nat) : Nat := b.numAcceptedDrafts.getD i 0

def outCacheLoc : Nat → Int := b.alloc.allocExtendNaive fun _ => 0

/-- The accepted drafts of a chain: the first ones of each request. -/
def chainAcceptIndex : List Nat :=
  (List.range b.bs).flatMap fun i =>
    (List.range (b.numAccepted i + 1)).map (i * b.draftTokenNum + ·)

def evictMask : Nat → Bool :=
  b.chainAcceptIndex.foldl (fun mask x => Function.update mask x false) fun _ => true

def alignEvictMaskToPageSize (blockSize : Nat) (evictMask : Nat → Bool) (bid : Nat) :
    Nat → Bool :=
  let row := bid * b.draftTokenNum
  let numTrues := ((List.range blockSize).map fun t =>
    if t < b.draftTokenNum then (evictMask (row + t)).toNat else 0).sum
  let numFalse : Int := b.draftTokenNum - numTrues
  let start : Int := (b.seqLen bid + numFalse - 1) / b.pageSize * b.pageSize - b.seqLen bid
  let first := (max start 0).toNat
  let stop := (min (start + b.pageSize) b.draftTokenNum).toNat
  fill evictMask (row + first) (stop - first) fun _ => false

def alignedEvictMask : Nat → Bool :=
  (List.range b.bs).foldl (b.alignEvictMaskToPageSize (nextPowerOf2 b.draftTokenNum)) b.evictMask

/-- `to_free_num_slots` of `get_src_tgt_cache_loc`. -/
def toFreeNumSlots (i : Nat) : Nat :=
  let extendedLen := b.seqLen i + b.draftTokenNum
  let keepLen := min
    ((b.seqLen i + b.numAccepted i + 1 + b.pageSize - 1) / b.pageSize * b.pageSize) extendedLen
  extendedLen - keepLen

/-- `tl.sum` of what the lanes below `bid` load. -/
def laneSum (bid : Nat) (f : Nat → Nat) : Nat :=
  ((List.range (nextPowerOf2 b.bs)).map fun lane => if lane < bid then f lane else 0).sum

/-- Program `bid` of `get_target_cache_loc`, on `tgt_cache_loc` and `to_free_slots`. -/
def getTargetCacheLoc (s : (Nat → Int) × (Nat → Int)) (bid : Nat) : (Nat → Int) × (Nat → Int) :=
  let upper := nextPowerOf2 b.draftTokenNum
  let tgtCacheLocStart := b.laneSum bid b.numAccepted + bid
  let copyLen := b.numAccepted bid + 1
  let toFreeNumSlotsCur := b.toFreeNumSlots bid
  let outCacheLocStart := b.draftTokenNum - toFreeNumSlotsCur
  let toFreeSlotsStart := b.laneSum bid b.toFreeNumSlots
  (maskedStore s.1 tgtCacheLocStart upper copyLen fun o =>
      b.outCacheLoc (bid * b.draftTokenNum + o),
    maskedStore s.2 toFreeSlotsStart upper toFreeNumSlotsCur fun o =>
      b.outCacheLoc (bid * b.draftTokenNum + outCacheLocStart + o))

def targetCacheLoc (s : (Nat → Int) × (Nat → Int)) : (Nat → Int) × (Nat → Int) :=
  (List.range b.bs).foldl b.getTargetCacheLoc s

/-- `_compute_paged_keep_slots`, where the committed tokens are the accepted ones; `none` is the
`ValueError`. -/
def computePagedKeepSlots : Option (List Nat) :=
  if b.pageSize ≤ 1 then none
  else some ((List.range b.bs).map fun i =>
    let extendedLen : Int := b.seqLen i + b.draftTokenNum
    let newLen : Int := b.seqLen i + (b.numAccepted i + 1)
    let alignedNewLen := (newLen + b.pageSize - 1) / b.pageSize * b.pageSize
    let keepLen := min alignedNewLen extendedLen
    (min (max (keepLen - b.seqLen i) 0) b.draftTokenNum).toNat)

end VerifyBatch

end SpecDecode.Eagle
