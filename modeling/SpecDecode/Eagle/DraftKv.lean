import SpecDecode.MemCache.AllocExtend

/-!
# The KV layout of a draft

Before a draft every request gets slots for `topk` branches of `speculative_num_steps` tokens.
`assign_draft_cache_locs` puts them into the row of the request and, on large pages, moves those
that hold draft tokens to the front of `out_cache_loc`; the draft model writes to these.
`generate_draft_decode_kv_indices` lists from the row what each branch reads.

A tensor is a function on the offsets of the memory. On large pages every further branch starts
on a page of its own.
-/

namespace SpecDecode.Eagle

open Buffer MemCache

structure DraftArgs where
  numSeqs : Nat
  poolLen : Nat
  topk : Nat
  speculativeNumSteps : Nat
  pageSize : Nat
  reqPoolIndices : Nat → Nat
  seqLens : Nat → Nat

structure LastLocs where
  prefixLens : Nat → Nat
  seqLens : Nat → Nat
  lastLoc : Nat → Int
  numNewPagesPerTopk : Nat → Nat
  extendLens : Nat → Nat
  lastPageLens : Nat → Nat

/-- The tensors that `assign_draft_cache_locs` writes. -/
structure DraftBuffers where
  reqToToken : Nat → Int
  outCacheLoc : Nat → Int
  sourceCacheLoc : Nat → Int
  targetCacheLoc : Nat → Int

/-- The tensors that `generate_draft_decode_kv_indices` writes, and the strides of their rows. -/
structure KvBuffers where
  kvIndices : Nat → Int
  kvIndptr : Nat → Nat
  kvIndicesStride : Nat
  kvIndptrStride : Nat

namespace DraftArgs

variable (a : DraftArgs)

def LargePages : Prop := a.pageSize ≠ 1 ∧ a.topk ≠ 1

instance : Decidable a.LargePages := inferInstanceAs (Decidable (_ ∧ _))

/-- The row of a request in `req_to_token`. -/
def tokenPool (r : Nat) : Nat := a.reqPoolIndices r * a.poolLen

def getLastLoc (reqToToken : Nat → Int) (r : Nat) : Int :=
  if 0 < a.seqLens r then reqToToken (a.tokenPool r + (a.seqLens r - 1)) else -1

def getLastLocLargePageSizeLargeTopK (reqToToken : Nat → Int) : LastLocs :=
  let prefixLens := a.seqLens
  let lastPageLens := fun r => prefixLens r % a.pageSize
  let numNewPagesPerTopk := fun r =>
    (lastPageLens r + a.speculativeNumSteps + a.pageSize - 1) / a.pageSize
  let seqLens := fun r => prefixLens r / a.pageSize * a.pageSize +
    numNewPagesPerTopk r * (a.pageSize * a.topk)
  { prefixLens, seqLens, lastLoc := a.getLastLoc reqToToken, numNewPagesPerTopk
    extendLens := fun r => seqLens r - prefixLens r
    lastPageLens }

def lastPageLen (r : Nat) : Nat := a.seqLens r % a.pageSize

def numNewPagesPerTopk (r : Nat) : Nat :=
  (a.lastPageLen r + a.speculativeNumSteps + a.pageSize - 1) / a.pageSize

def extendLen (r : Nat) : Nat :=
  a.seqLens r / a.pageSize * a.pageSize + a.numNewPagesPerTopk r * (a.pageSize * a.topk) -
    a.seqLens r

/-- The batch that `alloc_paged_token_slots_extend` is called with; with one branch the lengths
are those of `get_last_loc_large_page_size_top_k_1`. -/
def extendReqs (reqToToken : Nat → Int) : List ExtendReq :=
  (List.range a.numSeqs).map fun r =>
    let seqLen := if a.topk = 1 then a.seqLens r + a.speculativeNumSteps
      else (a.getLastLocLargePageSizeLargeTopK reqToToken).seqLens r
    ⟨a.seqLens r, seqLen, a.getLastLoc reqToToken r⟩

def duplicateCacheLen : Nat :=
  if 1 < a.pageSize ∧ 1 < a.topk then
    ((List.range a.numSeqs).map a.lastPageLen).sum * (a.topk - 1)
  else 0

def lastPageLensCumsum (r : Nat) : Nat := ((List.range (r + 1)).map a.lastPageLen).sum

/-- `tl.sum` of what the lanes below `pid` load. -/
def laneSum (lanes pid : Nat) (f : Nat → Nat) : Nat :=
  ((List.range lanes).map fun lane => if lane < pid then f lane else 0).sum

def copyLen (pid : Nat) : Nat :=
  if a.LargePages then a.extendLen pid else a.topk * a.speculativeNumSteps

def outCachePtr (pid : Nat) : Nat :=
  if a.LargePages then laneSum (nextPowerOf2 a.numSeqs) pid a.extendLen
  else pid * a.topk * a.speculativeNumSteps

/-- Part 1 of `assign_draft_cache_locs`: copy to `req_to_token`. -/
def copySlots (pid : Nat) (s : DraftBuffers) : DraftBuffers :=
  { s with
    reqToToken := blockedStore s.reqToToken (a.tokenPool pid + a.seqLens pid)
      (numPages 128 (a.copyLen pid)) 128 (a.copyLen pid) fun j =>
        s.outCacheLoc (a.outCachePtr pid + j) }

/-- Part 2: the slots whose contents are duplicated, and where to. -/
def duplicateSlots (pid : Nat) (s : DraftBuffers) : DraftBuffers :=
  let lastPageLen := a.lastPageLen pid
  let prefixBase := a.tokenPool pid + a.seqLens pid - lastPageLen
  (List.range' 1 (a.topk - 1)).foldl (fun s topkId =>
    let start := (a.topk - 1) * (a.lastPageLensCumsum pid - lastPageLen) +
      (topkId - 1) * lastPageLen
    { s with
      sourceCacheLoc := maskedStore s.sourceCacheLoc start a.pageSize lastPageLen fun offset =>
        s.reqToToken (prefixBase + offset)
      targetCacheLoc := maskedStore s.targetCacheLoc start a.pageSize lastPageLen fun offset =>
        s.reqToToken (prefixBase + topkId * a.numNewPagesPerTopk pid * a.pageSize + offset) }) s

/-- Part 3: the slots of draft tokens to the front of `out_cache_loc`. -/
def removeUsedSlots (pid : Nat) (s : DraftBuffers) : DraftBuffers :=
  let lastPageLen := a.lastPageLen pid
  let prefixBase := a.tokenPool pid + a.seqLens pid - lastPageLen
  (List.range a.topk).foldl (fun s topkId =>
    { s with
      outCacheLoc := windowStore s.outCacheLoc
        (pid * a.speculativeNumSteps * a.topk + topkId * a.speculativeNumSteps)
        (nextPowerOf2 (a.speculativeNumSteps + a.pageSize)) lastPageLen
        (a.speculativeNumSteps + lastPageLen) fun offset =>
          s.reqToToken (prefixBase + topkId * a.numNewPagesPerTopk pid * a.pageSize + offset) }) s

/-- Parts 2 and 3, if there is something to duplicate. -/
def moveSlots (pid : Nat) (s : DraftBuffers) : DraftBuffers :=
  if a.LargePages ∧ 0 < a.duplicateCacheLen then a.removeUsedSlots pid (a.duplicateSlots pid s)
  else s

/-- The slot that the draft model writes token `k` of branch `b` to: `draft_forward` reads
`out_cache_loc` with the shape `(batch_size, topk, speculative_num_steps)`. -/
def newSlot (s : DraftBuffers) (r b k : Nat) : Int :=
  s.outCacheLoc ((r * a.topk + b) * a.speculativeNumSteps + k)

/-- The first entry of the row that a branch reads behind the prefix. -/
def extendStart (bid topkId : Nat) : Nat :=
  let seqLen := a.seqLens bid
  if a.LargePages then
    seqLen / a.pageSize * a.pageSize + topkId * a.numNewPagesPerTopk bid * a.pageSize +
      a.lastPageLen bid
  else seqLen + topkId * a.speculativeNumSteps

/-- Program `(iters, bid, topkId)` of `generate_draft_decode_kv_indices`. -/
def generateDraftDecodeKvIndices (reqToToken : Nat → Int) (positions : Nat → Nat)
    (k : KvBuffers) (program : Nat × Nat × Nat) : KvBuffers :=
  let (iteration, bid, topkId) := program
  let iters := iteration + 1
  let seqLen := a.seqLens bid
  let cumSeqLen := laneSum (nextPowerOf2 a.numSeqs) bid a.seqLens
  let kvPtr := k.kvIndicesStride * iteration +
    (cumSeqLen * a.topk + bid * iters * a.topk + topkId * (seqLen + iters))
  let tokenPool := a.tokenPool bid
  let kvIndices := blockedStore k.kvIndices kvPtr (numPages 128 seqLen) 128 seqLen fun offset =>
    reqToToken (tokenPool + offset)
  let kvIndices := maskedStore kvIndices (kvPtr + seqLen) (nextPowerOf2 a.speculativeNumSteps)
    iters fun offset => reqToToken (tokenPool + a.extendStart bid topkId + offset)
  let zid := if bid * a.topk + topkId = 0 then a.numSeqs * a.topk else bid * a.topk + topkId
  let base := laneSum (nextPowerOf2 (a.topk * a.numSeqs)) zid positions
  { k with
    kvIndices
    kvIndptr := Function.update k.kvIndptr (k.kvIndptrStride * iteration + zid)
      (base + zid * iters) }

/-- `spec_info.positions`: every length `topk` times. -/
def positions (z : Nat) : Nat := a.seqLens (z / a.topk)

end DraftArgs

end SpecDecode.Eagle
