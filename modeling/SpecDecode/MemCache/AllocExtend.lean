import SpecDecode.Lib.Buffer
import SpecDecode.Lib.PageLayout
import Mathlib.Algebra.Order.Ring.Int
import Mathlib.Data.List.GetD
import Mathlib.Data.Nat.Size

/-!
# The implementations of extend allocation

A batch of requests is extended from `prefix_len` to `seq_len` tokens. The slots of one
request first use up its last page, then fill whole new pages and at last a part of one more
page; the new pages of all requests are taken off the free list one after the other. There
are a loop over the batch, a Triton kernel, a Triton kernel for the NPU and an AscendC
kernel.

Lanes of a Triton load that are masked out are `0`. An AscendC core has one local memory, in
which the kernel takes a number of bytes for a number of cells, so that a copy may overwrite
what another one has brought. The units of a core work in program order, and no length in
bytes reaches `2 ^ 32`.
-/

namespace SpecDecode.MemCache

open Buffer

structure ExtendReq where
  prefixLen : Nat
  seqLen : Nat
  lastLoc : Int

structure ExtendArgs where
  pageSize : Nat
  reqs : List ExtendReq
  freePages : List Nat

namespace ExtendReq

variable (ps : Nat) (r : ExtendReq)

def extendLen : Nat := r.seqLen - r.prefixLen

def numNewPages : Nat := numPages ps r.seqLen - numPages ps r.prefixLen

/-- The tokens that fit on the old last page. -/
def numPart1 : Nat := min r.seqLen (numPages ps r.prefixLen * ps) - r.prefixLen

def numPart2 : Nat := r.seqLen / ps * ps - numPages ps r.prefixLen * ps

/-- The tokens on the last page, if that is a new one. -/
def numPart3 : Nat := r.seqLen - r.seqLen / ps * ps

end ExtendReq

/-- What an AscendC device has: its vector cores, the bytes of local memory of each, and the
buffers that a pipe can give out. -/
structure AscendDevice where
  maxAivCore : Nat
  ubSize : Nat
  maxBufs : Nat

/-- The local memory of a core in cells of eight bytes, and how many bytes and buffers its pipe
has given out. -/
structure AscendCore where
  ub : Nat → Int
  maxAddr : Nat
  curBufSize : Nat

/-- `ceil_div(n * sizeof(int64_t), byteAlign) * byteAlign`. -/
def bytesAligned (n : Nat) : Nat := numPages 32 (n * 8) * 32

namespace AscendDevice

variable (dev : AscendDevice)

/-- `InitBuffer` of a queue with one buffer, which takes the next `len` bytes. -/
def initBuffer (len : Nat) (c : AscendCore) : Option (Nat × AscendCore) :=
  if c.maxAddr + len ≤ dev.ubSize ∧ c.curBufSize < dev.maxBufs then
    some (c.maxAddr / 8, { c with maxAddr := c.maxAddr + len, curBufSize := c.curBufSize + 1 })
  else none

/-- `DataCopyPad` of `n` numbers to the cells from `dst` on. Blocks of 32 bytes are written, the
last one filled up with `pad`. -/
def dataCopyPad (pad : Nat → Int) (dst n : Nat) (src ub : Nat → Int) : Option (Nat → Int) :=
  if dst * 8 + bytesAligned n ≤ dev.ubSize then
    some (fill ub dst (bytesAligned n / 8) fun i => if i < n then src i else pad i)
  else none

end AscendDevice

def nextPowerOf2 (n : Nat) : Nat := if 0 < n then 2 ^ (n - 1).size else 1

namespace ExtendArgs

variable (a : ExtendArgs)

/-- A request, `0` outside of the batch. -/
def req (i : Nat) : ExtendReq := a.reqs.getD i ⟨0, 0, 0⟩

/-- The `i`-th entry of a cumulative sum. -/
def cumsum (f : ExtendReq → Nat) (i : Nat) : Nat := ((a.reqs.take (i + 1)).map f).sum

def freePage (i : Nat) : Nat := a.freePages.getD i 0

/-- `get_num_new_pages`. -/
def getNumNewPages : Nat := (a.reqs.map (·.numNewPages a.pageSize)).sum

def naiveRound (out : Nat → Int) (i : Nat) : Nat → Int :=
  let ps := a.pageSize
  let r := a.req i
  let endPos := a.cumsum (·.extendLen) i
  let startPos := endPos - r.extendLen
  let numNewPages := r.numNewPages ps
  let numFullNewPages := r.seqLen / ps - numPages ps r.prefixLen
  let needPage := numNewPages - numFullNewPages
  let endNewPages := a.cumsum (·.numNewPages ps) i
  let startNewPages := endNewPages - numNewPages
  let num1 := r.numPart1 ps
  let out := if num1 ≠ 0 then fill out startPos num1 fun j => r.lastLoc + 1 + j else out
  if r.prefixLen + num1 = r.seqLen then out
  else
    let num2 := (r.seqLen / ps - numPages ps r.prefixLen) * ps
    let pages := (a.freePages.take (endNewPages - needPage)).drop startNewPages
    let slots := pages.flatMap fun page => pageSlots ps page
    let out := if num2 ≠ 0 then fill out (startPos + num1) num2 fun j =>
      (slots.getD j 0 : Int) else out
    if r.prefixLen + num1 + num2 = r.seqLen then out
    else
      let num3 := r.numPart3 ps
      if num3 ≠ 0 then
        fill out (endPos - num3) num3 fun j => (a.freePage (endNewPages - 1) * ps + j : Nat)
      else out

def allocExtendNaive (out : Nat → Int) : Nat → Int :=
  (List.range a.reqs.length).foldl a.naiveRound out

/-- `tl.sum` of what the lanes up to `pid` load. -/
def laneSum (bsUpper pid : Nat) (f : ExtendReq → Nat) : Nat :=
  ((List.range bsUpper).map fun lane => f (if lane ≤ pid then a.req lane else ⟨0, 0, 0⟩)).sum

/-- Program `pid` of a Triton kernel, which stores part 2 in `blocks numPart2` blocks. -/
def tritonProgram (bsUpper : Nat) (blocks : Nat → Nat) (blockSize : Nat) (out : Nat → Int)
    (pid : Nat) : Nat → Int :=
  let ps := a.pageSize
  let r := a.req pid
  let outputStartLoc := a.laneSum bsUpper pid (·.extendLen) - r.extendLen
  let numPageStartLocSelf := r.numNewPages ps
  let newPageStartLoc := a.laneSum bsUpper pid (·.numNewPages ps) - numPageStartLocSelf
  let numPart1 := r.numPart1 ps
  let out := maskedStore out outputStartLoc ps numPart1 fun j => r.lastLoc + 1 + j
  if r.prefixLen + numPart1 = r.seqLen then out
  else
    let numPart2 := r.numPart2 ps
    let out := blockedStore out (outputStartLoc + numPart1) (blocks numPart2) blockSize numPart2
      fun j => (a.freePage (newPageStartLoc + j / ps) * ps + j % ps : Nat)
    if r.prefixLen + numPart1 + numPart2 = r.seqLen then out
    else
      let startLoc := a.freePage (newPageStartLoc + numPageStartLocSelf - 1)
      maskedStore out (outputStartLoc + numPart1 + numPart2) ps (r.numPart3 ps)
        fun j => (startLoc * ps + j : Nat)

def allocExtendKernel (out : Nat → Int) : Nat → Int :=
  (List.range a.reqs.length).foldl
    (a.tritonProgram (nextPowerOf2 a.reqs.length) (fun num => numPages 4096 num) 4096) out

/-- The launch of `alloc_extend_kernel` of the NPU; `extend_num_tokens` is the length of the
output. -/
def npuAllocExtendKernel (out : Nat → Int) : Nat → Int :=
  let extendNumTokens := (a.reqs.map (·.extendLen)).sum
  (List.range a.reqs.length).foldl
    (a.tritonProgram (nextPowerOf2 a.reqs.length)
      (fun _ => numPages 2048 (nextPowerOf2 extendNumTokens)) 2048) out

/-- `total_size_aligned`: bytes, and also the cells between the inputs of the kernel. -/
def totalSizeAligned : Nat := bytesAligned a.reqs.length

/-- `CopyIn` of the AscendC kernel. -/
def copyIn (dev : AscendDevice) (pad ub : Nat → Int) : Option (Nat → Int) :=
  (dev.dataCopyPad pad 0 a.reqs.length (fun i => (a.req i).prefixLen) ub).bind fun ub =>
  (dev.dataCopyPad pad a.totalSizeAligned a.reqs.length (fun i => (a.req i).seqLen) ub).bind
    fun ub => dev.dataCopyPad pad (a.totalSizeAligned * 2) a.reqs.length
      (fun i => (a.req i).lastLoc) ub

def localReq (ub : Nat → Int) (i : Nat) : ExtendReq where
  prefixLen := (ub i).toNat
  seqLen := (ub (a.totalSizeAligned + i)).toNat
  lastLoc := ub (a.totalSizeAligned * 2 + i)

def taskSums (ub : Nat → Int) (task : Nat) : Nat × Nat :=
  (List.range (task + 1)).foldl (fun (extendLensSum, numNewPagesSum) i =>
    (extendLensSum + (a.localReq ub i).extendLen,
      numNewPagesSum + (a.localReq ub i).numNewPages a.pageSize)) (0, 0)

/-- `Compute` once the free pages are in local memory: the slots go to the cells from `outIndices`
on, and the number of new pages may be stored. -/
def computeSlots (task outIndices freePages numNewPagesSum : Nat) (r : ExtendReq)
    (ub : Nat → Int) (values : Int) : (Nat → Int) × Int :=
  let ps := a.pageSize
  let curNeedPages := r.numNewPages ps
  let newPagesStartLoc := numNewPagesSum - curNeedPages
  let lastLoc := ub (a.totalSizeAligned * 2 + task)
  let numPart1 := r.numPart1 ps
  let ub := fill ub outIndices numPart1 fun i => lastLoc + 1 + i
  if r.prefixLen + numPart1 = r.seqLen then (ub, values)
  else
    let numPart2 := r.numPart2 ps
    let ub := if 0 < numPart2 then
        (List.range (numPart2 / ps)).foldl (fun (ub : Nat → Int) page =>
          let pageValue := ub (freePages + (newPagesStartLoc + page))
          fill ub (outIndices + numPart1 + page * ps) ps fun i => pageValue * ps + i) ub
      else ub
    if r.prefixLen + numPart1 + numPart2 = r.seqLen then (ub, values)
    else
      let startPageLoc := ub (freePages + (newPagesStartLoc + curNeedPages - 1))
      let ub := fill ub (outIndices + (numPart1 + numPart2)) (r.numPart3 ps)
        fun i => startPageLoc * ps + i
      (ub, if task = a.reqs.length - 1 then (numNewPagesSum : Int) else values)

def compute (dev : AscendDevice) (pad : Nat → Int) (task : Nat) (c : AscendCore) (values : Int) :
    Option (Nat × AscendCore × Int) :=
  let r := a.localReq c.ub task
  let numNewPagesSum := (a.taskSums c.ub task).2
  (dev.initBuffer (bytesAligned r.extendLen) c).bind fun (outIndices, c) =>
  (dev.initBuffer (bytesAligned numNewPagesSum) c).bind fun (freePages, c) =>
  (dev.dataCopyPad pad freePages numNewPagesSum (fun i => a.freePage i) c.ub).map fun ub =>
    let (ub, values) := a.computeSlots task outIndices freePages numNewPagesSum r ub values
    (outIndices, { c with ub := ub }, values)

def ascendTask (dev : AscendDevice) (pad : Nat → Nat → Int)
    (s : AscendCore × (Nat → Int) × Int) (task : Nat) : Option (AscendCore × (Nat → Int) × Int) :=
  (a.copyIn dev (pad task) s.1.ub).bind fun ub =>
  (a.compute dev (pad task) task { s.1 with ub := ub } s.2.2).map fun (outIndices, c, values) =>
    let curExtendLen := (a.localReq ub task).extendLen
    let outputStartLoc := (a.taskSums ub task).1 - curExtendLen
    (c, fill s.2.1 outputStartLoc curExtendLen fun i => c.ub (outIndices + i), values)

def coreTasks (blockNum core : Nat) : List Nat :=
  (List.range (numPages blockNum (a.reqs.length - core))).map (core + · * blockNum)

/-- `Init` and `Process` of a core, whose local memory holds `ub` at first. -/
def ascendProcess (dev : AscendDevice) (pad : Nat → Nat → Int) (ub : Nat → Int) (tasks : List Nat)
    (s : (Nat → Int) × Int) : Option ((Nat → Int) × Int) :=
  (dev.initBuffer (a.totalSizeAligned * 3) ⟨ub, 0, 0⟩).bind fun (_, c) =>
  (tasks.foldlM (a.ascendTask dev pad) (c, s)).map Prod.snd

/-- The launch of the AscendC `alloc_extend` on `min(max_aiv_core, batch_size)` cores; `none` if a
core runs out of local memory. -/
def ascendAllocExtend (dev : AscendDevice) (pad ub : Nat → Nat → Int) (out : Nat → Int)
    (values : Int) : Option ((Nat → Int) × Int) :=
  let blockDim := min dev.maxAivCore a.reqs.length
  (List.range blockDim).foldlM (fun s core =>
    a.ascendProcess dev pad (ub core) (a.coreTasks blockDim core) s) (out, values)

/-- The sum over the requests before `i`. -/
def before (f : ExtendReq → Nat) (i : Nat) : Nat := ((a.reqs.take i).map f).sum

/-- The slot of the `j`-th new token of request `i`: on the page of `lastLoc`, or on a new page. -/
def slotFrom (lastLoc : Int) (i j : Nat) : Int :=
  let r := a.req i
  let t := r.prefixLen + j
  if t < numPages a.pageSize r.prefixLen * a.pageSize then lastLoc + 1 + j
  else
    (a.freePage (a.before (·.numNewPages a.pageSize) i +
      (t / a.pageSize - numPages a.pageSize r.prefixLen)) * a.pageSize + t % a.pageSize : Nat)

/-- The slot where the prefix of the request ends on its last page. -/
def slot (i j : Nat) : Int := a.slotFrom (a.req i).lastLoc i j

/-- The slots of request `i` behind `lastLoc`, in its part of the output. -/
def writeFrom (lastLoc : Int) (out : Nat → Int) (i : Nat) : Nat → Int :=
  fill out (a.before (·.extendLen) i) (a.req i).extendLen (a.slotFrom lastLoc i)

def writeReq (out : Nat → Int) (i : Nat) : Nat → Int := a.writeFrom (a.req i).lastLoc out i

section Sums

variable {a} {f : ExtendReq → Nat} {i : Nat}

theorem before_succ (hi : i < a.reqs.length) : a.before f (i + 1) = a.before f i + f (a.req i) := by
  rw [before, before, List.take_succ_eq_append_getElem hi, List.map_append, List.sum_append, req,
    List.getD_eq_getElem _ _ hi]
  simp

theorem before_mono {j : Nat} (hij : i ≤ j) : a.before f i ≤ a.before f j := by
  obtain ⟨rest, hrest⟩ := List.take_prefix_take_left (l := a.reqs) hij
  rw [before, before, ← hrest, List.map_append, List.sum_append]
  exact Nat.le_add_right _ _

theorem before_length : a.before f a.reqs.length = (a.reqs.map f).sum := by
  rw [before, List.take_length]

theorem cumsum_sub (hi : i < a.reqs.length) : a.cumsum f i - f (a.req i) = a.before f i := by
  have hsucc := before_succ (f := f) hi
  rw [cumsum, ← before]
  omega

theorem taskSums_eq {ub : Nat → Int} (hub : ∀ i, i < a.reqs.length → a.localReq ub i = a.req i)
    (hi : i < a.reqs.length) : a.taskSums ub i =
      (a.before (·.extendLen) (i + 1), a.before (·.numNewPages a.pageSize) (i + 1)) := by
  induction i with
  | zero =>
      rw [before_succ hi, before_succ hi]
      simp [taskSums, before, hub 0 hi]
  | succ i ih =>
      rw [before_succ hi, before_succ hi, taskSums, List.range_succ, List.foldl_append, ← taskSums,
        ih (by omega), List.foldl_cons, List.foldl_nil, hub _ hi]

theorem laneSum_eq (hf : f ⟨0, 0, 0⟩ = 0) {bsUpper : Nat} (hi : i < a.reqs.length)
    (hle : a.reqs.length ≤ bsUpper) : a.laneSum bsUpper i f = a.before f (i + 1) := by
  have hsum : ∀ n, a.laneSum n i f = a.before f (min n (i + 1)) := by
    intro n
    induction n with
    | zero => simp [laneSum, before]
    | succ n ih =>
        rw [laneSum, List.range_succ, List.map_append, List.sum_append, ← laneSum, ih,
          List.map_singleton, List.sum_singleton]
        by_cases hn : n ≤ i
        · rw [if_pos hn, Nat.min_eq_left (by omega), Nat.min_eq_left (by omega),
            before_succ (by omega)]
        · rw [if_neg hn, hf, Nat.min_eq_right (by omega), Nat.min_eq_right (by omega), Nat.add_zero]
  rw [hsum, Nat.min_eq_right (by omega)]

end Sums

end ExtendArgs

/-- The tokens of a request end on its old page, at the end of a new page or inside of one. -/
inductive ExtendReq.Parts (ps : Nat) (r : ExtendReq) : Prop where
  | old (stop : r.prefixLen + r.numPart1 ps = r.seqLen) (len : r.extendLen = r.numPart1 ps)
  | full (more : r.prefixLen + r.numPart1 ps ≠ r.seqLen)
      (border : r.prefixLen + r.numPart1 ps = numPages ps r.prefixLen * ps)
      (num2 : r.numPart2 ps = (r.seqLen / ps - numPages ps r.prefixLen) * ps)
      (stop : r.prefixLen + r.numPart1 ps + r.numPart2 ps = r.seqLen)
      (len : r.extendLen = r.numPart1 ps + r.numPart2 ps)
      (new : r.numNewPages ps = r.seqLen / ps - numPages ps r.prefixLen)
  | rest (more : r.prefixLen + r.numPart1 ps ≠ r.seqLen)
      (border : r.prefixLen + r.numPart1 ps = numPages ps r.prefixLen * ps)
      (num2 : r.numPart2 ps = (r.seqLen / ps - numPages ps r.prefixLen) * ps)
      (more' : r.prefixLen + r.numPart1 ps + r.numPart2 ps ≠ r.seqLen)
      (border' : r.prefixLen + r.numPart1 ps + r.numPart2 ps = r.seqLen / ps * ps)
      (len : r.extendLen = r.numPart1 ps + r.numPart2 ps + r.numPart3 ps)
      (pos : 0 < r.numPart3 ps) (lt : r.numPart3 ps < ps)
      (new : r.numNewPages ps = r.seqLen / ps - numPages ps r.prefixLen + 1)

theorem numPages_eq {ps : Nat} (hps : 0 < ps) (n : Nat) :
    numPages ps n = if n / ps * ps = n then n / ps else n / ps + 1 := by
  split
  · next hfull =>
      conv_lhs => rw [← hfull]
      exact numPages_mul hps _
  · next hmore =>
      have hdiv := Nat.div_add_mod n ps
      have hmod := Nat.mod_lt n hps
      rw [Nat.mul_comm] at hdiv
      have hlo := (lt_numPages_iff hps (k := n / ps) (n := n)).mpr (by omega)
      have hhi := (not_congr (lt_numPages_iff hps (k := n / ps + 1) (n := n))).mpr (by
        rw [Nat.add_mul, Nat.one_mul]
        omega)
      omega

theorem ExtendReq.numPart1_le {ps : Nat} (hps : 0 < ps) (r : ExtendReq) : r.numPart1 ps ≤ ps := by
  have hnum1 : r.numPart1 ps = min r.seqLen (numPages ps r.prefixLen * ps) - r.prefixLen := rfl
  have hceil : numPages ps r.prefixLen * ps ≤ r.prefixLen + ps - 1 := Nat.div_mul_le_self ..
  omega

theorem ExtendReq.numPart2_le {ps : Nat} (hps : 0 < ps) (r : ExtendReq) :
    r.numPart2 ps ≤ r.extendLen := by
  have hceil := le_numPages_mul hps r.prefixLen
  have hfloor := Nat.div_mul_le_self r.seqLen ps
  rw [numPart2, extendLen]
  omega

theorem ExtendReq.parts {ps : Nat} (hps : 0 < ps) {r : ExtendReq} (hle : r.prefixLen ≤ r.seqLen) :
    r.Parts ps := by
  have hceil := le_numPages_mul hps r.prefixLen
  have hfloor := Nat.div_mul_le_self r.seqLen ps
  have hnum1 : r.numPart1 ps = min r.seqLen (numPages ps r.prefixLen * ps) - r.prefixLen := rfl
  have hnum2 : r.numPart2 ps = r.seqLen / ps * ps - numPages ps r.prefixLen * ps := rfl
  have hnum3 : r.numPart3 ps = r.seqLen - r.seqLen / ps * ps := rfl
  have hlen : r.extendLen = r.seqLen - r.prefixLen := rfl
  have hnew : r.numNewPages ps = numPages ps r.seqLen - numPages ps r.prefixLen := rfl
  by_cases hstop : r.prefixLen + r.numPart1 ps = r.seqLen
  · exact .old hstop (by omega)
  have hquot : numPages ps r.prefixLen ≤ r.seqLen / ps :=
    (Nat.le_div_iff_mul_le hps).mpr (by omega)
  have hquot' := Nat.mul_le_mul_right ps hquot
  have hmul : (r.seqLen / ps - numPages ps r.prefixLen) * ps =
      r.seqLen / ps * ps - numPages ps r.prefixLen * ps := Nat.sub_mul ..
  have hpages := numPages_eq hps r.seqLen
  by_cases hstop' : r.prefixLen + r.numPart1 ps + r.numPart2 ps = r.seqLen
  · rw [if_pos (by omega)] at hpages
    exact .full hstop (by omega) (by omega) hstop' (by omega) (by omega)
  · have hdiv := Nat.div_add_mod r.seqLen ps
    have hmod := Nat.mod_lt r.seqLen hps
    rw [Nat.mul_comm] at hdiv
    rw [if_neg (by omega)] at hpages
    exact .rest hstop (by omega) (by omega) hstop' (by omega) (by omega) (by omega) (by omega)
      (by omega)

/-- The tokens of a request end inside of a new page. -/
def ExtendReq.EndsInside (ps : Nat) (r : ExtendReq) : Prop :=
  numPages ps r.prefixLen * ps < r.seqLen ∧ r.seqLen % ps ≠ 0

instance (ps : Nat) (r : ExtendReq) : Decidable (r.EndsInside ps) := instDecidableAnd

theorem ExtendReq.endsInside_iff {ps : Nat} (hps : 0 < ps) {r : ExtendReq}
    (hle : r.prefixLen ≤ r.seqLen) : r.EndsInside ps ↔
      r.prefixLen + r.numPart1 ps ≠ r.seqLen ∧
        r.prefixLen + r.numPart1 ps + r.numPart2 ps ≠ r.seqLen := by
  have hceil := le_numPages_mul hps r.prefixLen
  have hnum1 : r.numPart1 ps = min r.seqLen (numPages ps r.prefixLen * ps) - r.prefixLen := rfl
  have hdiv := Nat.div_add_mod r.seqLen ps
  rw [Nat.mul_comm] at hdiv
  rw [EndsInside]
  cases ExtendReq.parts hps hle with
  | old stop len => omega
  | full more border num2 stop len new =>
      have hmod : r.seqLen % ps = 0 := by
        rw [← stop, border, num2, ← Nat.add_mul, Nat.mul_mod_left]
      omega
  | rest more border num2 more' border' len pos lt new => omega

namespace ExtendArgs

section Rounds

variable {a : ExtendArgs} {i : Nat} {lastLoc : Int} (hps : 0 < a.pageSize)

theorem slot_part1 {j : Nat} (hj : j < (a.req i).numPart1 a.pageSize) :
    a.slotFrom lastLoc i j = lastLoc + 1 + j := by
  have hnum1 : (a.req i).numPart1 a.pageSize =
    min (a.req i).seqLen (numPages a.pageSize (a.req i).prefixLen * a.pageSize) -
      (a.req i).prefixLen := rfl
  rw [slotFrom, if_pos (by omega)]

include hps

theorem slot_new {j k : Nat}
    (hj : (a.req i).prefixLen + j = numPages a.pageSize (a.req i).prefixLen * a.pageSize + k) :
    a.slotFrom lastLoc i j =
    (a.freePage (a.before (·.numNewPages a.pageSize) i + k / a.pageSize) * a.pageSize +
      k % a.pageSize : Nat) := by
  obtain ⟨hdiv, hmod⟩ := mul_add_div_mod hps (numPages a.pageSize (a.req i).prefixLen) k
  rw [slotFrom, hj, if_neg (by omega), hdiv, hmod, Nat.add_sub_cancel_left]

theorem slot_part2 {j : Nat} (hborder : (a.req i).prefixLen + (a.req i).numPart1 a.pageSize =
      numPages a.pageSize (a.req i).prefixLen * a.pageSize) :
    a.slotFrom lastLoc i ((a.req i).numPart1 a.pageSize + j) =
      (a.freePage (a.before (·.numNewPages a.pageSize) i + j / a.pageSize) * a.pageSize +
        j % a.pageSize : Nat) :=
  slot_new hps (by omega)

theorem slot_part3 {j : Nat} (hj : j < (a.req i).numPart3 a.pageSize)
    (hlt : (a.req i).numPart3 a.pageSize < a.pageSize)
    (hborder : (a.req i).prefixLen + (a.req i).numPart1 a.pageSize =
      numPages a.pageSize (a.req i).prefixLen * a.pageSize) (hnum2 : (a.req i).numPart2 a.pageSize =
      ((a.req i).seqLen / a.pageSize - numPages a.pageSize (a.req i).prefixLen) * a.pageSize)
    (hnew : (a.req i).numNewPages a.pageSize =
      (a.req i).seqLen / a.pageSize - numPages a.pageSize (a.req i).prefixLen + 1) :
    a.slotFrom lastLoc i ((a.req i).numPart1 a.pageSize + (a.req i).numPart2 a.pageSize + j) =
      (a.freePage (a.before (·.numNewPages a.pageSize) i + (a.req i).numNewPages a.pageSize - 1) *
        a.pageSize + j : Nat) := by
  obtain ⟨hdiv, hmod⟩ := mul_add_div_mod hps
    ((a.req i).seqLen / a.pageSize - numPages a.pageSize (a.req i).prefixLen) j
  have hj0 : j / a.pageSize = 0 := Nat.div_eq_of_lt (by omega)
  have hjj : j % a.pageSize = j := Nat.mod_eq_of_lt (by omega)
  have hlast : a.before (·.numNewPages a.pageSize) i + (a.req i).numNewPages a.pageSize - 1 =
      a.before (·.numNewPages a.pageSize) i +
        ((a.req i).seqLen / a.pageSize - numPages a.pageSize (a.req i).prefixLen) := by
    rw [hnew]
    rfl
  rw [slot_new hps (k := (a.req i).numPart2 a.pageSize + j) (by omega), hnum2, hdiv, hmod, hj0, hjj,
    Nat.add_zero, hlast]

theorem fill_part2 (out : Nat → Int) (base : Nat)
    (hborder : (a.req i).prefixLen + (a.req i).numPart1 a.pageSize =
      numPages a.pageSize (a.req i).prefixLen * a.pageSize) :
    fill (fill out base ((a.req i).numPart1 a.pageSize) fun j => lastLoc + 1 + j)
      (base + (a.req i).numPart1 a.pageSize) ((a.req i).numPart2 a.pageSize)
      (fun j => (a.freePage (a.before (·.numNewPages a.pageSize) i + j / a.pageSize) * a.pageSize +
        j % a.pageSize : Nat)) =
    fill out base ((a.req i).numPart1 a.pageSize + (a.req i).numPart2 a.pageSize)
    (a.slotFrom lastLoc i) :=
  fill_append (fun _ hj => slot_part1 hj) fun _ _ => slot_part2 hps hborder

theorem fill_part3 (out : Nat → Int) (base : Nat) (hlt : (a.req i).numPart3 a.pageSize < a.pageSize)
    (hborder : (a.req i).prefixLen + (a.req i).numPart1 a.pageSize =
      numPages a.pageSize (a.req i).prefixLen * a.pageSize) (hnum2 : (a.req i).numPart2 a.pageSize =
      ((a.req i).seqLen / a.pageSize - numPages a.pageSize (a.req i).prefixLen) * a.pageSize)
    (hnew : (a.req i).numNewPages a.pageSize =
      (a.req i).seqLen / a.pageSize - numPages a.pageSize (a.req i).prefixLen + 1) :
    fill (fill out base ((a.req i).numPart1 a.pageSize + (a.req i).numPart2 a.pageSize)
    (a.slotFrom lastLoc i))
      (base + ((a.req i).numPart1 a.pageSize + (a.req i).numPart2 a.pageSize))
      ((a.req i).numPart3 a.pageSize)
      (fun j => (a.freePage (a.before (·.numNewPages a.pageSize) i +
        (a.req i).numNewPages a.pageSize - 1) * a.pageSize + j : Nat)) =
    fill out base ((a.req i).numPart1 a.pageSize + (a.req i).numPart2 a.pageSize +
      (a.req i).numPart3 a.pageSize) (a.slotFrom lastLoc i) :=
  fill_append (fun _ _ => rfl) fun _ hj => slot_part3 hps hj hlt hborder hnum2 hnew

/-- Part 2 as a task writes it, with the pages in local memory behind the slots. -/
theorem fill_pages {m : Nat → Int} {base freePages start n : Nat}
    (hfree : ∀ k, k < n → m (freePages + (start + k)) = a.freePage (start + k))
    (hroom : base + n * a.pageSize ≤ freePages) :
    (List.range n).foldl (fun (m : Nat → Int) page => fill m (base + page * a.pageSize) a.pageSize
        fun i => m (freePages + (start + page)) * a.pageSize + i) m =
      fill m base (n * a.pageSize) fun j =>
        (a.freePage (start + j / a.pageSize) * a.pageSize + j % a.pageSize : Nat) := by
  rw [fill_rows_read hps m base n fun m page i => m (freePages + (start + page)) * a.pageSize + i]
  · refine fill_congr fun j hj => ?_
    rw [hfree _ ((Nat.div_lt_iff_lt_mul hps).mpr hj)]
    push_cast
    rfl
  · intro m' hm' k hk
    funext i
    rw [hm' _ (by omega)]

variable (hi : i < a.reqs.length) (hle : (a.req i).prefixLen ≤ (a.req i).seqLen)

include hi hle

/-- A Triton program writes the slots of its request. -/
theorem tritonProgram_eq {bsUpper blockSize : Nat} {blocks : Nat → Nat} (out : Nat → Int)
    (hbs : a.reqs.length ≤ bsUpper) (hblocks : (a.req i).numPart2 a.pageSize ≤
      blocks ((a.req i).numPart2 a.pageSize) * blockSize) :
    a.tritonProgram bsUpper blocks blockSize out i = a.writeReq out i := by
  have hstart : a.laneSum bsUpper i (·.extendLen) - (a.req i).extendLen =
      a.before (·.extendLen) i := by
    rw [laneSum_eq rfl hi hbs, before_succ hi, Nat.add_sub_cancel]
  have hpages : a.laneSum bsUpper i (·.numNewPages a.pageSize) - (a.req i).numNewPages a.pageSize =
      a.before (·.numNewPages a.pageSize) i := by
    rw [laneSum_eq (by simp [ExtendReq.numNewPages]) hi hbs, before_succ hi, Nat.add_sub_cancel]
  have hpart1 := (a.req i).numPart1_le hps
  unfold tritonProgram
  simp only [hstart, hpages, maskedStore_eq, blockedStore_eq, Nat.min_eq_right hpart1,
    Nat.min_eq_right hblocks]
  rw [writeReq, writeFrom]
  cases ExtendReq.parts hps hle with
  | old stop len =>
      rw [if_pos stop, len]
      exact fill_congr fun j hj => (slot_part1 hj).symm
  | full more border num2 stop len new =>
      rw [if_neg more, if_pos stop, len]
      exact fill_part2 hps _ _ border
  | rest more border num2 more' border' len pos lt new =>
      rw [if_neg more, if_neg more', len, Nat.min_eq_right (Nat.le_of_lt lt),
        fill_part2 hps _ _ border, Nat.add_assoc]
      exact fill_part3 hps _ _ lt border num2 new

/-- The slots of a task whose new pages are in local memory. The number of new pages is stored by
the last task, if that has a part 3. -/
theorem computeSlots_eq {outIndices freePages : Nat} {ub : Nat → Int} (values : Int)
    (hroom : outIndices + (a.req i).extendLen ≤ freePages)
    (hfree : ∀ k, k < a.before (·.numNewPages a.pageSize) (i + 1) →
      ub (freePages + k) = a.freePage k) :
    a.computeSlots i outIndices freePages (a.before (·.numNewPages a.pageSize) (i + 1)) (a.req i) ub
        values =
      (fill ub outIndices (a.req i).extendLen (a.slotFrom (ub (a.totalSizeAligned * 2 + i)) i),
        if i = a.reqs.length - 1 ∧ (a.req i).EndsInside a.pageSize then (a.getNumNewPages : Int)
        else values) := by
  have hends := ExtendReq.endsInside_iff hps hle
  have hsucc := before_succ (f := (·.numNewPages a.pageSize)) hi
  have hsum : i = a.reqs.length - 1 →
      a.before (·.numNewPages a.pageSize) (i + 1) = a.getNumNewPages := by
    intro hlast
    rw [show i + 1 = a.reqs.length by omega]
    exact before_length
  have hstart : a.before (·.numNewPages a.pageSize) (i + 1) - (a.req i).numNewPages a.pageSize =
      a.before (·.numNewPages a.pageSize) i := Nat.sub_eq_of_eq_add hsucc
  -- the slots are stored in front of the pages
  have hkept : ∀ n f k, n ≤ (a.req i).extendLen → k < (a.req i).numNewPages a.pageSize →
      fill ub outIndices n f (freePages + (a.before (·.numNewPages a.pageSize) i + k)) =
        a.freePage (a.before (·.numNewPages a.pageSize) i + k) := by
    intro n f k hn hk
    rw [fill_outside (by omega)]
    exact hfree _ (by omega)
  unfold computeSlots
  simp only [hstart]
  generalize ub (a.totalSizeAligned * 2 + i) = lastLoc
  cases ExtendReq.parts hps hle with
  | old stop len =>
      rw [if_pos stop, if_neg fun hc => (hends.mp hc.2).1 stop, len,
        fill_congr fun j hj => (slot_part1 hj).symm]
  | full more border num2 stop len new =>
      have hfull : (a.req i).numPart2 a.pageSize / a.pageSize * a.pageSize =
          (a.req i).numPart2 a.pageSize := by
        rw [num2, Nat.mul_div_cancel _ hps]
      have hquot : (a.req i).numPart2 a.pageSize / a.pageSize =
          (a.req i).numNewPages a.pageSize := by
        rw [num2, Nat.mul_div_cancel _ hps, new]
      rw [if_neg more, if_pos stop, fill_pages hps
        (fun k hk => hkept _ _ k (by omega) (by omega)) (by omega), hfull,
        ite_fill _ _ _ _ (by omega), fill_part2 hps ub outIndices border, len,
        if_neg fun hc => (hends.mp hc.2).2 stop]
  | rest more border num2 more' border' len pos lt new =>
      have hfull : (a.req i).numPart2 a.pageSize / a.pageSize * a.pageSize =
          (a.req i).numPart2 a.pageSize := by
        rw [num2, Nat.mul_div_cancel _ hps]
      have hquot : (a.req i).numPart2 a.pageSize / a.pageSize <
          (a.req i).numNewPages a.pageSize := by
        rw [num2, Nat.mul_div_cancel _ hps, new]
        exact Nat.lt_succ_self _
      have hlast : a.before (·.numNewPages a.pageSize) i + (a.req i).numNewPages a.pageSize - 1 =
          a.before (·.numNewPages a.pageSize) i + ((a.req i).numNewPages a.pageSize - 1) := by
        omega
      rw [if_neg more, if_neg more', fill_pages hps
        (fun k hk => hkept _ _ k (by omega) (by omega)) (by omega), hfull,
        ite_fill _ _ _ _ (by omega), fill_part2 hps ub outIndices border, hlast,
        hkept _ _ _ (by omega) (by omega), len, ← fill_part3 hps ub outIndices lt border num2 new,
        hlast]
      refine Prod.ext ?_ ?_
      · exact fill_congr fun j _ => by push_cast; rfl
      · by_cases hi' : i = a.reqs.length - 1
        · rw [if_pos hi', if_pos ⟨hi', hends.mpr ⟨more, more'⟩⟩, hsum hi']
        · rw [if_neg hi', if_neg fun hc => hi' hc.1]

theorem naiveRound_eq (out : Nat → Int) (hfree : a.getNumNewPages ≤ a.freePages.length) :
    a.naiveRound out i = a.writeReq out i := by
  have hpages : a.cumsum (·.numNewPages a.pageSize) i =
      a.before (·.numNewPages a.pageSize) i + (a.req i).numNewPages a.pageSize := before_succ hi
  have hend : a.cumsum (·.extendLen) i = a.before (·.extendLen) i + (a.req i).extendLen :=
    before_succ hi
  have hbound : a.before (·.numNewPages a.pageSize) (i + 1) ≤ a.getNumNewPages :=
    Nat.le_trans (before_mono hi) before_length.le
  rw [before_succ hi] at hbound
  -- part 2 is on the pages from the first new page of the request on
  have hslots : ∀ (m : Nat → Int) base n, n ≤ (a.req i).numNewPages a.pageSize →
      fill m base (n * a.pageSize) (fun j => ((((a.freePages.take
        (a.before (·.numNewPages a.pageSize) i + (a.req i).numNewPages a.pageSize -
          ((a.req i).numNewPages a.pageSize - n))).drop
            (a.before (·.numNewPages a.pageSize) i)).flatMap (pageSlots a.pageSize)).getD j 0 :
              Int)) =
      fill m base (n * a.pageSize) fun j =>
        (a.freePage (a.before (·.numNewPages a.pageSize) i + j / a.pageSize) * a.pageSize +
          j % a.pageSize : Nat) := by
    intro m base n hn
    refine fill_congr fun j hj => ?_
    have hwin : a.before (·.numNewPages a.pageSize) i + (a.req i).numNewPages a.pageSize -
        ((a.req i).numNewPages a.pageSize - n) = a.before (·.numNewPages a.pageSize) i + n := by
      omega
    rw [hwin, Laid.getD_flatMap_window (by omega) hj]
    rfl
  unfold naiveRound
  simp only [cumsum_sub hi, ite_fill _ _ _ _ (Decidable.not_not.mp)]
  rw [writeReq, writeFrom, hpages, hend]
  cases ExtendReq.parts hps hle with
  | old stop len =>
      rw [if_pos stop, len]
      exact fill_congr fun j hj => (slot_part1 hj).symm
  | full more border num2 stop len new =>
      rw [if_neg more, hslots _ _ _ new.ge, ← num2, if_pos stop, len]
      exact fill_part2 hps _ _ border
  | rest more border num2 more' border' len pos lt new =>
      have hstart : a.before (·.extendLen) i + (a.req i).extendLen - (a.req i).numPart3 a.pageSize =
          a.before (·.extendLen) i +
            ((a.req i).numPart1 a.pageSize + (a.req i).numPart2 a.pageSize) := by
        omega
      rw [if_neg more, hslots _ _ _ (by omega), ← num2, if_neg more', hstart, len,
        fill_part2 hps _ _ border]
      exact fill_part3 hps _ _ lt border num2 new

end Rounds

end ExtendArgs

end SpecDecode.MemCache
