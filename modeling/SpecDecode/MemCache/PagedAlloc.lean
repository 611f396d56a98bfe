import SpecDecode.MemCache.AllocExtendSpec
import SpecDecode.MemCache.Allocator
import Mathlib.Algebra.Order.BigOperators.Group.List
import Mathlib.Algebra.Order.Ring.Canonical
import Mathlib.Algebra.Order.Monoid.Canonical.Defs
import Mathlib.Algebra.Order.Group.Nat

/-!
# Allocation for a batch

`PagedTokenToKVPoolAllocator` and its NPU subclass allocate for a whole batch: a call
extends each request to `seq_len` tokens, or by one token. The generic class runs its kernel
before it checks that there are enough pages, so the kernel may read behind the free list.
What it reads there is dropped, if it can be read at all.

The assertions of the debug mode and the width of the returned integers are left out, and
`num_new_pages` is not given by the caller.
-/

namespace SpecDecode.MemCache

open Function Buffer

/-- What a launch finds in memory: what the output buffer holds, and which places behind the
free list can be read. -/
structure LaunchMem where
  out : Nat → Int
  mapped : Nat → Bool

/-- Zeros, and memory that can be read everywhere. -/
def LaunchMem.zero : LaunchMem := ⟨fun _ => 0, fun _ => true⟩

inductive AllocResult where
  | faulted
  | raised
  | refused
  | slots (out : List Int)
deriving DecidableEq, Repr

namespace ExtendArgs

variable (a : ExtendArgs)

def decodeProgram (out : Nat → Int) (pid : Nat) : Nat → Int :=
  let ps := a.pageSize
  let numNewPages (r : ExtendReq) := numPages ps r.seqLen - numPages ps (r.seqLen - 1)
  let r := a.req pid
  let numPageStartLocSelf := numNewPages r
  let newPageStartLoc :=
    a.laneSum (nextPowerOf2 a.reqs.length) pid numNewPages - numPageStartLocSelf
  if numPageStartLocSelf = 0 then update out pid (r.lastLoc + 1)
  else update out pid ((a.freePage newPageStartLoc * ps : Nat) : Int)

def allocDecodeKernel (out : Nat → Int) : Nat → Int :=
  (List.range a.reqs.length).foldl a.decodeProgram out

/-- The places of the free list that program `pid` of `alloc_extend_kernel` loads. -/
def extendLoads (pid : Nat) : List Nat :=
  let ps := a.pageSize
  let r := a.req pid
  let numPageStartLocSelf := r.numNewPages ps
  let newPageStartLoc :=
    a.laneSum (nextPowerOf2 a.reqs.length) pid (·.numNewPages ps) - numPageStartLocSelf
  if r.prefixLen + r.numPart1 ps = r.seqLen then []
  else
    let part2 := (List.range (r.numPart2 ps)).map fun offset => newPageStartLoc + offset / ps
    if r.prefixLen + r.numPart1 ps + r.numPart2 ps = r.seqLen then part2
    else part2 ++ [newPageStartLoc + numPageStartLocSelf - 1]

/-- The place of the free list that program `pid` of `alloc_decode_kernel` loads. -/
def decodeLoads (pid : Nat) : List Nat :=
  let ps := a.pageSize
  let numNewPages (r : ExtendReq) := numPages ps r.seqLen - numPages ps (r.seqLen - 1)
  let numPageStartLocSelf := numNewPages (a.req pid)
  let newPageStartLoc :=
    a.laneSum (nextPowerOf2 a.reqs.length) pid numNewPages - numPageStartLocSelf
  if numPageStartLocSelf = 0 then [] else [newPageStartLoc]

/-- Some program of a launch reads where nothing is: an empty tensor is a null pointer, and the
memory behind another one need not be mapped. -/
def faults (mapped : Nat → Bool) (loads : Nat → List Nat) : Bool :=
  (List.range a.reqs.length).any fun pid => (loads pid).any fun k =>
    decide (a.freePages.length ≤ k) &&
      (a.freePages.isEmpty || !mapped (k - a.freePages.length))

def needNewPage (r : ExtendReq) : Nat := if r.seqLen % a.pageSize = 1 then 1 else 0

def getNumNewPagesDecode : Nat := (a.reqs.map a.needNewPage).sum

def startNewPages (i : Nat) : Nat := a.cumsum a.needNewPage i - a.needNewPage (a.req i)

end ExtendArgs

namespace Allocator

/-- A batch and the free list. -/
def args (reqs : List ExtendReq) (a : Allocator) : ExtendArgs := ⟨a.pageSize, reqs, a.freePages⟩

/-- The end of an allocation: `None` if there are too few free pages, else they are cut off. -/
def giveOut (numNewPages : Nat) (out : List Int) (a : Allocator) : AllocResult × Allocator :=
  if a.freePages.length < numNewPages then (.refused, a)
  else (.slots out, { a with freePages := a.freePages.drop numNewPages })

def allocExtendBatch (mem : LaunchMem) (reqs : List ExtendReq) (a : Allocator) :
    AllocResult × Allocator :=
  let extendNumTokens := (reqs.map (·.extendLen)).sum
  let a := a.makeRoom (extendNumTokens / a.pageSize + reqs.length + 1)
  if (a.args reqs).faults mem.mapped (a.args reqs).extendLoads then (.faulted, a)
  else
    a.giveOut (a.args reqs).getNumNewPages
      ((List.range extendNumTokens).map ((a.args reqs).allocExtendKernel mem.out))

def allocDecodeBatch (mem : LaunchMem) (reqs : List ExtendReq) (a : Allocator) :
    AllocResult × Allocator :=
  let a := a.makeRoom reqs.length
  if (a.args reqs).faults mem.mapped (a.args reqs).decodeLoads then (.faulted, a)
  else
    a.giveOut (a.args reqs).getNumNewPagesDecode
      ((List.range reqs.length).map ((a.args reqs).allocDecodeKernel mem.out))

def npuAllocExtendBatch (mem : LaunchMem) (reqs : List ExtendReq) (a : Allocator) :
    AllocResult × Allocator :=
  let extendNumTokens := (reqs.map (·.extendLen)).sum
  let numNewPages := (a.args reqs).getNumNewPages
  let a := a.makeRoom numNewPages
  let args := a.args reqs
  a.giveOut numNewPages ((List.range extendNumTokens).map
    (if numNewPages < 200 then args.npuAllocExtendKernel mem.out
      else args.allocExtendNaive mem.out))

/-- `NPUPagedTokenToKVPoolAllocator.alloc_decode`. The free list is indexed at
`start_new_pages` for every request. -/
def npuAllocDecodeBatch (reqs : List ExtendReq) (a : Allocator) : AllocResult × Allocator :=
  let numNewPages := (a.args reqs).getNumNewPagesDecode
  let a := if a.freePages.length < numNewPages then a.mergeAndSortFree else a
  let args := a.args reqs
  if a.freePages.length < numNewPages then (.refused, a)
  else if numNewPages = 0 then a.giveOut numNewPages (reqs.map fun r => r.lastLoc + 1)
  else if ∀ i ∈ List.range reqs.length, args.startNewPages i < a.freePages.length then
    a.giveOut numNewPages ((List.range reqs.length).map fun i =>
      ((args.req i).lastLoc + 1) * (1 - args.needNewPage (args.req i)) +
        args.freePage (args.startNewPages i) * a.pageSize * args.needNewPage (args.req i))
  else (.raised, a)

/-- The allocations for a batch. -/
inductive BatchOp where
  | extend
  | decode
  | npuExtend
  | npuDecode
deriving DecidableEq, Repr

namespace BatchOp

def run (mem : LaunchMem) (reqs : List ExtendReq) (a : Allocator) :
    BatchOp → AllocResult × Allocator
  | extend => a.allocExtendBatch mem reqs
  | decode => a.allocDecodeBatch mem reqs
  | npuExtend => a.npuAllocExtendBatch mem reqs
  | npuDecode => a.npuAllocDecodeBatch reqs

/-- The lengths that the allocation is called with. -/
def Fits (reqs : List ExtendReq) : BatchOp → Prop
  | decode | npuDecode => ∀ r ∈ reqs, r.seqLen = r.prefixLen + 1
  | _ => True

end BatchOp

/-- The new pages that a batch needs. -/
def newPages (a : Allocator) (reqs : List ExtendReq) : Nat :=
  (reqs.map fun r => numPages a.pageSize r.seqLen - numPages a.pageSize r.prefixLen).sum

/-- A batch that an allocator is called with: the last slot of a prefix is where its last
token is, and a page that is used in part belongs to one request. -/
structure Admits (a : Allocator) (reqs : List ExtendReq) : Prop where
  pageSize_pos : 0 < a.pageSize
  nodup : a.pages.Nodup
  le : ∀ r ∈ reqs, r.prefixLen ≤ r.seqLen
  lastLoc : ∀ r ∈ reqs, 0 < r.prefixLen → ∃ page : Nat,
    r.lastLoc = (page * a.pageSize + (r.prefixLen - 1) % a.pageSize : Nat)
  tail_inj : ∀ i, i < reqs.length → ∀ i', i' < reqs.length →
    ((a.args reqs).req i).prefixLen % a.pageSize ≠ 0 →
    ((a.args reqs).req i').prefixLen % a.pageSize ≠ 0 →
    ((a.args reqs).req i).lastLoc / a.pageSize = ((a.args reqs).req i').lastLoc / a.pageSize →
    i = i'
  tail_used : ∀ r ∈ reqs, r.prefixLen % a.pageSize ≠ 0 → ∀ page ∈ a.pages,
    r.lastLoc / a.pageSize ≠ page

/-- What is expected of an allocation: it fails only if there are too few pages, and then
nothing is taken; else exactly the returned pages are. -/
structure AllOrNothing (a : Allocator) (reqs : List ExtendReq) (r : AllocResult × Allocator) :
    Prop where
  notFaulted : r.1 ≠ .faulted
  notRaised : r.1 ≠ .raised
  refused_iff : r.1 = .refused ↔
    a.freePages.length + a.releasePages.length < a.newPages reqs
  unchanged : r.1 = .refused → r.2.pages = a.pages
  taken : ∀ out, r.1 = .slots out → ∃ taken : List Nat, taken.length = a.newPages reqs ∧
    a.pages = taken + r.2.pages ∧
    (∀ p, p ∈ taken ↔ p ∈ a.pages ∧ ∃ slot ∈ out, slot / a.pageSize = (p : Int)) ∧
    a.availableSize = r.2.availableSize + a.newPages reqs * a.pageSize

section GiveOut

variable {a a' : Allocator} {reqs : List ExtendReq} {out : List Int} {i : Nat}

@[simp] theorem args_pageSize : (a.args reqs).pageSize = a.pageSize := rfl

theorem req_mem (hi : i < reqs.length) : (a.args reqs).req i ∈ reqs := by
  rw [ExtendArgs.req, args, List.getD_eq_getElem _ _ hi]
  exact List.getElem_mem hi

theorem newPages_congr (hps : a'.pageSize = a.pageSize) : a'.newPages reqs = a.newPages reqs := by
  rw [newPages, newPages, hps]

theorem card_pages (a : Allocator) :
    Multiset.card a.pages = a.freePages.length + a.releasePages.length := by
  rw [pages, Multiset.coe_card, List.length_append]

theorem mem_pages_of_free {p : Nat} (hp : p ∈ a.freePages) : p ∈ a.pages :=
  Multiset.mem_coe.mpr (List.mem_append_left _ hp)

theorem Admits.congr (h : a.Admits reqs) (hps : a'.pageSize = a.pageSize)
    (hpages : a'.pages = a.pages) : a'.Admits reqs where
  pageSize_pos := hps ▸ h.pageSize_pos
  nodup := hpages ▸ h.nodup
  le := h.le
  lastLoc := hps ▸ h.lastLoc
  tail_inj := hps ▸ h.tail_inj
  tail_used := by
    rw [hps, hpages]
    exact h.tail_used

theorem Admits.valid (h : a.Admits reqs) (henough : a.newPages reqs ≤ a.freePages.length) :
    (a.args reqs).Valid where
  pageSize_pos := h.pageSize_pos
  le _ hi := h.le _ (req_mem hi)
  enough := henough
  free_nodup := (List.nodup_append.mp (Multiset.coe_nodup.mp h.nodup)).1
  lastLoc _ hi := h.lastLoc _ (req_mem hi)
  tail_inj := h.tail_inj
  tail_used _ hi hmod page hpage := h.tail_used _ (req_mem hi) hmod page (mem_pages_of_free hpage)

def Enumerates (b : ExtendArgs) (out : List Int) : Prop :=
  ∀ slot, slot ∈ out ↔ ∃ i j, i < b.reqs.length ∧ j < (b.req i).extendLen ∧ b.slot i j = slot

/-- The pages that are cut off are the free pages among those of the slots. -/
theorem Admits.mem_taken_iff (h : a.Admits reqs) (henough : a.newPages reqs ≤ a.freePages.length)
    (hout : Enumerates (a.args reqs) out) (p : Nat) :
    p ∈ a.freePages.take (a.newPages reqs) ↔
      p ∈ a.pages ∧ ∃ slot ∈ out, slot / a.pageSize = (p : Int) := by
  have hv := h.valid henough
  constructor
  · intro hp
    obtain ⟨i, j, hi, hj, -, hpage⟩ := (ExtendArgs.mem_take_iff hv p).mp hp
    refine ⟨mem_pages_of_free (List.mem_of_mem_take hp), (a.args reqs).slot i j,
      (hout _).mpr ⟨i, j, hi, hj, rfl⟩, ?_⟩
    exact (ExtendArgs.slot_div_mod hv hi j).1.trans hpage
  · rintro ⟨hp, slot, hslot, hdiv⟩
    obtain ⟨i, j, hi, hj, rfl⟩ := (hout _).mp hslot
    have hpage := (ExtendArgs.slot_div_mod hv hi j).1.symm.trans hdiv
    rcases ExtendArgs.page_cases hv hi hj with ⟨hmod, hlast, -⟩ | ⟨k, -, hidx, hfree, -⟩
    · exact absurd (hlast.symm.trans hpage) (h.tail_used _ (req_mem hi) hmod p hp)
    · rw [hfree, Int.ofNat_inj] at hpage
      rw [← hpage, ExtendArgs.freePage,
        List.getD_eq_getElem _ _ (Nat.lt_of_lt_of_le hidx hv.enough), List.mem_take_iff_getElem]
      exact ⟨_, Nat.lt_min.mpr ⟨hidx, Nat.lt_of_lt_of_le hidx hv.enough⟩, rfl⟩

theorem giveOut_pages {numNewPages : Nat} (out : List Int) (h : numNewPages ≤ a.freePages.length) :
    a.giveOut numNewPages out =
      (.slots out, { a with freePages := a.freePages.drop numNewPages }) ∧
    a.pages = (a.freePages.take numNewPages : Multiset Nat) +
      { a with freePages := a.freePages.drop numNewPages }.pages := by
  refine ⟨if_neg (Nat.not_lt.mpr h), ?_⟩
  simp only [pages, Multiset.coe_add, ← List.append_assoc, List.take_append_drop]

/-- Behind a merge, giving out what is needed is right if it fits or is too much anyway. -/
theorem Admits.giveOut_iff (h : a.Admits reqs) (hps : a'.pageSize = a.pageSize)
    (hpages : a'.pages = a.pages)
    (hout : a.newPages reqs ≤ a'.freePages.length → Enumerates (a'.args reqs) out) :
    a.AllOrNothing reqs (a'.giveOut (a.newPages reqs) out) ↔
      a.newPages reqs ≤ a'.freePages.length ∨
        a.freePages.length + a.releasePages.length < a.newPages reqs := by
  have hcard := card_pages a
  rw [← hpages, card_pages] at hcard
  by_cases henough : a.newPages reqs ≤ a'.freePages.length
  · refine iff_of_true ?_ (.inl henough)
    obtain ⟨hgive, hsplit⟩ := giveOut_pages out henough
    have h' := h.congr hps hpages
    rw [hgive]
    refine ⟨nofun, nofun, iff_of_false nofun (by omega), nofun, fun _ hslots => ?_⟩
    obtain rfl := AllocResult.slots.inj hslots
    have hmem := h'.mem_taken_iff (by rwa [newPages_congr hps]) (hout henough)
    rw [newPages_congr hps, hps, hpages] at hmem
    refine ⟨_, List.length_take_of_le henough, hpages ▸ hsplit, hmem, ?_⟩
    simp only [availableSize, List.length_drop, hps, ← Nat.add_mul]
    congr 1
    omega
  · have hgive : a'.giveOut (a.newPages reqs) out = (.refused, a') := if_pos (by omega)
    rw [hgive]
    constructor
    · intro hall
      exact .inr (hall.refused_iff.mp rfl)
    · intro hfew
      exact ⟨nofun, nofun, iff_of_true rfl (hfew.resolve_left henough), fun _ => hpages, nofun⟩

end GiveOut

section Kernels

variable {a : Allocator} {reqs : List ExtendReq} {i : Nat} {mem : Nat → Int}

variable {b : ExtendArgs} {loads : Nat → List Nat}

theorem enumerates_extend : Enumerates b
    ((List.range (b.reqs.map (·.extendLen)).sum).map
      ((List.range b.reqs.length).foldl b.writeReq mem)) := by
  intro slot
  rw [← ExtendArgs.before_length, List.mem_map]
  have hrange : ∀ t ∈ List.range b.reqs.length, t < b.reqs.length := fun t => List.mem_range.mp
  constructor
  · rintro ⟨x, hx, rfl⟩
    obtain ⟨i, j, hi, hj, rfl⟩ := ExtendArgs.exists_before (Nat.le_refl _) (List.mem_range.mp hx)
    exact ⟨i, j, hi, hj, (ExtendArgs.foldl_writeReq_mem hrange (List.mem_range.mpr hi) hj mem).symm⟩
  · rintro ⟨i, j, hi, hj, rfl⟩
    refine ⟨b.before (·.extendLen) i + j, List.mem_range.mpr ?_,
      ExtendArgs.foldl_writeReq_mem hrange (List.mem_range.mpr hi) hj mem⟩
    have hmono := ExtendArgs.before_mono (a := b) (f := (·.extendLen)) (Nat.succ_le_of_lt hi)
    rw [Nat.succ_eq_add_one, ExtendArgs.before_succ hi] at hmono
    omega

/-- One more token needs a page if the tokens fill theirs. -/
theorem numPages_succ_sub {ps : Nat} (hps : 0 < ps) (n : Nat) :
    numPages ps (n + 1) - numPages ps n = if n % ps = 0 then 1 else 0 := by
  have hsucc : numPages ps (n + 1) = n / ps + 1 := by
    rw [numPages, show n + 1 + ps - 1 = n + ps by omega, Nat.add_div_right _ hps]
  have hdiv := Nat.div_add_mod n ps
  rw [Nat.mul_comm] at hdiv
  rw [hsucc, numPages_eq hps]
  split <;> split <;> omega

theorem succ_mod_eq_one_iff {ps : Nat} (hps : 2 ≤ ps) (n : Nat) :
    (n + 1) % ps = 1 ↔ n % ps = 0 := by
  have hlt := Nat.mod_lt n (Nat.lt_of_lt_of_le Nat.zero_lt_two hps)
  rw [Nat.add_mod, Nat.mod_eq_of_lt (a := 1) (by omega)]
  by_cases hlast : n % ps + 1 = ps
  · rw [hlast, Nat.mod_self]
    omega
  · rw [Nat.mod_eq_of_lt (by omega)]
    omega

private theorem mem_map_div {ps start num k : Nat} (hps : 0 < ps) :
    k ∈ (List.range (num * ps)).map (fun offset => start + offset / ps) ↔
      start ≤ k ∧ k < start + num := by
  rw [List.mem_map]
  constructor
  · rintro ⟨offset, hoffset, rfl⟩
    have hdiv := (Nat.div_lt_iff_lt_mul hps).mpr (List.mem_range.mp hoffset)
    exact ⟨Nat.le_add_right _ _, Nat.add_lt_add_left hdiv start⟩
  · rintro ⟨hle, hlt⟩
    refine ⟨(k - start) * ps, List.mem_range.mpr ?_, ?_⟩
    · exact (Nat.mul_lt_mul_right hps).mpr (by omega)
    · rw [Nat.mul_div_cancel _ hps]
      omega

/-- A program of `alloc_extend_kernel` loads the places of its new pages. -/
theorem mem_extendLoads (hps : 0 < b.pageSize) (hi : i < b.reqs.length)
    (hle : (b.req i).prefixLen ≤ (b.req i).seqLen) (k : Nat) : k ∈ b.extendLoads i ↔
      b.before (·.numNewPages b.pageSize) i ≤ k ∧
        k < b.before (·.numNewPages b.pageSize) (i + 1) := by
  have hsucc := ExtendArgs.before_succ (f := (·.numNewPages b.pageSize)) hi
  unfold ExtendArgs.extendLoads
  simp only
  rw [ExtendArgs.laneSum_eq (by simp [ExtendReq.numNewPages]) hi (ExtendArgs.le_nextPowerOf2 _),
    hsucc, Nat.add_sub_cancel]
  cases ExtendReq.parts hps hle with
  | old stop =>
      have hborder : (b.req i).seqLen ≤ numPages b.pageSize (b.req i).prefixLen * b.pageSize := by
        have hceil := le_numPages_mul hps (b.req i).prefixLen
        rw [ExtendReq.numPart1] at stop
        omega
      have hpages := numPages_mono hps hborder
      rw [numPages_mul hps] at hpages
      rw [if_pos stop, ExtendReq.numNewPages, Nat.sub_eq_zero_of_le hpages]
      exact iff_of_false List.not_mem_nil (by omega)
  | full more border num2 stop len new =>
      rw [if_neg more, if_pos stop, num2, ← new]
      exact mem_map_div hps
  | rest more border num2 more' border' len pos lt new =>
      rw [if_neg more, if_neg more', num2, List.mem_append, mem_map_div hps, List.mem_singleton]
      omega

/-- The places that the programs load are those of the pages that are needed. -/
theorem exists_loads {f : ExtendReq → Nat}
    (h : ∀ i, i < b.reqs.length → ∀ k, k ∈ loads i ↔ b.before f i ≤ k ∧ k < b.before f (i + 1))
    (k : Nat) : (∃ i, i < b.reqs.length ∧ k ∈ loads i) ↔ k < b.before f b.reqs.length := by
  constructor
  · rintro ⟨i, hi, hk⟩
    exact Nat.lt_of_lt_of_le ((h i hi k).mp hk).2 (ExtendArgs.before_mono hi)
  · intro hk
    obtain ⟨i, j, hi, hj, rfl⟩ := ExtendArgs.exists_before (Nat.le_refl _) hk
    refine ⟨i, hi, (h i hi _).mpr ⟨Nat.le_add_right _ _, ?_⟩⟩
    rw [ExtendArgs.before_succ hi]
    omega

theorem faults_iff {mapped : Nat → Bool} {needed : Nat}
    (h : ∀ k, (∃ i, i < b.reqs.length ∧ k ∈ loads i) ↔ k < needed) :
    b.faults mapped loads = true ↔ ∃ k, k < needed ∧ b.freePages.length ≤ k ∧
      (b.freePages = [] ∨ mapped (k - b.freePages.length) = false) := by
  simp only [ExtendArgs.faults, List.any_eq_true, List.mem_range, Bool.and_eq_true,
    decide_eq_true_eq, Bool.or_eq_true, List.isEmpty_iff, Bool.not_eq_true']
  constructor
  · rintro ⟨i, hi, k, hk, hbehind⟩
    exact ⟨k, (h k).mp ⟨i, hi, hk⟩, hbehind⟩
  · rintro ⟨k, hk, hbehind⟩
    obtain ⟨i, hi, hload⟩ := (h k).mpr hk
    exact ⟨i, hi, k, hload, hbehind⟩

/-- With enough pages nothing is read behind the free list. -/
theorem faults_eq_false {f : ExtendReq → Nat}
    (h : ∀ i, i < b.reqs.length → ∀ k, k ∈ loads i ↔ b.before f i ≤ k ∧ k < b.before f (i + 1))
    (henough : b.before f b.reqs.length ≤ b.freePages.length) (mapped : Nat → Bool) :
    b.faults mapped loads = false := by
  refine Bool.eq_false_iff.mpr fun hfault => ?_
  obtain ⟨k, hk, hbehind, -⟩ := (faults_iff (exists_loads h)).mp hfault
  omega

theorem extend_readable (hps : 0 < a.pageSize) (hle : ∀ r ∈ reqs, r.prefixLen ≤ r.seqLen)
    (henough : a.newPages reqs ≤ a.freePages.length) (mapped : Nat → Bool) :
    (a.args reqs).faults mapped (a.args reqs).extendLoads = false :=
  faults_eq_false (fun _ hi k => mem_extendLoads hps hi (hle _ (req_mem hi)) k)
    (ExtendArgs.before_length.trans_le henough) mapped

variable (hdec : ∀ r ∈ reqs, r.seqLen = r.prefixLen + 1)
include hdec

theorem needNewPage_eq (hps : 2 ≤ a.pageSize) {r : ExtendReq} (hr : r ∈ reqs) :
    (a.args reqs).needNewPage r = r.numNewPages a.pageSize := by
  rw [ExtendArgs.needNewPage, ExtendReq.numNewPages, hdec r hr, numPages_succ_sub (by omega), args]
  simp only [succ_mod_eq_one_iff hps]

omit hdec in
theorem before_congr {f g : ExtendReq → Nat} (h : ∀ r ∈ b.reqs, f r = g r)
    (i : Nat) : b.before f i = b.before g i := by
  rw [ExtendArgs.before, ExtendArgs.before,
    List.map_congr_left fun r hr => h r (List.mem_of_mem_take hr)]

theorem getNumNewPagesDecode_eq (hps : 2 ≤ a.pageSize ∨ reqs = []) :
    (a.args reqs).getNumNewPagesDecode = a.newPages reqs := by
  rw [ExtendArgs.getNumNewPagesDecode, newPages]
  rcases hps with hps | rfl
  · exact congrArg List.sum (List.map_congr_left fun r hr => needNewPage_eq hdec hps hr)
  · rfl

/-- The one slot of a request: behind its last one, or the first of its new page. -/
theorem slot_decode (hps : 0 < a.pageSize) (hi : i < reqs.length) : (a.args reqs).slot i 0 =
    if ((a.args reqs).req i).numNewPages a.pageSize = 0 then ((a.args reqs).req i).lastLoc + 1
    else (((a.args reqs).freePage ((a.args reqs).before (·.numNewPages a.pageSize) i) *
      a.pageSize : Nat) : Int) := by
  have hseq := hdec _ (req_mem (a := a) hi)
  have hnew := numPages_succ_sub hps ((a.args reqs).req i).prefixLen
  have hpages := numPages_eq hps ((a.args reqs).req i).prefixLen
  have hdiv := Nat.div_add_mod ((a.args reqs).req i).prefixLen a.pageSize
  rw [Nat.mul_comm] at hdiv
  rw [ExtendReq.numNewPages, hseq, hnew]
  unfold ExtendArgs.slot ExtendArgs.slotFrom
  simp only [Int.natCast_zero, add_zero]
  change (if _ < numPages a.pageSize _ * a.pageSize then _ else _) = _
  by_cases hfull : ((a.args reqs).req i).prefixLen % a.pageSize = 0
  · rw [if_pos (by omega)] at hpages
    rw [hpages, if_neg (by omega), if_pos hfull, if_neg one_ne_zero]
    change (((a.args reqs).freePage (_ + (_ / a.pageSize - numPages a.pageSize _)) * a.pageSize +
      _ % a.pageSize : Nat) : Int) = _
    rw [hpages, Nat.sub_self, Nat.add_zero, hfull, Nat.add_zero]
    rfl
  · rw [if_neg (by omega)] at hpages
    have hlt := Nat.mod_lt ((a.args reqs).req i).prefixLen hps
    rw [hpages, if_pos (by rw [Nat.add_mul, Nat.one_mul]; omega), if_neg hfull, if_pos rfl]

theorem numNewPages_decode : ∀ r ∈ (a.args reqs).reqs,
    numPages (a.args reqs).pageSize r.seqLen - numPages (a.args reqs).pageSize (r.seqLen - 1) =
      r.numNewPages a.pageSize := fun r hr => by
  rw [hdec r hr, Nat.add_sub_cancel, ExtendReq.numNewPages, hdec r hr]
  rfl

theorem allocDecodeKernel_eq (hps : 0 < a.pageSize) : (a.args reqs).allocDecodeKernel mem =
    fill mem 0 reqs.length fun i => (a.args reqs).slot i 0 := by
  refine List.foldl_ext _ _ _ fun m i hi => ?_
  have hi : i < (a.args reqs).reqs.length := List.mem_range.mp hi
  have hsame := numNewPages_decode (a := a) hdec
  have hself := hsame ((a.args reqs).req i) (req_mem hi)
  rw [Nat.zero_add]
  change _ = update m i ((a.args reqs).slot i 0)
  rw [slot_decode hdec hps hi]
  unfold ExtendArgs.decodeProgram
  simp only
  rw [ExtendArgs.laneSum_eq (by simp) hi (ExtendArgs.le_nextPowerOf2 _), before_congr hsame,
    ExtendArgs.before_succ hi, hself, Nat.add_sub_cancel]
  split
  · rfl
  · rfl

/-- A program of `alloc_decode_kernel` loads the place of its new page. -/
theorem mem_decodeLoads (hps : 0 < a.pageSize) (hi : i < reqs.length) (k : Nat) :
    k ∈ (a.args reqs).decodeLoads i ↔
    (a.args reqs).before (·.numNewPages a.pageSize) i ≤ k ∧
      k < (a.args reqs).before (·.numNewPages a.pageSize) (i + 1) := by
  have hi' : i < (a.args reqs).reqs.length := hi
  have hsame := numNewPages_decode (a := a) hdec
  have hself := hsame ((a.args reqs).req i) (req_mem hi)
  rw [ExtendArgs.before_succ hi']
  unfold ExtendArgs.decodeLoads
  simp only
  rw [ExtendArgs.laneSum_eq (by simp) hi' (ExtendArgs.le_nextPowerOf2 _),
    before_congr (g := (·.numNewPages a.pageSize)) hsame, ExtendArgs.before_succ hi', hself,
    Nat.add_sub_cancel]
  have hle : ((a.args reqs).req i).numNewPages a.pageSize ≤ 1 := by
    rw [ExtendReq.numNewPages, hdec _ (req_mem hi), numPages_succ_sub hps]
    split <;> omega
  split
  · exact iff_of_false List.not_mem_nil (by omega)
  · rw [List.mem_singleton]
    omega

theorem decode_readable (hps : 0 < a.pageSize) (henough : a.newPages reqs ≤ a.freePages.length)
    (mapped : Nat → Bool) : (a.args reqs).faults mapped (a.args reqs).decodeLoads = false :=
  faults_eq_false (fun _ hi k => mem_decodeLoads hdec hps hi k)
    (ExtendArgs.before_length.trans_le henough) mapped

theorem enumerates_decode : Enumerates (a.args reqs)
    ((List.range reqs.length).map fun i => (a.args reqs).slot i 0) := by
  have hlen : ∀ i, i < reqs.length → ((a.args reqs).req i).extendLen = 1 := fun i hi => by
    rw [ExtendReq.extendLen, hdec _ (req_mem hi), Nat.add_sub_cancel_left]
  intro slot
  rw [List.mem_map]
  constructor
  · rintro ⟨i, hi, rfl⟩
    have hi := List.mem_range.mp hi
    exact ⟨i, 0, hi, by rw [hlen i hi]; exact Nat.one_pos, rfl⟩
  · rintro ⟨i, j, hi, hj, rfl⟩
    rw [hlen i hi, Nat.lt_one_iff] at hj
    exact ⟨i, List.mem_range.mpr hi, by rw [hj]⟩

theorem allocDecodeKernel_slots (hps : 0 < a.pageSize) :
    (List.range reqs.length).map ((a.args reqs).allocDecodeKernel mem) =
      (List.range reqs.length).map fun i => (a.args reqs).slot i 0 := by
  refine List.map_congr_left fun i hi => ?_
  have hin : fill mem 0 reqs.length (fun i => (a.args reqs).slot i 0) (0 + i) =
      (a.args reqs).slot i 0 := fill_inside (List.mem_range.mp hi)
  rw [Nat.zero_add] at hin
  rw [allocDecodeKernel_eq hdec hps, hin]

end Kernels

section Works

/-- No page that is needed stays behind in the release list. -/
def Reaches (a : Allocator) (reqs : List ExtendReq) : Prop :=
  a.needSort = true ∨ a.newPages reqs ≤ a.freePages.length ∨
    a.freePages.length + a.releasePages.length < a.newPages reqs

/-- The free list that a batch of the NPU is given has no page too many, and the last request
of the batch does not need one. -/
def ReadsBehind (a : Allocator) (reqs : List ExtendReq) : Prop :=
  0 < a.newPages reqs ∧
    (if a.freePages.length < a.newPages reqs then a.freePages.length + a.releasePages.length
      else a.freePages.length) = a.newPages reqs ∧
    ∃ r, reqs.getLast? = some r ∧ r.seqLen % a.pageSize ≠ 1

/-- When too few pages are left, the free list is not empty and the memory behind it can be read
as far as there are pages missing. -/
def CanRefuse (mapped : Nat → Bool) (a : Allocator) (reqs : List ExtendReq) : Prop :=
  a.freePages.length + a.releasePages.length < a.newPages reqs →
    let num := if a.needSort then a.freePages.length + a.releasePages.length
      else a.freePages.length
    0 < num ∧ ∀ k, k < a.newPages reqs - num → mapped k = true

instance (mapped : Nat → Bool) (a : Allocator) (reqs : List ExtendReq) :
    Decidable (a.CanRefuse mapped reqs) := by
  unfold CanRefuse
  infer_instance

/-- When an allocation is all or nothing. -/
def BatchOp.Works (mem : LaunchMem) (a : Allocator) (reqs : List ExtendReq) : BatchOp → Prop
  | extend => a.Reaches reqs ∧ a.CanRefuse mem.mapped reqs
  | npuExtend => a.Reaches reqs
  | decode => (2 ≤ a.pageSize ∨ reqs = []) ∧ a.Reaches reqs ∧ a.CanRefuse mem.mapped reqs
  | npuDecode => (2 ≤ a.pageSize ∨ reqs = []) ∧ ¬ a.ReadsBehind reqs

variable {a a' : Allocator} {reqs : List ExtendReq} {mem : LaunchMem} {i : Nat}

theorem mergeAndSortFree_spec (a : Allocator) : a.mergeAndSortFree.pageSize = a.pageSize ∧
    a.mergeAndSortFree.pages = a.pages ∧
    a.mergeAndSortFree.freePages.length = a.freePages.length + a.releasePages.length := by
  unfold mergeAndSortFree
  split
  · refine ⟨rfl, ?_, ?_⟩
    · simp only [pages, List.append_nil, Multiset.coe_eq_coe]
      exact List.mergeSort_perm _ _
    · rw [List.length_mergeSort, List.length_append]
  · next hnil =>
      rw [not_not] at hnil
      simp [hnil]

theorem makeRoom_length (needed : Nat) (a : Allocator) : (a.makeRoom needed).freePages.length =
    if a.needSort ∧ a.freePages.length < needed then a.freePages.length + a.releasePages.length
    else a.freePages.length := by
  unfold makeRoom
  split
  · exact (mergeAndSortFree_spec a).2.2
  · rfl

variable {needed : Nat}

/-- An estimate that is not too low makes room for what is needed. -/
theorem makeRoom_reaches (h : a.newPages reqs ≤ needed) :
    (a.newPages reqs ≤ (a.makeRoom needed).freePages.length ∨
      a.freePages.length + a.releasePages.length < a.newPages reqs) ↔ a.Reaches reqs := by
  rw [makeRoom_length, Reaches]
  cases a.needSort with
  | false => simp
  | true =>
      simp only [true_and, true_or, iff_true]
      split <;> omega

theorem numNewPages_le {ps : Nat} (hps : 0 < ps) {r : ExtendReq} (hle : r.prefixLen ≤ r.seqLen) :
    r.numNewPages ps ≤ numPages ps r.extendLen := by
  have hceil := le_numPages_mul hps r.prefixLen
  have hmono : numPages ps r.seqLen ≤
      numPages ps (numPages ps r.prefixLen * ps + r.extendLen) := by
    refine numPages_mono hps ?_
    rw [ExtendReq.extendLen]
    omega
  rw [numPages_mul_add hps] at hmono
  rw [ExtendReq.numNewPages]
  omega

theorem newPages_le (hps : 0 < a.pageSize) (hle : ∀ r ∈ reqs, r.prefixLen ≤ r.seqLen) :
    a.newPages reqs ≤ (reqs.map (·.extendLen)).sum / a.pageSize + reqs.length := by
  have hone : ∀ r ∈ reqs, numPages a.pageSize r.seqLen - numPages a.pageSize r.prefixLen ≤
      r.extendLen / a.pageSize + 1 := fun r hr => by
    have hmono := numNewPages_le hps (hle r hr)
    rw [ExtendReq.numNewPages] at hmono
    have hlast := numPages_eq hps r.extendLen
    split at hlast <;> omega
  rw [newPages]
  clear hle
  induction reqs with
  | nil => simp
  | cons r reqs ih =>
      have hhead := hone r List.mem_cons_self
      have htail := ih fun r' hr' => hone r' (List.mem_cons_of_mem _ hr')
      have hsum := Nat.div_add_div_le_add_div (x := r.extendLen)
        (y := (reqs.map (·.extendLen)).sum) (z := a.pageSize)
      simp only [List.map_cons, List.sum_cons, List.length_cons]
      omega

/-- A batch of one token a request needs at most a page a request. -/
theorem newPages_le_length (hps : 0 < a.pageSize)
    (hdec : ∀ r ∈ reqs, r.seqLen = r.prefixLen + 1) : a.newPages reqs ≤ reqs.length := by
  rw [newPages]
  induction reqs with
  | nil => exact Nat.le_refl 0
  | cons r reqs ih =>
      have htail := ih fun r' hr' => hdec r' (List.mem_cons_of_mem _ hr')
      have hhead := numPages_succ_sub hps r.prefixLen
      rw [← hdec r List.mem_cons_self] at hhead
      simp only [List.map_cons, List.sum_cons, List.length_cons, hhead]
      split <;> omega

private theorem makeRoom_few (hneeded : a.newPages reqs ≤ needed)
    (hfew : a.freePages.length + a.releasePages.length < a.newPages reqs) :
    (a.makeRoom needed).freePages.length =
      if a.needSort then a.freePages.length + a.releasePages.length else a.freePages.length := by
  rw [makeRoom_length]
  exact if_congr (and_iff_left (by omega)) rfl rfl

/-- Where no page that is needed is out of reach, a launch faults if it cannot be refused. -/
theorem Reaches.faults_iff (h : a.Reaches reqs) (hneeded : a.newPages reqs ≤ needed)
    (hroom : a.makeRoom needed = a') {mapped : Nat → Bool} {loads : Nat → List Nat}
    (hloads : ∀ i, i < reqs.length → ∀ k, k ∈ loads i ↔
      (a'.args reqs).before (·.numNewPages a'.pageSize) i ≤ k ∧
        k < (a'.args reqs).before (·.numNewPages a'.pageSize) (i + 1)) :
    (a'.args reqs).faults mapped loads = true ↔ ¬ a.CanRefuse mapped reqs := by
  have hps : a'.pageSize = a.pageSize := hroom ▸ makeRoom_pageSize _ a
  have hreach := (makeRoom_reaches hneeded).mpr h
  have hlen := @makeRoom_few a reqs needed hneeded
  rw [hroom] at hreach hlen
  have hneed : (a'.args reqs).before (·.numNewPages a'.pageSize) (a'.args reqs).reqs.length =
      a.newPages reqs := ExtendArgs.before_length.trans (newPages_congr hps)
  rw [Allocator.faults_iff (exists_loads (b := a'.args reqs) hloads), hneed]
  change (∃ k, k < _ ∧ a'.freePages.length ≤ k ∧
    (a'.freePages = [] ∨ mapped (k - a'.freePages.length) = false)) ↔ _
  constructor
  · rintro ⟨k, hk, hbehind, hbad⟩ hcan
    have hfew := hreach.resolve_left (by omega)
    obtain ⟨hpos, hmapped⟩ := hcan hfew
    rw [← hlen hfew] at hpos hmapped
    rcases hbad with hnil | hbad
    · exact Nat.ne_of_gt hpos (List.length_eq_zero_iff.mpr hnil)
    · have htrue := hmapped (k - a'.freePages.length) (by omega)
      exact Bool.false_ne_true (hbad.symm.trans htrue)
  · intro hcan
    by_contra hno
    refine hcan fun hfew => ?_
    simp only [← hlen hfew]
    refine ⟨Nat.pos_of_ne_zero fun hzero => hno ⟨0, by omega, by omega, .inl ?_⟩, fun k hk => ?_⟩
    · exact List.length_eq_zero_iff.mp hzero
    · by_contra hbad
      refine hno ⟨a'.freePages.length + k, by omega, Nat.le_add_right _ _, .inr ?_⟩
      rwa [Nat.add_sub_cancel_left, ← Bool.not_eq_true]

/-- A launch before the check is right if no page that is needed is out of reach and it can be
refused. -/
theorem Admits.launch_iff (h : a.Admits reqs) (hneeded : a.newPages reqs ≤ needed)
    (hroom : a.makeRoom needed = a') {mapped : Nat → Bool} {loads : Nat → List Nat}
    (hloads : ∀ i, i < reqs.length → ∀ k, k ∈ loads i ↔
      (a'.args reqs).before (·.numNewPages a'.pageSize) i ≤ k ∧
        k < (a'.args reqs).before (·.numNewPages a'.pageSize) (i + 1)) {out : List Int}
    (hout : a.newPages reqs ≤ a'.freePages.length → Enumerates (a'.args reqs) out) :
    a.AllOrNothing reqs (if (a'.args reqs).faults mapped loads then (.faulted, a')
      else a'.giveOut (a.newPages reqs) out) ↔ a.Reaches reqs ∧ a.CanRefuse mapped reqs := by
  have hgive := h.giveOut_iff (hroom ▸ makeRoom_pageSize _ a) (hroom ▸ makeRoom_pages _ a) hout
  rw [← hroom, makeRoom_reaches hneeded, hroom] at hgive
  split
  · next hfault =>
      refine iff_of_false (fun hall => hall.notFaulted rfl) ?_
      rintro ⟨hreach, hcan⟩
      exact (hreach.faults_iff hneeded hroom hloads).mp hfault hcan
  · next hfault =>
      rw [hgive]
      refine (and_iff_left_of_imp fun hreach => ?_).symm
      exact not_not.mp (mt (hreach.faults_iff hneeded hroom hloads).mpr hfault)

theorem Admits.extend_iff (h : a.Admits reqs) :
    a.AllOrNothing reqs (a.allocExtendBatch mem reqs) ↔
      a.Reaches reqs ∧ a.CanRefuse mem.mapped reqs := by
  have hle := newPages_le h.pageSize_pos h.le
  unfold allocExtendBatch
  simp only
  generalize hroom : a.makeRoom _ = a'
  have hps : a'.pageSize = a.pageSize := hroom ▸ makeRoom_pageSize _ a
  have hpages : a'.pages = a.pages := hroom ▸ makeRoom_pages _ a
  have hnum : (a'.args reqs).getNumNewPages = a.newPages reqs := newPages_congr hps
  rw [hnum]
  refine h.launch_iff (Nat.le_succ_of_le hle) hroom
    (fun i hi k => mem_extendLoads (hps ▸ h.pageSize_pos : 0 < a'.pageSize) hi
      (h.le _ (req_mem hi)) k) fun henough => ?_
  rw [← newPages_congr hps] at henough
  rw [ExtendArgs.allocExtendKernel_eq ((h.congr hps hpages).valid henough)]
  exact enumerates_extend (b := a'.args reqs)

theorem Admits.npuExtend_iff (h : a.Admits reqs) :
    a.AllOrNothing reqs (a.npuAllocExtendBatch mem reqs) ↔ a.Reaches reqs := by
  rw [← makeRoom_reaches (Nat.le_refl (a.newPages reqs))]
  unfold npuAllocExtendBatch
  have hnum : (a.args reqs).getNumNewPages = a.newPages reqs := rfl
  simp only [hnum]
  generalize hroom : a.makeRoom _ = a'
  have hps : a'.pageSize = a.pageSize := hroom ▸ makeRoom_pageSize _ a
  have hpages : a'.pages = a.pages := hroom ▸ makeRoom_pages _ a
  refine h.giveOut_iff hps hpages fun henough => ?_
  rw [← newPages_congr hps] at henough
  have hv := (h.congr hps hpages).valid henough
  rw [ExtendArgs.npuAllocExtendKernel_eq hv, ExtendArgs.allocExtendNaive_eq hv, ite_self]
  exact enumerates_extend (b := a'.args reqs)

section Gather

variable (hdec : ∀ r ∈ reqs, r.seqLen = r.prefixLen + 1)
include hdec

theorem npu_slot (hps : 2 ≤ a.pageSize) (hi : i < reqs.length) :
    ((((a.args reqs).req i).lastLoc + 1) * (1 - (a.args reqs).needNewPage ((a.args reqs).req i)) +
      (a.args reqs).freePage ((a.args reqs).startNewPages i) * a.pageSize *
        (a.args reqs).needNewPage ((a.args reqs).req i) : Int) = (a.args reqs).slot i 0 := by
  have hneed := needNewPage_eq (a := a) hdec hps (req_mem (a := a) hi)
  have hstart : (a.args reqs).startNewPages i =
      (a.args reqs).before (·.numNewPages a.pageSize) i := by
    rw [ExtendArgs.startNewPages, ExtendArgs.cumsum_sub hi]
    exact before_congr (fun r hr => needNewPage_eq hdec hps hr) i
  have hnew := numPages_succ_sub (Nat.lt_of_lt_of_le Nat.zero_lt_two hps)
    ((a.args reqs).req i).prefixLen
  rw [← hdec _ (req_mem (a := a) hi)] at hnew
  rw [slot_decode hdec (Nat.lt_of_lt_of_le Nat.zero_lt_two hps) hi, hneed, hstart,
    ExtendReq.numNewPages, hnew]
  by_cases hfull : ((a.args reqs).req i).prefixLen % a.pageSize = 0
  · simp [hfull]
  · simp [hfull]

/-- The gather stays inside the free list unless the last request looks behind its end. -/
theorem startNewPages_lt_iff (hps : 2 ≤ a.pageSize) (hpos : 0 < a.newPages reqs)
    (henough : a.newPages reqs ≤ a.freePages.length) :
    (∀ i ∈ List.range reqs.length, (a.args reqs).startNewPages i < a.freePages.length) ↔
      ¬ (a.freePages.length = a.newPages reqs ∧
        ∃ r, reqs.getLast? = some r ∧ r.seqLen % a.pageSize ≠ 1) := by
  have hne : 0 < reqs.length := by
    rw [List.length_pos_iff]
    rintro rfl
    exact Nat.lt_irrefl 0 hpos
  have hlast : reqs.getLast? = some ((a.args reqs).req (reqs.length - 1)) := by
    rw [List.getLast?_eq_getElem?, ExtendArgs.req, args, List.getD_eq_getElem?_getD,
      List.getElem?_eq_getElem (by omega)]
    rfl
  have hstart : ∀ i, i < reqs.length → (a.args reqs).startNewPages i =
      (a.args reqs).before (a.args reqs).needNewPage i := fun i hi => ExtendArgs.cumsum_sub hi
  have htotal : (a.args reqs).before (a.args reqs).needNewPage reqs.length = a.newPages reqs := by
    rw [← getNumNewPagesDecode_eq hdec (.inl hps)]
    exact ExtendArgs.before_length
  have hsucc := ExtendArgs.before_succ (a := a.args reqs) (f := (a.args reqs).needNewPage)
    (i := reqs.length - 1) (Nat.sub_lt hne Nat.one_pos)
  rw [Nat.sub_add_cancel hne, htotal, ExtendArgs.needNewPage, args_pageSize] at hsucc
  simp only [hlast, Option.some.injEq, exists_eq_left']
  constructor
  · rintro hall ⟨hlen, hno⟩
    have hlt := hall (reqs.length - 1) (List.mem_range.mpr (by omega))
    rw [hstart _ (by omega)] at hlt
    rw [if_neg hno] at hsucc
    omega
  · intro hnot i hi
    have hi := List.mem_range.mp hi
    have hmono := ExtendArgs.before_mono (a := a.args reqs) (f := (a.args reqs).needNewPage)
      (Nat.le_sub_one_of_lt hi)
    rw [hstart i hi]
    by_cases hfew : a.freePages.length = a.newPages reqs
    · have hyes := not_not.mp fun hno => hnot ⟨hfew, hno⟩
      rw [if_pos hyes] at hsucc
      omega
    · omega

/-- Without new pages each request goes on behind its last slot. -/
theorem slots_of_zero (hps : 0 < a.pageSize) (hzero : a.newPages reqs = 0) :
    reqs.map (fun r => r.lastLoc + 1) =
      (List.range reqs.length).map fun i => (a.args reqs).slot i 0 := by
  refine List.ext_getElem (by simp) fun i hi _ => ?_
  rw [List.length_map] at hi
  have hreq : (a.args reqs).req i = reqs[i] := List.getD_eq_getElem _ _ hi
  have hnone : ((a.args reqs).req i).numNewPages a.pageSize = 0 :=
    Nat.le_zero.mp (hzero ▸ List.le_sum_of_mem (List.mem_map.mpr ⟨_, req_mem hi, rfl⟩))
  rw [List.getElem_map, List.getElem_map, List.getElem_range, slot_decode hdec hps hi,
    if_pos hnone, hreq]

omit hdec in
/-- What the NPU works on: released pages are merged in when the free list is too short. -/
theorem merged_spec {needed : Nat} (hmerge : (if a.freePages.length < needed then
    a.mergeAndSortFree else a) = a') : a'.pageSize = a.pageSize ∧ a'.pages = a.pages ∧
      a'.freePages.length = (if a.freePages.length < needed then
        a.freePages.length + a.releasePages.length else a.freePages.length) ∧
      (needed ≤ a.freePages.length → a' = a) := by
  by_cases hfew : a.freePages.length < needed
  · rw [if_pos hfew] at hmerge ⊢
    obtain ⟨hps, hpages, hlen⟩ := mergeAndSortFree_spec a
    rw [hmerge] at hps hpages hlen
    exact ⟨hps, hpages, hlen, fun henough => absurd hfew (Nat.not_lt.mpr henough)⟩
  · rw [if_neg hfew] at hmerge ⊢
    rw [hmerge]
    exact ⟨rfl, rfl, rfl, fun _ => rfl⟩

/-- The NPU refuses, looks behind the free list or gives out the slots. -/
theorem npuDecode_cases (hps : 2 ≤ a.pageSize) : ∃ a', a'.pageSize = a.pageSize ∧
    a'.pages = a.pages ∧ a'.freePages.length = (if a.freePages.length < a.newPages reqs then
      a.freePages.length + a.releasePages.length else a.freePages.length) ∧
    (a.newPages reqs ≤ a.freePages.length → a' = a) ∧
    a.npuAllocDecodeBatch reqs = if a'.freePages.length < a.newPages reqs then (.refused, a')
      else if 0 < a.newPages reqs ∧ a'.freePages.length = a.newPages reqs ∧
          ∃ r, reqs.getLast? = some r ∧ r.seqLen % a.pageSize ≠ 1 then (.raised, a')
      else a'.giveOut (a.newPages reqs)
        ((List.range reqs.length).map fun i => (a'.args reqs).slot i 0) := by
  unfold npuAllocDecodeBatch
  simp only [getNumNewPagesDecode_eq hdec (.inl hps)]
  generalize hmerge : (if a.freePages.length < a.newPages reqs then a.mergeAndSortFree else a) = a'
  obtain ⟨hps', hpages', hlen, hsame⟩ := merged_spec hmerge
  refine ⟨a', hps', hpages', hlen, hsame, ?_⟩
  rw [← hps'] at hps ⊢
  rw [← newPages_congr hps']
  by_cases hfew : a'.freePages.length < a'.newPages reqs
  · rw [if_pos hfew, if_pos hfew]
  have henough := Nat.le_of_not_lt hfew
  rw [if_neg hfew, if_neg hfew]
  by_cases hzero : a'.newPages reqs = 0
  · rw [if_pos hzero, if_neg fun hc => Nat.ne_of_gt hc.1 hzero, slots_of_zero hdec (by omega) hzero]
  · have hpos := Nat.pos_of_ne_zero hzero
    have hslots := List.map_congr_left fun i (hi : i ∈ List.range reqs.length) =>
      npu_slot hdec hps (List.mem_range.mp hi)
    rw [if_neg hzero, hslots]
    by_cases hin : ∀ i ∈ List.range reqs.length,
        (a'.args reqs).startNewPages i < a'.freePages.length
    · rw [if_pos hin, if_neg fun hc => (startNewPages_lt_iff hdec hps hpos henough).mp hin hc.2]
    · have hlast := not_not.mp fun hno =>
        hin ((startNewPages_lt_iff hdec hps hpos henough).mpr hno)
      rw [if_neg hin, if_pos ⟨hpos, hlast⟩]

end Gather

section Decode

variable (h : a.Admits reqs) (hdec : ∀ r ∈ reqs, r.seqLen = r.prefixLen + 1)
include h hdec

/-- With pages of one slot no request seems to need a page, but each does. -/
theorem Admits.decode_single (hps : ¬ (2 ≤ a.pageSize ∨ reqs = [])) :
    (a.args reqs).getNumNewPagesDecode = 0 ∧ 0 < a.newPages reqs := by
  rw [not_or] at hps
  have hone : a.pageSize = 1 := by
    have := h.pageSize_pos
    omega
  refine ⟨?_, ?_⟩
  · rw [ExtendArgs.getNumNewPagesDecode, List.sum_eq_zero_iff_forall_eq_nat]
    intro n hn
    obtain ⟨r, -, rfl⟩ := List.mem_map.mp hn
    rw [ExtendArgs.needNewPage, args, hone, Nat.mod_one]
    rfl
  · obtain ⟨r, hr⟩ := List.exists_mem_of_ne_nil reqs hps.2
    refine Nat.lt_of_lt_of_le Nat.one_pos (List.le_sum_of_mem (List.mem_map.mpr ⟨r, hr, ?_⟩))
    rw [hdec r hr, numPages_succ_sub h.pageSize_pos, hone, Nat.mod_one, if_pos rfl]

omit hdec h in
theorem not_allOrNothing (hpos : 0 < a.newPages reqs) (hpages : a'.pages = a.pages)
    {out : List Int} : ¬ a.AllOrNothing reqs (a'.giveOut 0 out) := by
  intro hall
  obtain ⟨taken, hlen, hsplit, -⟩ := hall.taken out rfl
  have hsame : (a'.giveOut 0 out).2.pages = a.pages := hpages
  have hcard := congrArg Multiset.card hsplit
  rw [hsame, Multiset.card_add, Multiset.coe_card, hlen] at hcard
  omega

theorem Admits.decode_iff : a.AllOrNothing reqs (a.allocDecodeBatch mem reqs) ↔
    (2 ≤ a.pageSize ∨ reqs = []) ∧ a.Reaches reqs ∧ a.CanRefuse mem.mapped reqs := by
  have hneeded := newPages_le_length h.pageSize_pos hdec
  unfold allocDecodeBatch
  simp only
  generalize hroom : a.makeRoom _ = a'
  have hps : a'.pageSize = a.pageSize := hroom ▸ makeRoom_pageSize _ a
  have hpages : a'.pages = a.pages := hroom ▸ makeRoom_pages _ a
  have h' := h.congr hps hpages
  rw [← hps]
  by_cases hpaged : 2 ≤ a'.pageSize ∨ reqs = []
  · rw [getNumNewPagesDecode_eq hdec hpaged, newPages_congr hps, and_iff_right hpaged,
      allocDecodeKernel_slots hdec h'.pageSize_pos]
    exact h.launch_iff hneeded hroom (fun i hi k => mem_decodeLoads hdec h'.pageSize_pos hi k)
      fun _ => enumerates_decode hdec
  · obtain ⟨hnum, hpos⟩ := h'.decode_single hdec hpaged
    rw [newPages_congr hps] at hpos
    rw [hnum]
    refine iff_of_false ?_ fun hc => hpaged hc.1
    split
    · exact fun hall => hall.notFaulted rfl
    · exact not_allOrNothing hpos hpages

theorem Admits.npuDecode_iff : a.AllOrNothing reqs (a.npuAllocDecodeBatch reqs) ↔
    (2 ≤ a.pageSize ∨ reqs = []) ∧ ¬ a.ReadsBehind reqs := by
  by_cases hps : 2 ≤ a.pageSize
  · obtain ⟨a', hps', hpages, hlen, -, hrun⟩ := npuDecode_cases hdec hps
    have hgive := h.giveOut_iff hps' hpages fun _ => enumerates_decode (a := a') hdec
    have hfits : a.newPages reqs ≤ a'.freePages.length ∨
        a.freePages.length + a.releasePages.length < a.newPages reqs := by
      split at hlen <;> omega
    rw [and_iff_right (.inl hps), ReadsBehind, ← hlen, hrun]
    by_cases hfew : a'.freePages.length < a.newPages reqs
    · rw [if_pos hfew]
      rw [giveOut, if_pos hfew] at hgive
      exact iff_of_true (hgive.mpr hfits) fun hc => by omega
    · rw [if_neg hfew]
      split
      · next hraise => exact iff_of_false (fun hall => hall.notRaised rfl) (not_not.mpr hraise)
      · next hfine => exact iff_of_true (hgive.mpr hfits) hfine
  · by_cases hnil : reqs = []
    · subst hnil
      refine iff_of_true ?_ ⟨.inr rfl, fun hc => Nat.lt_irrefl 0 hc.1⟩
      exact (h.giveOut_iff rfl rfl fun _ => enumerates_decode hdec).mpr (.inl (Nat.zero_le _))
    · have hnot : ¬ (2 ≤ a.pageSize ∨ reqs = []) := not_or.mpr ⟨hps, hnil⟩
      obtain ⟨hnum, hpos⟩ := h.decode_single hdec hnot
      have hrun : a.npuAllocDecodeBatch reqs = a.giveOut 0 (reqs.map fun r => r.lastLoc + 1) := by
        unfold npuAllocDecodeBatch
        simp [hnum]
      rw [hrun]
      exact iff_of_false (not_allOrNothing hpos rfl) fun hc => hnot hc.1

end Decode

/-- A decoding batch whose last request stays on its page, and as many free pages as it needs. -/
def nearlyFull : Allocator × List ExtendReq := (⟨4, false, [5], []⟩, [⟨4, 5, 7⟩, ⟨5, 6, 12⟩])

theorem nearlyFull_admits : nearlyFull.1.Admits nearlyFull.2 where
  pageSize_pos := by decide
  nodup := by decide
  le := by decide
  lastLoc := by
    intro r hr _
    simp only [nearlyFull, List.mem_cons, List.not_mem_nil, or_false] at hr
    rcases hr with rfl | rfl
    · exact ⟨1, by decide⟩
    · exact ⟨3, by decide⟩
  tail_inj := by decide
  tail_used := by decide

theorem nearlyFull_decode : ∀ r ∈ nearlyFull.2, r.seqLen = r.prefixLen + 1 := by decide

/-- The two `alloc_decode` agree, and the one of the NPU stays inside the free list. -/
structure DecodesAgree (mem : LaunchMem) (a : Allocator) (reqs : List ExtendReq) : Prop where
  inBounds : (a.npuAllocDecodeBatch reqs).1 ≠ .raised
  result : (a.npuAllocDecodeBatch reqs).1 = (a.allocDecodeBatch mem reqs).1
  freePages : (a.npuAllocDecodeBatch reqs).2.freePages = (a.allocDecodeBatch mem reqs).2.freePages

section Agree

variable (hdec : ∀ r ∈ reqs, r.seqLen = r.prefixLen + 1)
  (henough : a.newPages reqs ≤ a.freePages.length)

include hdec

/-- What the generic allocator gives out when there are enough pages. -/
theorem allocDecodeBatch_eq (mem : LaunchMem) (hps : 2 ≤ a.pageSize)
    (henough : a.newPages reqs ≤ (a.makeRoom reqs.length).freePages.length) :
    a.allocDecodeBatch mem reqs =
      (.slots ((List.range reqs.length).map fun i => ((a.makeRoom reqs.length).args reqs).slot i 0),
        { a.makeRoom reqs.length with
          freePages := (a.makeRoom reqs.length).freePages.drop (a.newPages reqs) }) := by
  unfold allocDecodeBatch
  simp only
  generalize hroom : a.makeRoom _ = a' at henough ⊢
  have hps' : a'.pageSize = a.pageSize := hroom ▸ makeRoom_pageSize _ a
  rw [getNumNewPagesDecode_eq hdec (.inl (hps' ▸ hps)), newPages_congr hps',
    allocDecodeKernel_slots hdec (by omega), decode_readable hdec (by omega)
      (newPages_congr hps' ▸ henough), if_neg Bool.false_ne_true]
  exact (giveOut_pages _ henough).1

/-- With pages of one slot the generic allocator takes a slot off the free list for each request
and the NPU the one behind the last. -/
theorem decodesAgree_single (hone : a.pageSize = 1)
    (henough : a.newPages reqs ≤ a.freePages.length) :
    DecodesAgree mem a reqs ↔ ∀ i, i < reqs.length →
      ((a.args reqs).req i).lastLoc + 1 = ((a.args reqs).freePage i : Int) := by
  have hnew : ∀ r ∈ reqs, r.numNewPages a.pageSize = 1 := fun r hr => by
    rw [ExtendReq.numNewPages, hdec r hr, hone, numPages_succ_sub Nat.one_pos,
      Nat.mod_one, if_pos rfl]
  have hbefore : ∀ i, i ≤ reqs.length → (a.args reqs).before (·.numNewPages a.pageSize) i = i := by
    intro i hi
    rw [before_congr hnew, ExtendArgs.before]
    simpa [args] using hi
  have hcount : a.newPages reqs = reqs.length := by
    rw [← hbefore _ (Nat.le_refl _)]
    exact (ExtendArgs.before_length (a := a.args reqs)).symm
  have hnum : (a.args reqs).getNumNewPagesDecode = 0 := by
    rw [ExtendArgs.getNumNewPagesDecode, List.sum_eq_zero_iff_forall_eq_nat]
    intro n hn
    obtain ⟨r, -, rfl⟩ := List.mem_map.mp hn
    rw [ExtendArgs.needNewPage, args, hone, Nat.mod_one]
    rfl
  have hslot : ∀ i, i < reqs.length →
      (a.args reqs).slot i 0 = ((a.args reqs).freePage i : Int) := by
    intro i hi
    rw [slot_decode hdec (by omega) hi, hnew _ (req_mem hi), if_neg one_ne_zero,
      hbefore i (Nat.le_of_lt hi), hone, Nat.mul_one]
  have hnpu : a.npuAllocDecodeBatch reqs = a.giveOut 0 (reqs.map fun r => r.lastLoc + 1) := by
    unfold npuAllocDecodeBatch
    simp [hnum]
  have hroom : a.makeRoom reqs.length = a := if_neg fun hc => by omega
  have hgeneric : a.allocDecodeBatch mem reqs =
      a.giveOut 0 ((List.range reqs.length).map fun i => (a.args reqs).slot i 0) := by
    unfold allocDecodeBatch
    simp only [hroom, hnum, allocDecodeKernel_slots hdec (hone ▸ Nat.one_pos)]
    rw [decode_readable hdec (hone ▸ Nat.one_pos) henough, if_neg Bool.false_ne_true]
  have hfree : ∀ i (hi : i < reqs.length), (a.args reqs).req i = reqs[i] := fun i hi =>
    List.getD_eq_getElem _ _ hi
  constructor
  · intro hagree i hi
    have hsame := hagree.result
    rw [hnpu, hgeneric] at hsame
    have hget := congrArg (·[i]?) (AllocResult.slots.inj hsame)
    simp only [List.getElem?_map, List.getElem?_eq_getElem hi, List.getElem?_range hi,
      Option.map_some, Option.some.injEq] at hget
    rw [hfree i hi, hget, hslot i hi]
  · intro hall
    have hout : reqs.map (fun r => r.lastLoc + 1) =
        (List.range reqs.length).map fun i => (a.args reqs).slot i 0 := by
      refine List.ext_getElem (by simp) fun i hi _ => ?_
      rw [List.length_map] at hi
      rw [List.getElem_map, List.getElem_map, List.getElem_range, hslot i hi,
        ← hall i hi, hfree i hi]
    refine ⟨?_, ?_, ?_⟩
    · rw [hnpu]
      intro hraise
      cases hraise
    · rw [hnpu, hgeneric, hout]
    · rw [hnpu, hgeneric, hout]

/-- Released pages are merged in by the generic allocator, by its estimate, although the free
list is long enough. -/
def MergesEarly (a : Allocator) (reqs : List ExtendReq) : Prop :=
  a.needSort = true ∧ a.freePages.length < reqs.length ∧ a.releasePages ≠ []

/-- With pages of several slots the two agree unless the one merges early or the other looks
behind the free list. -/
theorem decodesAgree_paged (hps : 2 ≤ a.pageSize) (henough : a.newPages reqs ≤ a.freePages.length) :
    DecodesAgree mem a reqs ↔ ¬ a.MergesEarly reqs ∧ ¬ a.ReadsBehind reqs := by
  have hroom := makeRoom_length reqs.length a
  have hgeneric := allocDecodeBatch_eq hdec mem hps (by split at hroom <;> omega)
  obtain ⟨a', -, -, -, hsame, hnpu⟩ := npuDecode_cases hdec hps
  obtain rfl := hsame henough
  rw [if_neg (Nat.not_lt.mpr henough)] at hnpu
  have hbehind : a'.ReadsBehind reqs ↔ 0 < a'.newPages reqs ∧
      a'.freePages.length = a'.newPages reqs ∧
      ∃ r, reqs.getLast? = some r ∧ r.seqLen % a'.pageSize ≠ 1 := by
    rw [ReadsBehind, if_neg (Nat.not_lt.mpr henough)]
  by_cases hraise : a'.ReadsBehind reqs
  · rw [if_pos (hbehind.mp hraise)] at hnpu
    exact iff_of_false (fun hagree => hagree.inBounds (by rw [hnpu])) fun hc => hc.2 hraise
  rw [if_neg fun hc => hraise (hbehind.mpr hc), (giveOut_pages _ henough).1] at hnpu
  by_cases hearly : a'.MergesEarly reqs
  · refine iff_of_false (fun hagree => ?_) fun hc => hc.1 hearly
    -- the merged list is longer
    obtain ⟨hsort, hfew, hrelease⟩ := hearly
    have hlen := congrArg List.length hagree.freePages
    rw [hnpu, hgeneric, List.length_drop, List.length_drop, hroom, if_pos ⟨hsort, hfew⟩] at hlen
    have hpos := List.length_pos_iff.mpr hrelease
    omega
  · have hkept : a'.makeRoom reqs.length = a' := by
      by_cases hmerge : a'.needSort ∧ a'.freePages.length < reqs.length
      · have hnil : a'.releasePages = [] := by
          by_contra hne
          exact hearly ⟨hmerge.1, hmerge.2, hne⟩
        rw [makeRoom, if_pos hmerge, mergeAndSortFree, if_neg (not_not.mpr hnil)]
      · exact if_neg hmerge
    rw [hkept] at hgeneric
    refine iff_of_true ⟨?_, ?_, ?_⟩ ⟨hearly, hraise⟩
    · rw [hnpu]
      nofun
    · rw [hnpu, hgeneric]
    · rw [hnpu, hgeneric]

/-- The two decoding allocations agree on a batch for which there are pages exactly if, with pages
of one slot, each last slot comes before the slot that is free for its request, and, with larger
pages, the generic one does not merge early and the one of the NPU does not look behind. -/
theorem decodesAgree_iff (mem : LaunchMem) (hps : 0 < a.pageSize)
    (henough : a.newPages reqs ≤ a.freePages.length) : DecodesAgree mem a reqs ↔
      (a.pageSize = 1 → ∀ i, i < reqs.length →
        ((a.args reqs).req i).lastLoc + 1 = ((a.args reqs).freePage i : Int)) ∧
      (2 ≤ a.pageSize → ¬ a.MergesEarly reqs ∧ ¬ a.ReadsBehind reqs) := by
  by_cases hone : a.pageSize = 1
  · have hnot : ¬ 2 ≤ a.pageSize := by omega
    rw [decodesAgree_single hdec hone henough]
    exact ⟨fun h => ⟨fun _ => h, fun h2 => absurd h2 hnot⟩, fun h => h.1 hone⟩
  · have hpaged : 2 ≤ a.pageSize := by omega
    rw [decodesAgree_paged hdec hpaged henough]
    exact ⟨fun h => ⟨fun h1 => absurd h1 hone, fun _ => h⟩, fun h => h.2 hpaged⟩

end Agree

/-- The batch in which the second page is looked for. -/
theorem nearlyFull_disagree : (∀ r ∈ nearlyFull.2, r.seqLen = r.prefixLen + 1) ∧
    nearlyFull.1.newPages nearlyFull.2 ≤ nearlyFull.1.freePages.length ∧
    ¬ DecodesAgree .zero nearlyFull.1 nearlyFull.2 :=
  ⟨nearlyFull_decode, by decide, fun hagree => hagree.inBounds (by decide)⟩

/-- With the requests the other way round the last one takes the page. -/
theorem reversed_agree : DecodesAgree .zero nearlyFull.1 nearlyFull.2.reverse := by
  refine (decodesAgree_iff (by decide) .zero (by decide) (by decide)).mpr ⟨nofun, fun _ => ?_⟩
  refine ⟨fun hearly => absurd hearly.1 (by decide), ?_⟩
  rintro ⟨-, -, r, hlast, hno⟩
  obtain rfl := Option.some.inj hlast
  exact hno (by decide)

end Works

end Allocator

end SpecDecode.MemCache
