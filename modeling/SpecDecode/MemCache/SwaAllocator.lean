import SpecDecode.Lib.SlotBook
import SpecDecode.MemCache.PagedAlloc

/-!
# The allocator of a hybrid pool

`SWATokenToKVPoolAllocator` takes each slot from two pools, one for the layers with full
attention and one for the layers with a sliding window, and maps the full slots to the window
slots. A window slot may be freed before its full slot. Slot `0` stands for no slot, and index
`-1` reads the last item of the mapping, which is `-1`.

The batches come with what the launches of a pool find in memory. The allocators of the NPU,
`set_full_to_swa_mapping` and the copies for the host are left out.
-/

namespace SpecDecode.MemCache

/-- What an allocation returns, if it does not raise. -/
def AllocResult.out : AllocResult → Option (List Int)
  | slots out => some out
  | _ => none

/-- An allocator of `size` slots. No operation reads `used`, the slots that it has given out and
not got back. -/
structure Pool where
  size : Nat
  allocator : Allocator
  used : Finset Int

namespace Pool

def new (size pageSize : Nat) (needSort : Bool) : Pool where
  size := size
  allocator := .new size pageSize needSort
  used := ∅

def availableSize (p : Pool) : Nat := p.allocator.availableSize

def behind (p : Pool) (r : AllocResult × Allocator) : Pool :=
  { p with allocator := r.2, used := p.used ∪ (r.1.out.getD []).toFinset }

def alloc (needSize : Nat) (p : Pool) : Option (List Int × Pool) :=
  (p.allocator.alloc needSize).map fun (out, a) =>
    let out := out.map fun (slot : Nat) => (slot : Int)
    (out, { p with allocator := a, used := p.used ∪ out.toFinset })

def free (freeIndex : List Int) (p : Pool) : Pool :=
  { p with
    allocator := p.allocator.free (freeIndex.map Int.toNat)
    used := p.used \ freeIndex.toFinset }

def clear (p : Pool) : Pool := .new p.size p.allocator.pageSize p.allocator.needSort

end Pool

structure SwaAllocator where
  pageSize : Nat
  fullAttnAllocator : Pool
  swaAttnAllocator : Pool
  fullToSwaIndexMapping : Int → Int
  isNotInFreeGroup : Bool
  freeGroup : List (List Int)

namespace SwaAllocator

/-- `mapping[full_indices] = swa_indices`. -/
def assign (mapping : Int → Int) (fullIndices swaIndices : List Int) : Int → Int :=
  (fullIndices.zip swaIndices).foldl (fun m (x, y) => Function.update m x y) mapping

def new (size sizeSwa pageSize : Nat) (needSort : Bool) : SwaAllocator where
  pageSize := pageSize
  fullAttnAllocator := .new size pageSize needSort
  swaAttnAllocator := .new sizeSwa pageSize needSort
  fullToSwaIndexMapping := fun loc => if loc = -1 then -1 else 0
  isNotInFreeGroup := true
  freeGroup := []

/-- The batch with the window slots of its last slots. -/
def translateLoc (reqs : List ExtendReq) (s : SwaAllocator) : List ExtendReq :=
  reqs.map fun r => { r with lastLoc := s.fullToSwaIndexMapping r.lastLoc }

def alloc (needSize : Nat) (s : SwaAllocator) : Option (Option (List Int) × SwaAllocator) :=
  if s.pageSize ≠ 1 then none
  else if s.fullAttnAllocator.availableSize < needSize then some (none, s)
  else if s.swaAttnAllocator.availableSize < needSize then some (none, s)
  else
    (s.fullAttnAllocator.alloc needSize).bind fun (allocFullIndices, full) =>
      (s.swaAttnAllocator.alloc needSize).map fun (allocSwaIndices, swa) =>
        (some allocFullIndices, { s with
          fullAttnAllocator := full
          swaAttnAllocator := swa
          fullToSwaIndexMapping :=
            assign s.fullToSwaIndexMapping allocFullIndices allocSwaIndices })

/-- `alloc_extend`, `none` where an assertion fails or a kernel faults. -/
def allocExtend (mem memSwa : LaunchMem) (reqs : List ExtendReq) (s : SwaAllocator) :
    Option (Option (List Int) × SwaAllocator) :=
  if s.pageSize ≤ 1 then none
  else
    let numNewPages := (reqs.map (·.numNewPages s.pageSize)).sum
    if s.fullAttnAllocator.availableSize / s.pageSize < numNewPages then some (none, s)
    else if s.swaAttnAllocator.availableSize / s.pageSize < numNewPages then some (none, s)
    else
      let full := s.fullAttnAllocator.allocator.allocExtendBatch mem reqs
      let swa := s.swaAttnAllocator.allocator.allocExtendBatch memSwa (s.translateLoc reqs)
      full.1.out.bind fun allocFullIndices => swa.1.out.map fun allocSwaIndices =>
        (some allocFullIndices, { s with
          fullAttnAllocator := s.fullAttnAllocator.behind full
          swaAttnAllocator := s.swaAttnAllocator.behind swa
          fullToSwaIndexMapping :=
            assign s.fullToSwaIndexMapping allocFullIndices allocSwaIndices })

/-- `alloc_decode`, `none` where an assertion fails or a kernel faults. The pools are not asked
beforehand. -/
def allocDecode (mem memSwa : LaunchMem) (reqs : List ExtendReq) (s : SwaAllocator) :
    Option (Option (List Int) × SwaAllocator) :=
  if s.pageSize ≤ 1 then none
  else
    let full := s.fullAttnAllocator.allocator.allocDecodeBatch mem reqs
    let swa := s.swaAttnAllocator.allocator.allocDecodeBatch memSwa (s.translateLoc reqs)
    let s' := { s with
      fullAttnAllocator := s.fullAttnAllocator.behind full
      swaAttnAllocator := s.swaAttnAllocator.behind swa }
    if full.1 = .faulted ∨ swa.1 = .faulted then none
    else
      match full.1.out, swa.1.out with
      | some allocFullIndices, some allocSwaIndices =>
          some (some allocFullIndices, { s' with
            fullToSwaIndexMapping :=
              assign s.fullToSwaIndexMapping allocFullIndices allocSwaIndices })
      | _, _ => some (none, s')

def freeSwa (freeIndex : List Int) (s : SwaAllocator) : SwaAllocator :=
  let swaIndices := (freeIndex.map s.fullToSwaIndexMapping).filter (0 < ·)
  { s with
    swaAttnAllocator := s.swaAttnAllocator.free swaIndices
    fullToSwaIndexMapping := fun loc =>
      if loc ∈ freeIndex then 0 else s.fullToSwaIndexMapping loc }

def free (freeIndex : List Int) (s : SwaAllocator) : Option SwaAllocator :=
  if freeIndex = [] then some s
  else
    let s :=
      if s.isNotInFreeGroup then
        freeSwa freeIndex { s with fullAttnAllocator := s.fullAttnAllocator.free freeIndex }
      else { s with freeGroup := s.freeGroup ++ [freeIndex] }
    if s.fullAttnAllocator.availableSize ≤ s.fullAttnAllocator.size ∧
        s.swaAttnAllocator.availableSize ≤ s.swaAttnAllocator.size then some s
    else none

def freeGroupBegin (s : SwaAllocator) : SwaAllocator :=
  { s with isNotInFreeGroup := false, freeGroup := [] }

/-- `free_group_end`. The group is only emptied by the next `free_group_begin`. -/
def freeGroupEnd (s : SwaAllocator) : Option SwaAllocator :=
  let s := { s with isNotInFreeGroup := true }
  if s.freeGroup = [] then some s else s.free s.freeGroup.flatten

def clear (s : SwaAllocator) : SwaAllocator :=
  { s with
    fullAttnAllocator := s.fullAttnAllocator.clear
    swaAttnAllocator := s.swaAttnAllocator.clear
    fullToSwaIndexMapping := fun loc => if loc = -1 then s.fullToSwaIndexMapping loc else 0
    isNotInFreeGroup := true
    freeGroup := [] }

end SwaAllocator

inductive SwaAllocOp where
  | alloc (needSize : Nat)
  | allocExtend (mem memSwa : LaunchMem) (reqs : List ExtendReq)
  | allocDecode (mem memSwa : LaunchMem) (reqs : List ExtendReq)
  | free (freeIndex : List Int)
  | freeSwa (freeIndex : List Int)
  | freeGroupBegin
  | freeGroupEnd
  | clear

namespace SwaAllocOp

/-- What an operation returns and the state behind it, `none` where it raises. -/
def exec (s : SwaAllocator) : SwaAllocOp → Option (Option (List Int) × SwaAllocator)
  | alloc needSize => s.alloc needSize
  | allocExtend mem memSwa reqs => s.allocExtend mem memSwa reqs
  | allocDecode mem memSwa reqs => s.allocDecode mem memSwa reqs
  | free freeIndex => (s.free freeIndex).map fun s => (none, s)
  | freeSwa freeIndex => some (none, s.freeSwa freeIndex)
  | freeGroupBegin => some (none, s.freeGroupBegin)
  | freeGroupEnd => s.freeGroupEnd.map fun s => (none, s)
  | clear => some (none, s.clear)

end SwaAllocOp

end SpecDecode.MemCache
