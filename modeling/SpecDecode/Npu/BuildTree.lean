import SpecDecode.Eagle.BuildTreeSpec

/-!
# The AscendC kernel `build_tree_efficient`

The host splits the rows of the batch over the vector cores (`getTiling`). A
core processes its rows one after another: it builds the row's `positions` and
links in local buffers, stores each token's mask row as it goes and copies the
rest out at the end.

Local buffers are not cleared between rows, so a row starts from arbitrary stale
contents. `draft_token_num` is a natural number: the cast to `uint16_t` keeps
every value the CUDA kernel can launch threads for.
-/

namespace SpecDecode.Npu

open Function Buffer Launch Eagle

structure Tiling where
  blockDim : Nat
  bigCoreNum : Nat
  bigCoreTileNum : Nat
  smallCoreTileNum : Nat

def getTiling (maxAivCore batchSize : Nat) : Tiling :=
  let blockDim := min maxAivCore batchSize
  let numBigCore := batchSize % blockDim
  { blockDim := blockDim
    bigCoreNum := if numBigCore = 0 then blockDim else numBigCore
    bigCoreTileNum := (batchSize + blockDim - 1) / blockDim
    smallCoreTileNum := batchSize / blockDim }

namespace Tiling

variable (t : Tiling)

def bsPerCore (core : Nat) : Nat :=
  if core < t.bigCoreNum then t.bigCoreTileNum else t.smallCoreTileNum

def bsOffset (core : Nat) : Nat :=
  if core < t.bigCoreNum then core * t.bigCoreTileNum
  else core * t.bigCoreTileNum -
    (t.bigCoreTileNum - t.smallCoreTileNum) * (core - t.bigCoreNum)

/-- The rows of a core. -/
def coreRows (core : Nat) : List Nat := (List.range (t.bsPerCore core)).map (t.bsOffset core + ·)

end Tiling

structure LocalBuffers where
  positions : Nat → Nat
  retriveIndex : Nat → Int
  retriveNextToken : Nat → Int
  retriveNextSibling : Nat → Int

/-- What the local buffers of a row hold before it starts; `mask` is what each
token's mask tensor holds. -/
structure Stale where
  buffers : LocalBuffers
  mask : Nat → Nat → Bool

section Kernel

variable (a : TreeArgs)

/-- `parent_list` and `selected_index` through the pointers of a core whose first
row is `bsOffset`. -/
def coreArgs (bsOffset : Nat) : TreeArgs :=
  { a with
    parentList := fun x => a.parentList ((a.topk * (a.depth - 1) + 1) * bsOffset + x)
    selectedIndex := fun x => a.selectedIndex ((a.draftTokenNum - 1) * bsOffset + x) }

def linkToken (bsOffset bid i : Nat) (ub : LocalBuffers) : LocalBuffers :=
  let bs := bsOffset + bid
  let ub := { ub with
    retriveIndex := update ub.retriveIndex i (bs * a.draftTokenNum + i : Nat) }
  let parentPosition := (coreArgs a bsOffset).parentPosition bid i
  if parentPosition = a.draftTokenNum then ub
  else if ub.retriveNextToken parentPosition = -1 then
    { ub with retriveNextToken := update ub.retriveNextToken parentPosition i }
  else
    let originNextToken := ub.retriveNextToken parentPosition
    { ub with
      retriveNextToken := update ub.retriveNextToken parentPosition i
      retriveNextSibling := update ub.retriveNextSibling i originNextToken }

/-- `for (i = count; i > 0; --i)` of `Compute` at token `0`. -/
def linkTokens (bsOffset bid : Nat) : Nat → LocalBuffers → LocalBuffers
  | 0, ub => ub
  | i + 1, ub => linkTokens bsOffset bid i (linkToken a bsOffset bid (i + 1) ub)

/-- Where `Compute` stores the mask row of token `tid`. -/
def tokenTreeIdx (bs tid : Nat) : Nat :=
  if a.treeMaskMode = .fullMask then
    a.seqTreeIdx bs + (a.verifiedSeqLen bs + a.draftTokenNum) * tid + a.verifiedSeqLen bs
  else
    a.draftTokenNum * a.draftTokenNum * bs + a.draftTokenNum * bs

/-- `Compute` at token `tid`, on the local buffers and the mask. -/
def compute (bsOffset bid : Nat) (stale : Nat → Nat → Bool) (tid : Nat)
    (s : LocalBuffers × (Nat → Bool)) : Option (LocalBuffers × (Nat → Bool)) :=
  let (ub, treeMask) := s
  let bs := bsOffset + bid
  let n := a.draftTokenNum
  let seqLen := a.verifiedSeqLen bs
  let maskUb := a.clearRow 1 (stale tid)
  if tid = 0 then
    let ub := { ub with positions := update ub.positions 0 seqLen }
    let ub := linkTokens a bsOffset bid (n - 1) ub
    let ub := { ub with retriveIndex := update ub.retriveIndex 0 (bs * n : Nat) }
    some (ub, fill treeMask (tokenTreeIdx a bs tid) n maskUb)
  else
    match (coreArgs a bsOffset).markAncestors bid 1 (n + 1) (tid - 1) 0 maskUb with
    | none => none
    | some (position, maskUb) =>
        some ({ ub with positions := update ub.positions tid (position + seqLen) },
          fill treeMask (tokenTreeIdx a bs tid) n maskUb)

/-- `CopyOut`, with the pointers offset to the rows of the core. -/
def copyOut (bsOffset bid : Nat) (ub : LocalBuffers) (b : TreeBuffers) : TreeBuffers :=
  let n := a.draftTokenNum
  let offset := n * bsOffset + bid * n
  { b with
    positions := fill b.positions offset n ub.positions
    retriveIndex := fill b.retriveIndex offset n ub.retriveIndex
    retriveNextToken := fill b.retriveNextToken offset n ub.retriveNextToken
    retriveNextSibling := fill b.retriveNextSibling offset n ub.retriveNextSibling }

def unlink (n : Nat) (ub : LocalBuffers) : LocalBuffers :=
  { ub with
    retriveNextToken := fill ub.retriveNextToken 0 n fun _ => -1
    retriveNextSibling := fill ub.retriveNextSibling 0 n fun _ => -1 }

def processRow (stale : Nat → Stale) (bsOffset bid : Nat) (b : TreeBuffers) :
    Option TreeBuffers :=
  let n := a.draftTokenNum
  let old := stale (bsOffset + bid)
  let ub := unlink n old.buffers
  match launch (compute a bsOffset bid old.mask) (List.range n) (ub, b.treeMask) with
  | none => none
  | some (ub, treeMask) => some (copyOut a bsOffset bid ub { b with treeMask := treeMask })

/-- The launch over a batch on a device with `maxAivCore` vector cores. The host
throws on `QLEN_ONLY_BITPACKING`. -/
def buildTreeEfficient (maxAivCore batchSize : Nat) (stale : Nat → Stale) (b : TreeBuffers) :
    Option TreeBuffers :=
  if a.treeMaskMode = .qlenOnlyBitpacking then none
  else
    let t := getTiling maxAivCore batchSize
    launch (fun core =>
      launch (processRow a stale (t.bsOffset core)) (List.range (t.bsPerCore core)))
      (List.range t.blockDim) b

end Kernel

end SpecDecode.Npu
