import SpecDecode.Lib.Launch
import SpecDecode.Lib.Tree
import Mathlib.Algebra.BigOperators.Group.Finset.Basic
import Mathlib.Data.List.ProdSigma
import Mathlib.Tactic.Ring

/-!
# The CUDA draft-tree kernel `build_tree_efficient`

One block per request and one thread per draft token. Thread `0` links the
tree of its request; every other thread marks the ancestors of its own token in
the attention mask and stores its position. Threads write disjoint cells, so a
launch runs them in the order of the grid.

Offsets and lengths are natural numbers: the model has no 32-bit bound on the
size of a buffer. A `while (true)` loop that never breaks is `none`.
-/

namespace SpecDecode.Eagle

open Function Buffer Launch

/-- How much of a token's attention row the mask stores. -/
inductive TreeMaskMode where
  | fullMask
  | qlenOnly
  | qlenOnlyBitpacking
deriving DecidableEq, Repr

/-- The read-only arguments of the kernel, flattened over the batch. -/
structure TreeArgs where
  parentList : Nat → Int
  selectedIndex : Nat → Nat
  verifiedSeqLen : Nat → Nat
  topk : Nat
  depth : Nat
  draftTokenNum : Nat
  treeMaskMode : TreeMaskMode

/-- The buffers the kernel writes. `warnings` collects the request and token of
every "invalid eagle tree" message. -/
@[ext]
structure TreeBuffers where
  treeMask : Nat → Bool
  positions : Nat → Nat
  retriveIndex : Nat → Int
  retriveNextToken : Nat → Int
  retriveNextSibling : Nat → Int
  warnings : List (Nat × Nat)

namespace TreeArgs

variable (a : TreeArgs)

/-- `selected_index[bid][p]`; row `bid` has `draft_token_num - 1` entries. -/
def selected (bid p : Nat) : Nat := a.selectedIndex (bid * (a.draftTokenNum - 1) + p)

/-- `parent_list[bid][q]`; row `bid` has `topk * (depth - 1) + 1` entries. -/
def parentToken (bid q : Nat) : Int := a.parentList (bid * (a.topk * (a.depth - 1) + 1) + q)

/-- The index in `selected_index[bid]` of a flat token, or `draft_token_num`. -/
def findSelected (bid : Nat) (token : Int) : Nat :=
  findFrom (fun q => (a.selected bid q : Int) = token) a.draftTokenNum 0

/-- The first mask cell of request `bid` in `FULL_MASK` mode. -/
def seqTreeIdx (bid : Nat) : Nat :=
  (List.range bid).foldl (fun idx i => idx + a.verifiedSeqLen i * a.draftTokenNum)
    (a.draftTokenNum * a.draftTokenNum * bid)

/-- The mask cell right after the root's in the row of token `tid`. -/
def tokenTreeIdx (bid tid : Nat) : Nat :=
  if a.treeMaskMode = .fullMask then
    a.seqTreeIdx bid + (a.verifiedSeqLen bid + a.draftTokenNum) * tid + a.verifiedSeqLen bid + 1
  else
    a.draftTokenNum * a.draftTokenNum * bid + a.draftTokenNum * tid + 1

/-- Where thread `0` finds the parent of token `i`: `0` for the root, one more
than the parent's index otherwise, `draft_token_num` when it is not selected. -/
def parentPosition (bid i : Nat) : Nat :=
  let parentTbIdx := a.selected bid (i - 1) / a.topk
  if 0 < parentTbIdx then
    let found := a.findSelected bid (a.parentToken bid parentTbIdx)
    if found < a.draftTokenNum then found + 1 else found
  else 0

/-- One iteration of thread `0`: put token `i` in front of its parent's children. -/
def linkToken (bid i : Nat) (b : TreeBuffers) : TreeBuffers :=
  let n := a.draftTokenNum
  let b := { b with retriveIndex := update b.retriveIndex (bid * n + i) (bid * n + i : Nat) }
  let parentPosition := a.parentPosition bid i
  if parentPosition = n then
    { b with warnings := b.warnings ++ [(bid, i)] }
  else if b.retriveNextToken (bid * n + parentPosition) = -1 then
    { b with retriveNextToken := update b.retriveNextToken (bid * n + parentPosition) i }
  else
    let originNextToken := b.retriveNextToken (bid * n + parentPosition)
    { b with
      retriveNextToken := update b.retriveNextToken (bid * n + parentPosition) i
      retriveNextSibling := update b.retriveNextSibling (bid * n + i) originNextToken }

/-- `for (i = count; i > 0; --i)` of thread `0`. -/
def linkTokens (bid : Nat) : Nat → TreeBuffers → TreeBuffers
  | 0, b => b
  | i + 1, b => linkTokens bid i (a.linkToken bid (i + 1) b)

/-- The `while (true)` loop of the other threads. Its only state is
`curPosition ≤ draft_token_num`, so it breaks within `draft_token_num + 1`
rounds or never. -/
def markAncestors (bid tokenTreeIdx : Nat) :
    Nat → Nat → Nat → (Nat → Bool) → Option (Nat × (Nat → Bool))
  | 0, _, _, _ => none
  | fuel + 1, curPosition, position, mask =>
      let position := position + 1
      let mask := update mask (tokenTreeIdx + curPosition) true
      let parentTbIdx := a.selected bid curPosition / a.topk
      if parentTbIdx = 0 then some (position, mask)
      else
        markAncestors bid tokenTreeIdx fuel
          (a.findSelected bid (a.parentToken bid parentTbIdx)) position mask

/-- Set the root's cell of a row and clear the rest of it. -/
def clearRow (tokenTreeIdx : Nat) (mask : Nat → Bool) : Nat → Bool :=
  fill (update mask (tokenTreeIdx - 1) true) tokenTreeIdx (a.draftTokenNum - 1)
    (fun _ => false)

/-- Thread `tid` of block `bid`. -/
def buildTreeEfficient (thread : Nat × Nat) (b : TreeBuffers) : Option TreeBuffers :=
  let (bid, tid) := thread
  let n := a.draftTokenNum
  if n ≤ tid then some b
  else
    let seqLen := a.verifiedSeqLen bid
    let tokenTreeIdx := a.tokenTreeIdx bid tid
    let b := { b with treeMask := a.clearRow tokenTreeIdx b.treeMask }
    if tid = 0 then
      let b := { b with positions := update b.positions (bid * n) seqLen }
      let b := a.linkTokens bid (n - 1) b
      some { b with retriveIndex := update b.retriveIndex (bid * n) (bid * n : Nat) }
    else
      match a.markAncestors bid tokenTreeIdx (n + 1) (tid - 1) 0 b.treeMask with
      | none => none
      | some (position, mask) =>
          some { b with
            treeMask := mask
            positions := update b.positions (bid * n + tid) (position + seqLen) }

/-- The threads of the grid `<<<bs, draft_token_num>>>`. -/
def grid (bs : Nat) : List (Nat × Nat) := List.range bs ×ˢ List.range a.draftTokenNum

/-- The launch of the kernel over a batch. -/
def launchBuildTree (bs : Nat) (b : TreeBuffers) : Option TreeBuffers :=
  launch a.buildTreeEfficient (a.grid bs) b

end TreeArgs

end SpecDecode.Eagle
