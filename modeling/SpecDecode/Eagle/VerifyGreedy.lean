import SpecDecode.Lib.Launch
import SpecDecode.Lib.Tree

/-!
# The CUDA kernel `VerifyTreeGreedy`

One block per request walks the draft tree from its root. At every node it scans
the children, in the order of the sibling list, for one whose token is the
target's prediction at the node.

Offsets are natural numbers and tokens are integers, without the 32-bit bounds of
the device. An index read from a buffer is used through `Int.toNat`. A `while`
loop that never ends is `none`.
-/

namespace SpecDecode.Eagle

open Function Launch

/-- The read-only arguments of the kernel, flattened over the batch. -/
structure VerifyArgs where
  candidates : Nat → Int
  retriveIndex : Nat → Int
  retriveNextToken : Nat → Int
  retriveNextSibling : Nat → Int
  targetPredict : Nat → Int
  numSpeculativeTokens : Nat
  numDraftTokens : Nat

/-- The buffers the kernel writes. -/
structure VerifyBuffers where
  predicts : Nat → Int
  acceptIndex : Nat → Int
  acceptTokenNum : Nat → Int

/-- The variables of a walk: `last_accepted_retrive_idx`, `num_accepted_tokens`
and the buffers. -/
structure Walk where
  lastAccepted : Int
  numAccepted : Nat
  buffers : VerifyBuffers

/-- Accept a draft token: store what was predicted at the last accepted node and
append the token to the row of `accept_index` that starts at `rowStart`. -/
def Walk.accept (w : Walk) (rowStart : Nat) (targetToken draftIndex : Int) : Walk where
  lastAccepted := draftIndex
  numAccepted := w.numAccepted + 1
  buffers :=
    { w.buffers with
      predicts := update w.buffers.predicts w.lastAccepted.toNat targetToken
      acceptIndex := update w.buffers.acceptIndex (rowStart + (w.numAccepted + 1)) draftIndex }

/-- The stores after the loop. -/
def Walk.finish (w : Walk) (bx : Nat) (targetToken : Int) : VerifyBuffers :=
  { w.buffers with
    predicts := update w.buffers.predicts w.lastAccepted.toNat targetToken
    acceptTokenNum := update w.buffers.acceptTokenNum bx w.numAccepted }

/-- The stores before the loop. -/
def VerifyBuffers.start (b : VerifyBuffers) (rowStart : Nat) (lastAccepted : Int) : Walk where
  lastAccepted := lastAccepted
  numAccepted := 0
  buffers := { b with acceptIndex := update b.acceptIndex rowStart lastAccepted }

namespace VerifyArgs

variable (a : VerifyArgs)

/-- The `while (cur_index != -1)` loop: where it stops. A sibling list has at
most `num_draft_tokens` entries, so it stops within one round more or never. -/
def scanSiblings (bx : Nat) (lastAccepted : Int) : Nat → Int → Option Int
  | 0, _ => none
  | fuel + 1, curIndex =>
      if curIndex = -1 then some (-1)
      else if a.candidates (bx * a.numDraftTokens + curIndex.toNat) =
          a.targetPredict lastAccepted.toNat then some curIndex
      else
        scanSiblings bx lastAccepted fuel
          (a.retriveNextSibling (bx * a.numDraftTokens + curIndex.toNat))

/-- The `for` loop over `j`, with `count` rounds to go. -/
def walkTree (bx : Nat) : (count : Nat) → (curIndex : Int) → Walk → Option Walk
  | 0, _, w => some w
  | count + 1, curIndex, w =>
      match a.scanSiblings bx w.lastAccepted (a.numDraftTokens + 1)
          (a.retriveNextToken (bx * a.numDraftTokens + curIndex.toNat)) with
      | none => none
      | some curIndex =>
          if curIndex = -1 then some w
          else
            walkTree bx count curIndex
              (w.accept (bx * a.numSpeculativeTokens) (a.targetPredict w.lastAccepted.toNat)
                (a.retriveIndex (bx * a.numDraftTokens + curIndex.toNat)))

/-- Block `bx` of the kernel. -/
def verifyTreeGreedy (bx : Nat) (b : VerifyBuffers) : Option VerifyBuffers :=
  let w := b.start (bx * a.numSpeculativeTokens) (a.retriveIndex (bx * a.numDraftTokens))
  match a.walkTree bx (a.numSpeculativeTokens - 1) 0 w with
  | none => none
  | some w => some (w.finish bx (a.targetPredict w.lastAccepted.toNat))

/-- The launch of the kernel over a batch. -/
def launchVerify (batchSize : Nat) (b : VerifyBuffers) : Option VerifyBuffers :=
  launch a.verifyTreeGreedy (List.range batchSize) b

end VerifyArgs

end SpecDecode.Eagle
