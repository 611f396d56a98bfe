import SpecDecode.Lib.Compaction
import SpecDecode.MemCache.AllocExtendSpec

/-!
# Compacting a verified batch

After verification the slots and the tokens of a batch are moved together: the accepted slots to
the front of a buffer, those of the unfinished requests to the front of another one, and for
every request its positions and its last accepted token to where the draft model reads them. Each
kernel has one program for each request (or each draft), which finds its offset by a sum over
the lengths of the requests before it.
-/

namespace SpecDecode.Eagle

open Function Buffer MemCache

/-- `tl.sum` of a masked load whose other lanes are `0`. -/
def maskedSum (lanes pid : Nat) (f : Nat → Nat) : Nat :=
  ((List.range lanes).map fun lane => if lane < pid then f lane else 0).sum

/-- Program `pid` of `create_extend_after_decode_spec_info`, on `positions` and
`new_verified_id`. -/
def createExtendAfterDecodeSpecInfo (verifiedId : Nat → Int) (seqLens acceptLens : Nat → Nat)
    (bsUpper : Nat) (s : (Nat → Int) × (Nat → Int)) (pid : Nat) : (Nat → Int) × (Nat → Int) :=
  let seqLength : Int := seqLens pid
  let acceptLen := acceptLens pid
  let acceptLenCumsum := maskedSum bsUpper pid acceptLens
  let positions := maskedStore s.1 acceptLenCumsum bsUpper acceptLen fun o =>
    seqLength - acceptLen + o
  let verifiedIdData := verifiedId (acceptLenCumsum + (acceptLen - 1))
  (positions, update s.2 pid verifiedIdData)

def fillNewVerifiedId (verifiedId : Nat → Int) (acceptLens : Nat → Nat) (numDraftTokens : Nat)
    (newVerifiedId : Nat → Int) (pid : Nat) : Nat → Int :=
  let verifiedIdIdx := numDraftTokens * pid + acceptLens pid - 1
  update newVerifiedId pid (verifiedId verifiedIdIdx)

def fillAcceptedOutCacheLoc (acceptIndex outCacheLoc : Nat → Int) (sizeUpper : Nat)
    (acceptedOutCacheLoc : Nat → Int) (pid : Nat) : Nat → Int :=
  let masks := fun lane => if (if lane < pid then acceptIndex lane else -1) ≠ -1 then 1 else 0
  let dst := ((List.range sizeUpper).map masks).sum
  let src := acceptIndex pid
  if src > -1 then update acceptedOutCacheLoc dst (outCacheLoc src.toNat)
  else acceptedOutCacheLoc

def filterFinishedCacheLocKernel (tgtCacheLoc : Nat → Int)
    (numAcceptedDrafts numAcceptedDraftsFilter : Nat → Nat) (bsUpper numVerifyTokensUpper : Nat)
    (outCacheLoc : Nat → Int) (bid : Nat) : Nat → Int :=
  let oldStart := maskedSum bsUpper bid numAcceptedDrafts + bid
  let newStart := maskedSum bsUpper bid numAcceptedDraftsFilter
  let copyLen := numAcceptedDraftsFilter bid
  maskedStore outCacheLoc newStart numVerifyTokensUpper copyLen fun o => tgtCacheLoc (oldStart + o)

def createNumAcceptedDraftsFilter (numAcceptedDrafts : Nat → Nat) (unfinishedIndex : List Nat)
    (seqLens : Nat → Nat) : (Nat → Nat) × (Nat → Nat) :=
  (unfinishedIndex.foldl (fun m i => update m i (numAcceptedDrafts i + 1)) fun _ => 0,
    fun i => seqLens i + (numAcceptedDrafts i + 1))

/-- A verified batch: the indices into `predict` that each request accepted, the bonus token
last and all in its own row of `draftTokenNum` entries, and the length of each sequence behind
them. -/
structure AcceptedBatch where
  bs : Nat
  speculativeNumSteps : Nat
  draftTokenNum : Nat
  seqLens : Nat → Nat
  accepted : Nat → List Nat
  accepted_ne_nil : ∀ i, i < bs → accepted i ≠ []
  accepted_le_steps : ∀ i, i < bs → (accepted i).length ≤ speculativeNumSteps + 1
  accepted_le_drafts : ∀ i, i < bs → (accepted i).length ≤ draftTokenNum
  accepted_row : ∀ i, i < bs → ∀ a ∈ accepted i, i * draftTokenNum ≤ a ∧ a < (i + 1) * draftTokenNum

namespace AcceptedBatch

variable (b : AcceptedBatch)

/-- `num_accepted_tokens`, which counts the bonus token. -/
def acceptLens (i : Nat) : Nat := (b.accepted i).length

def numAcceptedDrafts (i : Nat) : Nat := b.acceptLens i - 1

/-- A row of `accept_index`, padded to one entry for each step and the bonus token. -/
def acceptRow (i : Nat) : List Int :=
  (b.accepted i).map Int.ofNat ++
    List.replicate (b.speculativeNumSteps + 1 - b.acceptLens i) (-1)

/-- The flat `accept_index`. -/
def acceptIndex : Nat → Int :=
  ofRows (b.speculativeNumSteps + 1) b.acceptRow (-1)

/-- `predict[idx]`, where `-1` is the last entry. -/
def gather (predict : List Int) (idx : Int) : Int :=
  if idx < 0 then predict.getD (predict.length - 1) 0 else predict.getD idx.toNat 0

/-- `predict[accept_index[accept_index != -1]]`. -/
def verifiedId (predict : List Int) : List Int :=
  (((List.range (b.bs * (b.speculativeNumSteps + 1))).map b.acceptIndex).filter (· ≠ -1)).map
    (gather predict)

/-- `predict[accept_index]`, padding and all; `beyond` is the memory behind that tensor. -/
def allVerifiedId (predict : List Int) (beyond : Nat → Int) : Nat → Int := fun x =>
  if x < b.bs * (b.speculativeNumSteps + 1) then gather predict (b.acceptIndex x) else beyond x

/-- Program `pid` as `prepare_extend_after_decode` launches it. -/
def extendProgram (predict : List Int) (s : (Nat → Int) × (Nat → Int)) (pid : Nat) :
    (Nat → Int) × (Nat → Int) :=
  createExtendAfterDecodeSpecInfo (fun x => (b.verifiedId predict).getD x 0) b.seqLens b.acceptLens
    (nextPowerOf2 (max (b.speculativeNumSteps + 1) b.bs)) s pid

/-- The launch of `prepare_extend_after_decode`, whose programs run in some order. -/
def extendAfterDecode (predict : List Int) (order : List Nat) (s : (Nat → Int) × (Nat → Int)) :
    (Nat → Int) × (Nat → Int) :=
  order.foldl (b.extendProgram predict) s

def newVerifiedId (predict : List Int) (beyond : Nat → Int) (order : List Nat) (m : Nat → Int) :
    Nat → Int :=
  order.foldl (fillNewVerifiedId (b.allVerifiedId predict beyond) b.acceptLens b.draftTokenNum) m

/-- `unfinished_index`, as the loop over the requests collects it. -/
def unfinishedIndex (finished : Nat → Bool) : List Nat :=
  (List.range b.bs).filter fun i => !finished i

def filterFinished (tgtCacheLoc : Nat → Int) (finished : Nat → Bool) (order : List Nat)
    (m : Nat → Int) : Nat → Int :=
  order.foldl (filterFinishedCacheLocKernel tgtCacheLoc b.numAcceptedDrafts
    (createNumAcceptedDraftsFilter b.numAcceptedDrafts (b.unfinishedIndex finished) b.seqLens).1
    (nextPowerOf2 b.bs) (nextPowerOf2 b.draftTokenNum)) m

end AcceptedBatch

/-- The launch of `move_accepted_tokens_to_target_kvcache`. -/
def acceptedOutCacheLoc (acceptIndex outCacheLoc : Nat → Int) (size : Nat) (order : List Nat)
    (m : Nat → Int) : Nat → Int :=
  order.foldl (fillAcceptedOutCacheLoc acceptIndex outCacheLoc (nextPowerOf2 size)) m

end SpecDecode.Eagle
