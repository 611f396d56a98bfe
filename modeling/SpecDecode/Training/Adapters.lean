import SpecDecode.Training.Preprocessing

/-!
# The unrolled training loop

`forward` is the TTT loop of `OnlineEagle3Model`: in round `idx` the adapter of the attention
backend cuts its view out of the batch, the draft model computes new hidden states from it,
and ids and masks move left by one. The draft model and the target head are parameters.
-/

namespace SpecDecode.Training

variable {H R D P : Type}

/-- `padding`: one step to the right or to the left, with a zero moved in. -/
def padding {α : Type} [Zero α] (tensor : List α) (left : Bool) : List α :=
  let zeropadding := (tensor.drop (tensor.length - 1)).map fun _ => (0 : α)
  if left then zeropadding ++ tensor.dropLast else tensor.tail ++ zeropadding

/-- What `_compute_target_p` does with one row of the target. -/
structure TargetHead (R P : Type) where
  /-- The distribution over the draft vocabulary. -/
  targetP : R → P
  /-- `t2d[argmax]`: whether the likeliest token is in the draft vocabulary. -/
  inDraft : R → Bool
  /-- The row with `1 / draft_vocab_size` in every column. -/
  uniform : P

def TargetHead.computeTargetPPadded (head : TargetHead R P) (target : List R)
    (lossMask : List Int) (length : Nat) : List P × List Int :=
  let targetP := target.map head.targetP
  let positionMask :=
    List.zipWith (fun row m => ((head.inDraft row).toNat : Int) * m) target lossMask
  (targetP ++ List.replicate length head.uniform, positionMask)

structure StepState (D P : Type) where
  inputIds : List Int
  hiddenStates : List D
  positionIds : Option (List Nat)
  attentionMask : List Int
  targetP : List P
  positionMask : List Int
  lossMask : List Int
deriving DecidableEq, Repr

inductive Adapter where
  | sdpaLike
  | usp (spUlyssesDegree : Nat)

structure LoopState (D : Type) where
  globalInputIds : List Int
  positionMask : List Int
  lossMask : List Int
  hiddenStates : List D

structure LoopInput (P : Type) where
  attentionMask : List Int
  positionIds : Option (List Nat)
  targetPPadded : List P
  seqLength : Nat

def Adapter.stepView (adapter : Adapter) (input : LoopInput P) (idx tttLength : Nat)
    (s : LoopState D) : Except TrainError (StepState D P) :=
  match adapter with
  | .sdpaLike => .ok
      { inputIds := s.globalInputIds
        hiddenStates := s.hiddenStates
        positionIds := input.positionIds
        attentionMask := input.attentionMask
        targetP := (input.targetPPadded.drop idx).take input.seqLength
        positionMask := s.positionMask
        lossMask := s.lossMask }
  | .usp spUlyssesDegree =>
      let seqLength := input.seqLength
      let uspChunkSize := seqLength - tttLength
      if seqLength ≤ tttLength then .error (.valueError
        s!"USP local seq_length ({seqLength}) must be larger than ttt_length ({tttLength})")
      else .ok
        { inputIds := s.globalInputIds.take uspChunkSize
          hiddenStates := s.hiddenStates.take uspChunkSize
          positionIds := input.positionIds.map (·.take (uspChunkSize * spUlyssesDegree))
          attentionMask := input.attentionMask.take uspChunkSize
          targetP := (input.targetPPadded.drop idx).take uspChunkSize
          positionMask := s.positionMask.take uspChunkSize
          lossMask := s.lossMask.take uspChunkSize }

/-- The end of a round: new hidden states, and everything else one to the left. -/
def LoopState.shift (s : LoopState D) (hiddenStates : List D) : LoopState D :=
  { globalInputIds := padding s.globalInputIds false
    positionMask := padding s.positionMask false
    lossMask := padding s.lossMask false
    hiddenStates }

/-- `rounds` rounds of the loop, of which the first has index `idx`. Nothing moves after the
last one. -/
def tttLoop (adapter : Adapter) (backbone : Nat → StepState D P → List D) (input : LoopInput P)
    (tttLength : Nat) : Nat → Nat → LoopState D → Except TrainError (List (StepState D P))
  | 0, _, _ => .ok []
  | rounds + 1, idx, s => do
      let state ← adapter.stepView input idx tttLength s
      let hiddenStates := backbone idx state
      let isLast := idx = tttLength - 1
      let s := if isLast then { s with hiddenStates } else s.shift hiddenStates
      let states ← tttLoop adapter backbone input tttLength rounds (idx + 1) s
      .ok (state :: states)

/-- The draft model: how it projects the recorded rows, and its backbone in each round. -/
structure DraftModel (H D P : Type) where
  project : H → D
  backbone : Nat → StepState D P → List D

/-- What `forward` prepares before its loop. Without position ids the unsharded backends count
them from 0. -/
def loopInput (adapter : Adapter) (head : TargetHead R P) (length : Nat) (batch : Batch H R) :
    LoopInput P :=
  let seqLength := batch.hiddenState.length
  { attentionMask := batch.attentionMask
    positionIds := match adapter with
      | .usp _ => batch.positionIds
      | .sdpaLike => some (batch.positionIds.getD (List.range seqLength))
    targetPPadded := (head.computeTargetPPadded batch.target batch.lossMask length).1
    seqLength }

/-- `OnlineEagle3Model.forward`, up to what the rounds are given to compute on. -/
def forward (adapter : Adapter) (head : TargetHead R P) (model : DraftModel H D P) (length : Nat)
    (batch : Batch H R) : Except TrainError (List (StepState D P)) :=
  tttLoop adapter model.backbone (loopInput adapter head length batch) length length 0
    { globalInputIds := batch.inputIds
      positionMask := (head.computeTargetPPadded batch.target batch.lossMask length).2
      lossMask := batch.lossMask
      hiddenStates := batch.hiddenState.map model.project }

end SpecDecode.Training
