import SpecDecode.Lib.ZeroPad

/-!
# Loading one training sequence

`processData` and `processDataUsp` are the two ways `OfflineEagle3Dataset` turns a recorded
sequence into a batch of one: whole, or as the slice of one sequence-parallel rank with an
overlap of `tttLength` tokens. Tensors are lists along the sequence dimension (the batch
dimension is always 1); `H` and `R` are the types of one hidden-state row. The dataset is
built without a `transform`.
-/

namespace SpecDecode.Training

inductive TrainError where
  | keyError (message : String)
  | indexError
  | valueError (message : String)
deriving DecidableEq, Repr

/-- A recorded sequence: every array has one entry a token. -/
structure Sample (H R : Type) where
  inputIds : List Int
  lossMask : List Int
  auxHiddenState : Option (List H)
  hiddenState : List R
  lossMask_length : lossMask.length = inputIds.length
  hiddenState_length : hiddenState.length = inputIds.length
  auxHiddenState_length : ∀ aux, auxHiddenState = some aux → aux.length = inputIds.length

structure Batch (H R : Type) where
  hiddenState : List H
  target : List R
  inputIds : List Int
  lossMask : List Int
  attentionMask : List Int
  positionIds : Option (List Nat)
deriving DecidableEq, Repr

def clearLast (mask : List Int) : List Int := mask.set (mask.length - 1) 0

@[simp] theorem clearLast_length (mask : List Int) : (clearLast mask).length = mask.length :=
  List.length_set ..

variable {H R : Type} [Zero H] [Zero R]

def auxRequired : TrainError :=
  .keyError "aux_hidden_state is required for OfflineEagle3Dataset"

/-- `OfflineEagle3Dataset.process_data`. The mask is written without a guard, so an empty
sequence is an `IndexError`. -/
def processData (data : Sample H R) (maxLen : Nat) : Except TrainError (Batch H R) :=
  match data.auxHiddenState with
  | none => .error (.keyError "aux_hidden_state")
  | some aux =>
      let hiddenState := aux.take maxLen
      let target := data.hiddenState.take maxLen
      let inputIds := data.inputIds.take maxLen
      let lossMask := data.lossMask.take maxLen
      if lossMask.isEmpty then .error .indexError
      else .ok
        { hiddenState, target, inputIds
          lossMask := clearLast lossMask
          attentionMask := List.replicate lossMask.length 1
          positionIds := none }

/-- The slice of one rank: `globalLen`, `chunkSize`, `start`, `localLen` and `end` of
`process_data_usp`. -/
structure Shard where
  globalLen : Nat
  chunkSize : Nat
  start : Nat
  localLen : Nat
  stop : Nat
deriving DecidableEq, Repr

def shardOf (length maxLen tttLength spRank spSize : Nat) : Shard :=
  let globalLen := min maxLen length
  let chunkSize := (globalLen + spSize - 1) / spSize
  let start := spRank * chunkSize
  let localLen := chunkSize + tttLength
  { globalLen, chunkSize, start, localLen, stop := min (start + localLen) globalLen }

/-- `_slice_and_pad`: the rank's slice, filled up with zeros, and its length before that. -/
def Shard.sliceAndPad {α : Type} [Zero α] (s : Shard) (tensor : List α) : List α × Nat :=
  let tensor := tensor.take s.globalLen
  let sliced := (tensor.take (min s.stop tensor.length)).drop s.start
  let validLen := sliced.length
  if validLen < s.localLen then (sliced ++ List.replicate (s.localLen - validLen) 0, validLen)
  else (sliced, validLen)

/-- `OfflineEagle3Dataset.process_data_usp`, for `sp_size` and `sp_ring_size` at least 1. -/
def processDataUsp (data : Sample H R) (maxLen tttLength spRank spSize ringRank spRingSize : Nat) :
    Except TrainError (Batch H R) :=
  let s := shardOf data.inputIds.length maxLen tttLength spRank spSize
  match data.auxHiddenState with
  | none => .error auxRequired
  | some aux =>
      let hiddenState := (s.sliceAndPad aux).1
      let target := (s.sliceAndPad data.hiddenState).1
      let (inputIds, validLen) := s.sliceAndPad data.inputIds
      let lossMask := (s.sliceAndPad (clearLast (data.lossMask.take s.globalLen))).1
      let localLen := inputIds.length
      let attentionMask := List.replicate validLen 1 ++ List.replicate (localLen - validLen) 0
      let spUlyssesSize := max 1 (spSize / spRingSize)
      let uspChunkSize := localLen - tttLength
      let ringChunk := uspChunkSize * spUlyssesSize
      let ringStart := ringRank * ringChunk
      .ok
        { hiddenState, target, inputIds, lossMask, attentionMask
          positionIds := some (List.range' ringStart ringChunk) }

end SpecDecode.Training
