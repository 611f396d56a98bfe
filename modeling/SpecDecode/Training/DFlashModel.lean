import SpecDecode.Training.DFlashAnchors
import SpecDecode.Training.DFlashMask

/-!
# What a DFlash training step feeds to the draft model

The queries are noise tokens, one block for each sampled anchor: the anchor's own token and mask
tokens behind it. A query attends to the hidden states of the target model and to the noise
tokens that the mask shows it, each with its position. The labels are the tokens at the
positions of the block.
-/

namespace SpecDecode.Training.DFlash

open Ragged

/-- The settings of `OnlineDFlashModel`; `decayWeights` is the decay of the loss over the
positions of a block, where there is one. -/
structure OnlineDFlashModel where
  blockSize : Nat
  maskTokenId : Int
  numAnchors : Nat
  flexAttention : Bool
  decayWeights : Option (Nat → ℚ)

structure Row (H : Type) where
  inputIds : List Int
  hiddenStates : List H
  lossMask : List ℚ
deriving DecidableEq

structure Batch (H : Type) where
  seqLen : Nat
  rows : List (Row H)
  inputIds_length : ∀ r ∈ rows, r.inputIds.length = seqLen
  hiddenStates_length : ∀ r ∈ rows, r.hiddenStates.length = seqLen
  lossMask_length : ∀ r ∈ rows, r.lossMask.length = seqLen

/-- A sequence with its sampled blocks. -/
structure Sampled (H : Type) where
  row : Row H
  anchorPositions : List Nat
  blockKeepMask : List Bool
deriving DecidableEq

variable {H : Type}

namespace OnlineDFlashModel

variable (m : OnlineDFlashModel)

/-- The loss masks of a batch, as the sampling slices them. -/
def validRows (batch : Batch H) : List (List Bool) :=
  (batch.rows.map Row.lossMask).map (validPositions · (batch.seqLen - m.blockSize))

/-- The first step of `forward`. -/
def sample (batch : Batch H) (draw : Draw (batch.seqLen - m.blockSize + 1) (m.validRows batch)) :
    Except SampleError (List (Sampled H)) :=
  (sampleAnchorPositions m.blockSize m.numAnchors batch.seqLen (batch.rows.map Row.lossMask)
    draw).map fun anchors => batch.rows.zipWith (fun row a => ⟨row, a.1, a.2⟩) anchors

/-- The `noise_ids` of `_create_noise_embed`. -/
def noiseIds (x : Sampled H) : List Int :=
  let n := x.anchorPositions.length
  let validAnchorPositions := x.anchorPositions.map (min · (x.row.inputIds.length - 1))
  let anchorTokens := validAnchorPositions.map fun a => x.row.inputIds.getD a 0
  let starts := x.blockKeepMask.zipWith (fun keep token => if keep then token else m.maskTokenId)
    anchorTokens
  (List.range n).foldl (fun ids j => ids.set (j * m.blockSize) (starts.getD j m.maskTokenId))
    (List.replicate (n * m.blockSize) m.maskTokenId)

def createPositionIds (anchorPositions : List Nat) : List Nat :=
  anchorPositions.flatMap fun a => (List.range m.blockSize).map (a + ·)

/-- `full_position_ids`: the context's and behind them the blocks'. -/
def fullPositionIds (x : Sampled H) : List Nat :=
  List.range x.row.inputIds.length ++ m.createPositionIds x.anchorPositions

def attentionMask (x : Sampled H) : Nat → Nat → Bool :=
  if m.flexAttention then
    dflashMaskMod x.anchorPositions x.blockKeepMask x.row.inputIds.length m.blockSize
  else createDflashSdpaMask x.anchorPositions x.blockKeepMask x.row.inputIds.length m.blockSize

/-- What query `qIdx` attends to when the blocks hold `noise`: the visible ones of the
concatenated keys, with their positions. -/
def attended {β : Type} (x : Sampled H) (noise : List β) (qIdx : Nat) :
    List (Option (H ⊕ β) × Option Nat) :=
  let keys := x.row.hiddenStates.map Sum.inl ++ noise.map Sum.inr
  let kvLen := x.row.inputIds.length + x.anchorPositions.length * m.blockSize
  ((List.range kvLen).filter (m.attentionMask x qIdx)).map fun kvIdx =>
    (keys[kvIdx]?, (m.fullPositionIds x)[kvIdx]?)

/-- The position of a query. -/
def queryPosition (x : Sampled H) (qIdx : Nat) : Option Nat :=
  (m.fullPositionIds x)[x.row.inputIds.length + qIdx]?

def labelIndex (x : Sampled H) (j k : Nat) : Nat := x.anchorPositions.getD j 0 + k

def safeLabelIndex (x : Sampled H) (j k : Nat) : Nat :=
  min (labelIndex x j k) (x.row.inputIds.length - 1)

/-- An entry of `target_ids`. -/
def targetId (x : Sampled H) (j k : Nat) : Option Int := x.row.inputIds[safeLabelIndex x j k]?

/-- An entry of `weight_mask`. -/
def weightMask (x : Sampled H) (j k : Nat) : ℚ :=
  let weight := if x.blockKeepMask.getD j false then 1 else 0
  let weight := weight * if labelIndex x j k < x.row.inputIds.length then 1 else 0
  let weight := weight * if k > 0 then 1 else 0
  let weight := weight * x.row.lossMask.getD (safeLabelIndex x j k) 0
  weight * m.decayWeights.elim 1 fun decay => decay k

/-- A layer of the draft model: what it makes of a token, its position and what it attends to. -/
abbrev Layer (H β : Type) := β → Option Nat → List (Option (H ⊕ β) × Option Nat) → β

def layerStep {β : Type} (x : Sampled H) (states : List β) (layer : Layer H β) : List β :=
  states.zipIdx.map fun s => layer s.1 (m.queryPosition x s.2) (m.attended x states s.2)

/-- All layers, on the embedded noise tokens. -/
def draftHidden {β : Type} (embedTokens : Int → β) (layers : List (Layer H β)) (x : Sampled H) :
    List β :=
  layers.foldl (m.layerStep x) ((m.noiseIds x).map embedTokens)

end OnlineDFlashModel

end SpecDecode.Training.DFlash
