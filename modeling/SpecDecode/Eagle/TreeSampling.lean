import SpecDecode.Eagle.VerifyGreedy
import Mathlib.Algebra.Order.Field.Basic

/-!
# The CUDA kernel `TreeSpeculativeSamplingTargetOnly`

One block per request walks the draft tree from its root. At a node a coin accepts one of the
children: the target's probabilities of their tokens are added up in the order of the sibling list
until the sum reaches the coin. The last token is drawn from what the target gives to the tokens
that were not rejected.

Probabilities and coins are numbers of an ordered field, without the rounding of the device. Each
`BlockReduce` is a sum. `DeviceSamplingFromProb` is a parameter: a block of threads that looks for
a sample in one chunk of the vocabulary.
-/

namespace SpecDecode.Eagle

open Launch

variable {K : Type}

structure SampleTemp where
  sampledId : Nat
  lastValidId : Int
deriving DecidableEq, Repr

/-- `DeviceSamplingFromProb` with the predicate `x > 0`: chunk `i` of a vocabulary of size `d`, the
scaled coin, the weights of the chunk, the sum of the chunks before it and the storage. It gives
the sum with the chunk and the storage. -/
abbrev DeviceSampler (K : Type) :=
  (i d : Nat) → (u : K) → (probs : List K) → (aggregate : K) → SampleTemp → K × SampleTemp

/-- The read-only arguments of the kernel, flattened over the batch. -/
structure SampleArgs (K : Type) where
  candidates : Nat → Int
  retriveIndex : Nat → Int
  retriveNextToken : Nat → Int
  retriveNextSibling : Nat → Int
  uniformSamples : Nat → K
  uniformSamplesForFinalSampling : Nat → K
  targetProbs : Nat → K
  numSpeculativeTokens : Nat
  numDraftTokens : Nat
  d : Nat
  thresholdSingle : K
  thresholdAcc : K

/-- The buffers the kernel writes. -/
structure SampleBuffers (K : Type) extends VerifyBuffers where
  draftProbs : Nat → K

structure SampleWalk (K : Type) extends Walk where
  probAcc : K
  curProbOffset : Nat
  coin : K
  draftProbs : Nat → K

namespace SampleArgs

variable [Field K] [LinearOrder K] (a : SampleArgs K)

def acceptNode (bx : Nat) (curIndex draftTokenId : Int) (w : SampleWalk K) : SampleWalk K where
  toWalk := w.toWalk.accept (bx * a.numSpeculativeTokens) draftTokenId
    (a.retriveIndex (bx * a.numDraftTokens + curIndex.toNat))
  probAcc := 0
  curProbOffset := (bx * a.numDraftTokens + curIndex.toNat) * a.d
  coin := a.uniformSamples (bx * a.numDraftTokens + curIndex.toNat)
  draftProbs := w.draftProbs

/-- The `while (cur_index != -1)` loop: where it stops, with the variables there. -/
def scanSiblings (bx : Nat) : Nat → Int → SampleWalk K → Option (Int × SampleWalk K)
  | 0, _, _ => none
  | fuel + 1, curIndex, w =>
      if curIndex = -1 then some (-1, w)
      else
        let draftTokenId := a.candidates (bx * a.numDraftTokens + curIndex.toNat)
        let targetProbSingle := a.targetProbs (w.curProbOffset + draftTokenId.toNat)
        let probAcc := w.probAcc + targetProbSingle
        if w.coin ≤ probAcc / a.thresholdAcc ∨ a.thresholdSingle ≤ targetProbSingle then
          some (curIndex, a.acceptNode bx curIndex draftTokenId w)
        else
          scanSiblings bx fuel (a.retriveNextSibling (bx * a.numDraftTokens + curIndex.toNat))
            { w with
              probAcc := probAcc
              draftProbs := Function.update w.draftProbs (w.curProbOffset + draftTokenId.toNat)
                (a.targetProbs (w.curProbOffset + draftTokenId.toNat)) }

/-- The `for` loop over `j`, with `count` rounds to go. -/
def walkTree (bx : Nat) : (count : Nat) → (curIndex : Int) → SampleWalk K → Option (SampleWalk K)
  | 0, _, w => some w
  | count + 1, curIndex, w =>
      match a.scanSiblings bx (a.numDraftTokens + 1)
          (a.retriveNextToken (bx * a.numDraftTokens + curIndex.toNat)) w with
      | none => none
      | some (curIndex, w) => if curIndex = -1 then some w else walkTree bx count curIndex w

/-- The variables before the loop. -/
def start (bx : Nat) (b : SampleBuffers K) : SampleWalk K where
  toWalk := b.toVerifyBuffers.start (bx * a.numSpeculativeTokens)
    (a.retriveIndex (bx * a.numDraftTokens))
  probAcc := 0
  curProbOffset := bx * a.numDraftTokens * a.d
  coin := a.uniformSamples (bx * a.numDraftTokens)
  draftProbs := b.draftProbs

/-- `max(q - p, 0)` of a token; there are no draft probabilities for the bonus token. -/
def reluQMinusP (w : SampleWalk K) (token : Nat) : K :=
  max (a.targetProbs (w.curProbOffset + token) -
    if w.numAccepted ≠ a.numSpeculativeTokens - 1 then w.draftProbs
      (w.curProbOffset + token) else 0) 0

def blockThreads : Nat := 1024

/-- `gcd(16 / sizeof(DType), d)` for `float`. -/
def vecSize : Nat := Nat.gcd 4 a.d

/-- What the threads load of chunk `i`: each one `VEC_SIZE` tokens, or zeros behind the end. -/
def chunk (w : SampleWalk K) (i : Nat) : List K :=
  (List.range (blockThreads * a.vecSize)).map fun k =>
    if (i * blockThreads + k / a.vecSize) * a.vecSize < a.d then
      a.reluQMinusP w (i * (blockThreads * a.vecSize) + k)
    else 0

def numChunks : Nat := (a.d + blockThreads * a.vecSize - 1) / (blockThreads * a.vecSize)

def sumRelu (w : SampleWalk K) : K :=
  ((List.range a.numChunks).map fun i => (a.chunk w i).sum).foldl (· + ·) 0

/-- The loop that samples: it stops behind the chunk in which the sum passes `u`. -/
def sampleLoop (sampler : DeviceSampler K) (w : SampleWalk K) (u : K) :
    List Nat → K → SampleTemp → SampleTemp
  | [], _, temp => temp
  | i :: chunks, aggregate, temp =>
      let (aggregate, temp) := sampler i a.d u (a.chunk w i) aggregate temp
      if u < aggregate then temp else sampleLoop sampler w u chunks aggregate temp

def finalSample (sampler : DeviceSampler K) (bx : Nat) (w : SampleWalk K) : Int :=
  let coin := a.uniformSamplesForFinalSampling bx
  let u := coin * a.sumRelu w
  let temp := a.sampleLoop sampler w u (List.range a.numChunks) 0 ⟨a.d, -1⟩
  if temp.sampledId = a.d then
    if temp.lastValidId = -1 then a.d - 1 else temp.lastValidId
  else temp.sampledId

def treeSampling (sampler : DeviceSampler K) (bx : Nat) (b : SampleBuffers K) :
    Option (SampleBuffers K) :=
  match a.walkTree bx (a.numSpeculativeTokens - 1) 0 (a.start bx b) with
  | none => none
  | some w => some ⟨w.toWalk.finish bx (a.finalSample sampler bx w), w.draftProbs⟩

def capped : SampleArgs K := { a with thresholdAcc := max a.thresholdAcc (1 / 10 ^ 9) }

/-- The launch of the kernel over a batch. -/
def launchSampling (sampler : DeviceSampler K) (batchSize : Nat) (b : SampleBuffers K) :
    Option (SampleBuffers K) :=
  launch (a.capped.treeSampling sampler) (List.range batchSize) b

end SampleArgs

/-- A sampler that searches the chunk as `DeviceSamplingFromProb` is documented to: the first token
at which the running sum passes `u`, if it comes before the one that was found already, and the
last token with a positive weight. -/
def searchChunk [Field K] [LinearOrder K] : DeviceSampler K := fun i d u probs aggregate temp =>
  let valid := (List.range probs.length).filter fun k =>
    decide (0 < probs.getD k 0 ∧ i * probs.length + k < d)
  let passed := valid.find? fun k => decide (u < aggregate + (probs.take (k + 1)).sum)
  (aggregate + probs.sum,
    ⟨(passed.elim temp.sampledId fun k => min temp.sampledId (i * probs.length + k)),
      (valid.getLast?.elim temp.lastValidId fun k => ((i * probs.length + k : Nat) : Int))⟩)

end SpecDecode.Eagle
