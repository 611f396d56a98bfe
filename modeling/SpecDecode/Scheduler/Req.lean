import Mathlib.Data.List.Infix
import Mathlib.Tactic.Common

/-!
# When a request is finished

A request collects output tokens until `check_finished` finds a reason to stop: an abort, the
length limit, a terminated grammar, a stop token, a token outside of the vocabulary or a stop
string, looked for in this order. Speculative decoding appends several tokens at once, so
`finished_len` says how many of them count.

The grammar, the tokenizer's `decode` and `re.search` are parameters. A set of token ids is a
list; `next(iter(..))` is its head, and `None` is the empty list.
-/

namespace SpecDecode.Scheduler

/-- What a request calls. -/
structure Env (σ : Type) where
  /-- `grammar.accept_token`, `none` if it raises a `ValueError`. -/
  acceptToken : σ → Int → Option σ
  isTerminated : σ → Bool
  /-- `tokenizer.decode`. -/
  decode : List Int → String
  /-- `re.search`. -/
  search : String → String → Bool

inductive FinishReason where
  | matchedToken (matched : Int)
  | matchedStr (matched : String)
  | matchedRegex (matched : String)
  | length (length : Nat)
  | abort (message : String)
  deriving DecidableEq, Repr

structure SamplingParams where
  maxNewTokens : Nat
  ignoreEos : Bool
  stopTokenIds : List Int
  stopStrs : List String
  stopRegexStrs : List String
  stopStrMaxLen : Nat
  stopRegexMaxLen : Nat
  deriving DecidableEq, Repr

/-- The stop tokens of a tokenizer. -/
structure Tokenizer where
  eosTokenId : Option Int
  additionalStopTokenIds : List Int
  deriving DecidableEq, Repr

structure Req (σ : Type) where
  samplingParams : SamplingParams
  tokenizer : Option Tokenizer
  eosTokenIds : List Int
  vocabSize : Nat
  outputIds : List Int
  decodedText : String
  grammar : Option σ
  finishedReason : Option FinishReason
  finishedLen : Option Nat
  toFinish : Option FinishReason
  requireReasoning : Bool
  isReasoningOver : Bool
  reasoningTokens : Nat
  deriving DecidableEq, Repr

namespace Req

variable {σ : Type} (env : Env σ) (r : Req σ)

def finished : Bool := r.finishedReason.isSome

def outputIdsThroughStop : List Int :=
  match r.finishedLen with
  | some n => r.outputIds.take n
  | none => r.outputIds

/-- `output_ids.extend`. -/
def extend (ts : List Int) : Req σ := { r with outputIds := r.outputIds ++ ts }

def updateReasoningTokens (tokenId thinkEndId : Int) : Req σ :=
  if r.isReasoningOver then r
  else if tokenId = thinkEndId then
    { r with reasoningTokens := r.reasoningTokens + 1, isReasoningOver := true }
  else { r with reasoningTokens := r.reasoningTokens + 1 }

/-- `tail_str`. -/
def tailStr : String :=
  let sp := r.samplingParams
  if sp.stopStrs.length = 0 ∧ sp.stopRegexStrs.length = 0 then ""
  else
    let maxLenTailStr := max (sp.stopStrMaxLen + 1) (sp.stopRegexMaxLen + 1)
    let tailLen := min maxLenTailStr r.outputIds.length
    env.decode (r.outputIds.drop (r.outputIds.length - tailLen))

def matchedEos (tokenId : Int) : Bool :=
  r.samplingParams.stopTokenIds.contains tokenId || r.eosTokenIds.contains tokenId ||
    match r.tokenizer with
    | none => false
    | some tokenizer =>
        tokenizer.eosTokenId == some tokenId || tokenizer.additionalStopTokenIds.contains tokenId

/-- `_check_token_based_finish`, `none` if it returns `False`. -/
def checkTokenBasedFinish (newAcceptedTokens : List Int) : Option (Req σ) :=
  if r.samplingParams.ignoreEos then none
  else
    (newAcceptedTokens.findIdx? r.matchedEos).map fun i =>
      let matchedPos := r.outputIds.length - newAcceptedTokens.length + i
      { r with
        finishedReason := some (.matchedToken (newAcceptedTokens.getD i 0))
        finishedLen := some (matchedPos + 1) }

def outsideVocab (tokenId : Int) : Bool := tokenId > r.vocabSize || tokenId < 0

/-- The output with a stop token, if there is one, at `offset`. -/
def withStopToken (offset : Nat) : List Int :=
  let outputIds := match r.samplingParams.stopTokenIds with
    | [] => r.outputIds
    | tokenId :: _ => r.outputIds.set offset tokenId
  match r.eosTokenIds with
  | [] => outputIds
  | tokenId :: _ => outputIds.set offset tokenId

def checkVocabBoundaryFinish (newAcceptedTokens : List Int) : Option (Req σ) :=
  (newAcceptedTokens.findIdx? r.outsideVocab).map fun i =>
    let offset := r.outputIds.length - newAcceptedTokens.length + i
    { r with
      outputIds := r.withStopToken offset
      finishedReason := some (.matchedStr "NaN happened")
      finishedLen := some (offset + 1) }

def checkStrBasedFinish : Option (Req σ) :=
  let tailStr := r.tailStr env
  let matchedStr := r.samplingParams.stopStrs.find? fun stopStr =>
    stopStr.toList <:+: tailStr.toList ∨ stopStr.toList <:+: r.decodedText.toList
  match matchedStr with
  | some stopStr => some { r with finishedReason := some (.matchedStr stopStr) }
  | none =>
      (r.samplingParams.stopRegexStrs.find? fun regex => env.search regex tailStr).map fun regex =>
        { r with finishedReason := some (.matchedRegex regex) }

/-- The grammar of the request is terminated. -/
def grammarTerminated : Bool :=
  match r.grammar with
  | none => false
  | some grammar => env.isTerminated grammar

def finishLength : Req σ :=
  { r with
    finishedReason := some (.length r.samplingParams.maxNewTokens)
    finishedLen := some r.samplingParams.maxNewTokens }

def checkFinished (newAcceptedLen : Nat) : Req σ :=
  if r.finished then r
  else
    match r.toFinish with
    | some reason => { r with finishedReason := some reason, toFinish := none }
    | none =>
        if r.samplingParams.maxNewTokens ≤ r.outputIds.length then r.finishLength
        else if r.grammarTerminated env then
          { r with finishedReason := some (.matchedToken (r.outputIds.getLastD 0)) }
        else
          let newAcceptedTokens := r.outputIds.drop (r.outputIds.length - newAcceptedLen)
          (r.checkTokenBasedFinish newAcceptedTokens <|>
            r.checkVocabBoundaryFinish newAcceptedTokens <|>
            r.checkStrBasedFinish env).getD r

variable {r}

@[simp] theorem withStopToken_length (offset : Nat) :
    (r.withStopToken offset).length = r.outputIds.length := by
  unfold withStopToken
  cases r.samplingParams.stopTokenIds <;> cases r.eosTokenIds <;> simp

theorem withStopToken_take {offset k : Nat} (hk : k ≤ offset) :
    (r.withStopToken offset).take k = r.outputIds.take k := by
  unfold withStopToken
  cases r.samplingParams.stopTokenIds <;> cases r.eosTokenIds <;> simp [List.take_set_of_le hk]

theorem checkFinished_abort (hfin : r.finishedReason = none) {reason : FinishReason}
    (hto : r.toFinish = some reason) (n : Nat) :
    r.checkFinished env n = { r with finishedReason := some reason, toFinish := none } := by
  unfold checkFinished
  rw [if_neg (by simp [finished, hfin])]
  split
  · next reason' heq =>
      cases hto.symm.trans heq
      rfl
  · next heq => cases hto.symm.trans heq

theorem checkFinished_eq (hfin : r.finishedReason = none) (hto : r.toFinish = none) (n : Nat) :
    r.checkFinished env n =
      if r.samplingParams.maxNewTokens ≤ r.outputIds.length then r.finishLength
      else if r.grammarTerminated env then
        { r with finishedReason := some (.matchedToken (r.outputIds.getLastD 0)) }
      else
        (r.checkTokenBasedFinish (r.outputIds.drop (r.outputIds.length - n)) <|>
          r.checkVocabBoundaryFinish (r.outputIds.drop (r.outputIds.length - n)) <|>
          r.checkStrBasedFinish env).getD r := by
  unfold checkFinished
  rw [if_neg (by simp [finished, hfin])]
  split
  · next reason heq => cases hto.symm.trans heq
  · rfl

end Req

end SpecDecode.Scheduler
