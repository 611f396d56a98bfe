import Mathlib.Algebra.Order.Ring.Int
import Mathlib.Data.Rat.Floor
import Mathlib.Tactic.Linarith

/-!
# The budgets of a prefill batch

A `PrefillAdder` is made for one scheduling round and decides which waiting requests join the
prefill batch. It keeps what is left of the token budgets, while the sizes of the memory pool and
of the radix cache are read when they are needed. Requests are objects: the batch and the lists
hold their identities, and a store has their fields. The ratios and times are rationals.
-/

namespace SpecDecode.Admission

/-- The fields of a request that admission reads or sets. -/
structure Req where
  originInputIds : List Int
  outputIds : List Int
  fillIds : List Int
  prefixIndices : List Nat
  extendInputLen : Int
  hostHitLength : Int
  lastNode : Option Nat
  maxNewTokens : Int
  ignoreEos : Bool
  priority : Int
  waitQueueEntryTime : ℚ
  hasInputEmbeds : Bool
  finished : Bool
deriving Repr, DecidableEq

/-- The fields of every request object. -/
abbrev Store := Nat → Req

inductive AddReqResult where
  | continue
  | noToken
  | other
deriving Repr, DecidableEq

def clipMaxNewTokens : Int := 4096

def ignoreEosReserveTokens : Int := 1

structure Dllm where
  remDllmTokens : Int
  dllmBlockSize : Int
deriving Repr, DecidableEq

/-- The sizes that are read from the allocator and the tree cache: what is available together
with what can be evicted, in the full pool and in the sliding window pool. -/
structure Sizes where
  full : Int
  swa : Int
  slidingWindowSize : Int
deriving Repr, DecidableEq

structure PrefillAdder where
  pageSize : Nat
  isHybridSwa : Bool
  runningBatch : List Nat
  newTokenRatio : ℚ
  remInputTokens : Int
  remChunkTokens : Option Int
  dllm : Option Dllm
  remTotalTokenOffset : ℚ
  curRemTokenOffset : Int
  remSwaTokenOffset : Int
  reqStates : Option (List (ℚ × Int))
  canRunList : List Nat
  preemptList : List Nat
  newChunkedReq : Option Nat
  preemptionThreshold : Int
deriving Repr, DecidableEq

namespace PrefillAdder

def runningRequestOffset (newTokenRatio : ℚ) (r : Req) : ℚ :=
  (min (r.maxNewTokens - r.outputIds.length) clipMaxNewTokens : Int) * newTokenRatio

/-- `__init__`; a missing running batch has no requests. -/
def init (store : Store) (pageSize : Nat) (isHybridSwa : Bool) (runningBatch : List Nat)
    (newTokenRatio : ℚ) (remInputTokens : Int) (remChunkTokens : Option Int)
    (numMixedDecodeTokens : Int) (dllm : Option Dllm) (preemptionThreshold : Int) :
    PrefillAdder where
  pageSize := pageSize
  isHybridSwa := isHybridSwa
  runningBatch := runningBatch
  newTokenRatio := newTokenRatio
  remInputTokens := remInputTokens - numMixedDecodeTokens
  remChunkTokens := remChunkTokens.map (· - numMixedDecodeTokens)
  dllm := dllm
  remTotalTokenOffset := numMixedDecodeTokens +
    (runningBatch.map fun r => runningRequestOffset newTokenRatio (store r)).sum
  curRemTokenOffset := numMixedDecodeTokens
  remSwaTokenOffset := 0
  reqStates := none
  canRunList := []
  preemptList := []
  newChunkedReq := none
  preemptionThreshold := preemptionThreshold

variable (a : PrefillAdder) (sizes : Sizes)

def remTotalTokens : ℚ := sizes.full - a.remTotalTokenOffset

def curRemTokens : Int := sizes.full - a.curRemTokenOffset

def remSwaTokens : Int := sizes.swa - a.remSwaTokenOffset

def swaBudgetForReq (extendInputLen : Int) : Int :=
  let alloc :=
    match a.remChunkTokens with
    | some remChunkTokens => min extendInputLen remChunkTokens
    | none => extendInputLen
  max alloc sizes.slidingWindowSize + a.pageSize

def ceilPagedTokens (tokens : Int) : Int := -((-tokens).fdiv a.pageSize) * a.pageSize

def budgetState : AddReqResult :=
  if a.remTotalTokens sizes ≤ 0 ∨ a.curRemTokens sizes ≤ 0 ∨
      (a.isHybridSwa ∧ a.remSwaTokens sizes ≤ 0) then .noToken
  else if a.remInputTokens ≤ 0 then .other
  else
    match a.dllm with
    | some d => if d.remDllmTokens ≤ 0 then .other else .continue
    | none =>
        match a.remChunkTokens with
        | some remChunkTokens => if remChunkTokens ≤ 0 then .other else .continue
        | none => .continue

def updatePrefillBudget (extendInputLen maxNewTokens : Int) : PrefillAdder :=
  let extendInputLen := a.ceilPagedTokens extendInputLen
  { a with
    remTotalTokenOffset := a.remTotalTokenOffset +
      (extendInputLen + maxNewTokens + a.pageSize : Int)
    curRemTokenOffset := a.curRemTokenOffset + (extendInputLen + a.pageSize)
    remInputTokens := a.remInputTokens - extendInputLen
    remSwaTokenOffset :=
      if a.isHybridSwa then a.remSwaTokenOffset + a.swaBudgetForReq sizes extendInputLen
      else a.remSwaTokenOffset
    dllm := a.dllm.map fun d => { d with remDllmTokens := d.remDllmTokens - extendInputLen }
    remChunkTokens :=
      if a.dllm.isSome then a.remChunkTokens else a.remChunkTokens.map (· - extendInputLen) }

end PrefillAdder

/-- `l[:n]`, where a negative `n` counts from the end. -/
def sliceTo {α : Type} (l : List α) (n : Int) : List α :=
  if n < 0 then l.take (l.length - n.natAbs) else l.take n.toNat

def Store.set (store : Store) (id : Nat) (r : Req) : Store := Function.update store id r

end SpecDecode.Admission
