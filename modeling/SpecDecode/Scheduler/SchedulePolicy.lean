import SpecDecode.MemCache.RadixChildren
import SpecDecode.Scheduler.Preempt
import Mathlib.Algebra.Order.Monoid.Unbundled.WithTop
import Mathlib.Data.List.Sort
import Mathlib.Data.Prod.Lex
import Mathlib.Data.String.Basic
import Mathlib.Order.WithBot

/-!
# The order of the waiting queue

`calc_priority` reorders the waiting queue in place. The cache-aware policies first match every
request with the tree cache, which records the matched prefix and its last node in the request
and may split nodes. Sorting is stable. A call of a cache reads the clock; the readings are given
by the number of the call. The draws of `random.shuffle` are given as well.
-/

namespace SpecDecode.Admission

open MemCache

structure QueuedReq extends Req where
  rid : String
  extraKey : Option String
  routingKey : Option String

def QueuedReq.unmatched (r : QueuedReq) : QueuedReq :=
  { r with prefixIndices := [], lastNode := none, hostHitLength := 0 }

/-- `CacheAwarePolicy` and `CacheAgnosticPolicy`. -/
inductive Policy where
  | lpm
  | dfsWeight
  | fcfs
  | lof
  | random
  | routingKey
deriving Repr, DecidableEq

def Policy.isCacheAware (policy : Policy) : Bool := policy = .lpm || policy = .dfsWeight

structure SchedulePolicy where
  policy : Policy
  treeCache : CacheParams
  enabled : policy.isCacheAware → treeCache.disable = false
  enablePriorityScheduling : Bool
  prioritySign : Int
  inBatchPrefixCachingCheckThreshold : Int
  inBatchPrefixCachingDeprioritizeThreshold : Int

/-- What ordering the queue changes besides the queue: the fields of the requests, the tree cache
and `waiting_queue_radix_tree`. -/
structure Matching where
  reqs : Nat → QueuedReq
  tree : RadixCache Nat
  waiting : RadixCache Unit

/-- `RadixCache.create_simulated`. -/
def simulated : CacheParams where
  disable := false
  pageSize := 1
  isEagle := false
  evictionPolicy := .lru

namespace SchedulePolicy

def validateAndAdjustPolicy (policy : String) (treeCache : CacheParams) : Option Policy :=
  if policy = "lpm" then some (if treeCache.disable then .fcfs else .lpm)
  else if policy = "dfs-weight" then some (if treeCache.disable then .fcfs else .dfsWeight)
  else if policy = "fcfs" then some .fcfs
  else if policy = "lof" then some .lof
  else if policy = "random" then some .random
  else if policy = "routing-key" then some .routingKey
  else none

/-- No policy that looks at the tree cache is left if the cache is disabled. -/
private theorem enabled_of_validate {name : String} {treeCache : CacheParams} {policy : Policy}
    (h : validateAndAdjustPolicy name treeCache = some policy) (haware : policy.isCacheAware) :
    treeCache.disable = false := by
  by_contra hoff
  have hoff : treeCache.disable = true := by simpa using hoff
  have hnone : policy ≠ .lpm ∧ policy ≠ .dfsWeight := by
    simp only [validateAndAdjustPolicy, hoff, if_true] at h
    split_ifs at h <;> exact Option.some.inj h ▸ ⟨nofun, nofun⟩
  simp [Policy.isCacheAware, hnone.1, hnone.2] at haware

/-- `SchedulePolicy.__init__`. -/
def init (policy : String) (treeCache : CacheParams) (enablePriorityScheduling : Bool)
    (scheduleLowPriorityValuesFirst : Bool) : Option SchedulePolicy :=
  match h : validateAndAdjustPolicy policy treeCache with
  | none => none
  | some policy => some
      { policy := policy
        treeCache := treeCache
        enabled := enabled_of_validate h
        enablePriorityScheduling := enablePriorityScheduling
        prioritySign := PrefillAdder.prioritySign scheduleLowPriorityValuesFirst
        inBatchPrefixCachingCheckThreshold := 32
        inBatchPrefixCachingDeprioritizeThreshold := 32 }

def determineActivePolicy (p : SchedulePolicy) (waitingQueue : List Nat) : Policy :=
  if p.policy = .lpm && 128 < waitingQueue.length then .fcfs else p.policy

/-- The key of `origin_input_ids + output_ids`. -/
def prefixKey (r : QueuedReq) : RadixKey := ⟨r.originInputIds ++ r.outputIds, r.extraKey, false⟩

def matchPrefixForReq (c : CacheParams) (now r : Nat) (m : Matching) : Option Matching :=
  (m.tree.matchPrefix c (prefixKey (m.reqs r)) now).map fun (result, tree) =>
    { m with
      reqs := Function.update m.reqs r { m.reqs r with
        prefixIndices := result.deviceIndices
        lastNode := some result.lastDeviceNode
        hostHitLength := 0 }
      tree := tree }

/-- The check for a prefix that requests in front share: is the request deprioritized, and
otherwise its prefix is inserted. -/
def checkInBatch (p : SchedulePolicy) (now now' r : Nat) (m : Matching) :
    Option (Bool × Matching) :=
  let key := prefixKey (m.reqs r)
  (m.waiting.matchPrefix simulated key now).bind fun (result, waiting) =>
    if p.inBatchPrefixCachingDeprioritizeThreshold ≤ result.deviceIndices.length then
      some (true, { m with waiting := waiting })
    else
      (waiting.insert simulated key (.replicate key.tokenIds.length ()) 0 false now').map
        fun (_, waiting) => (false, { m with waiting := waiting })

/-- The loop of `_compute_prefix_matches`, from the request with number `i` on. -/
def computeLoop (p : SchedulePolicy) (clock : Nat → Nat) : Nat → List Nat → List String →
    Matching → Option (List String × Matching)
  | _, [], deprioritized, m => some (deprioritized, m)
  | i, r :: rest, deprioritized, m =>
      (matchPrefixForReq p.treeCache (clock (3 * i + 1)) r m).bind fun m =>
        if (m.reqs r).prefixIndices.length ≤ p.inBatchPrefixCachingCheckThreshold then
          (p.checkInBatch (clock (3 * i + 2)) (clock (3 * i + 3)) r m).bind fun (shared, m) =>
            computeLoop p clock (i + 1) rest
              (if shared then (m.reqs r).rid :: deprioritized else deprioritized) m
        else computeLoop p clock (i + 1) rest deprioritized m

def computePrefixMatches (p : SchedulePolicy) (clock : Nat → Nat) (waitingQueue : List Nat)
    (m : Matching) : Option (List String × Matching) :=
  p.computeLoop clock 0 waitingQueue [] { m with waiting := .new (clock 0) }

def sortBy {κ : Type} [LE κ] [DecidableLE κ] (key : Nat → κ) (queue : List Nat) : List Nat :=
  queue.insertionSort fun x y => key x ≤ key y

def sortByLongestPrefix (reqs : Nat → QueuedReq) (deprioritized : List String) :
    List Nat → List Nat :=
  @sortBy (WithTop Int) WithTop.instLE WithTop.decidableLE fun r =>
    if (reqs r).rid ∉ deprioritized then ((-(reqs r).prefixIndices.length : Int) : WithTop Int)
    else ⊤

def sortByLongestOutput (reqs : Nat → QueuedReq) (enablePriorityScheduling : Bool) (sign : Int) :
    List Nat → List Nat :=
  if enablePriorityScheduling then
    sortBy fun r => toLex ((reqs r).priority * sign, -(reqs r).maxNewTokens)
  else sortBy fun r => -(reqs r).maxNewTokens

def sortByPriorityAndFcfs (reqs : Nat → QueuedReq) (sign : Int) : List Nat → List Nat :=
  sortBy fun r => toLex ((reqs r).priority * sign, (reqs r).waitQueueEntryTime)

/-- `x[i], x[j] = x[j], x[i]`. -/
def exchange (i j : Nat) (queue : List Nat) : List Nat :=
  if h : i < queue.length ∧ j < queue.length then
    (queue.set i (queue.get ⟨j, h.2⟩)).set j (queue.get ⟨i, h.1⟩)
  else queue

/-- The loop of `random.shuffle`, where `draw i` is drawn for the place `i`. -/
def shuffleLoop (draw : Nat → Nat) : Nat → List Nat → List Nat
  | 0, queue => queue
  | i + 1, queue => shuffleLoop draw i (exchange (i + 1) (draw (i + 1) % (i + 2)) queue)

def sortRandomly (draw : Nat → Nat) (queue : List Nat) : List Nat :=
  shuffleLoop draw (queue.length - 1) queue

def runningKeys (reqs : Nat → QueuedReq) (running : List Nat) : List String :=
  (running.filterMap fun r => (reqs r).routingKey).filter (· ≠ "")

def routingSortKey (keys : List String) (key : String) : Nat ×ₗ Int ×ₗ String :=
  if key ≠ "" && key ∈ keys then toLex (0, toLex (-(keys.count key : Int), key))
  else toLex (1, toLex (0, key))

def sortByRoutingKey (reqs : Nat → QueuedReq) (running queue : List Nat) : List Nat :=
  let keys := runningKeys reqs running
  if keys = [] then queue
  else sortBy (fun r => routingSortKey keys ((reqs r).routingKey.getD "")) queue

def lastNodeToReqs (reqs : Nat → QueuedReq) (queue : List Nat) (node : Nat) : List Nat :=
  queue.filter fun r => (reqs r).lastNode = some node

def sortByDfsWeight (m : Matching) (queue : List Nat) : Option (List Nat) :=
  let own := lastNodeToReqs m.reqs queue
  let fuel := m.tree.counter + 1
  (WeightedOrder.calcWeight m.tree.childNodes fuel m.tree.rootNode fun v =>
    (own v).length).bind fun weight =>
      WeightedOrder.dfsOrder m.tree.childNodes weight own fuel m.tree.rootNode []

/-- `calc_priority`: were prefixes computed, the queue, and what else has changed. -/
def calcPriority (p : SchedulePolicy) (clock draw : Nat → Nat) (running : Option (List Nat))
    (waitingQueue : List Nat) (m : Matching) : Option (Bool × List Nat × Matching) :=
  if p.policy = .fcfs then
    some (false, if p.enablePriorityScheduling then
      sortByPriorityAndFcfs m.reqs p.prioritySign waitingQueue else waitingQueue, m)
  else
    match p.determineActivePolicy waitingQueue with
    | .lpm => (p.computePrefixMatches clock waitingQueue m).map fun (deprioritized, m) =>
        (true, sortByLongestPrefix m.reqs deprioritized waitingQueue, m)
    | .dfsWeight => (p.computePrefixMatches clock waitingQueue m).bind fun (_, m) =>
        (sortByDfsWeight m waitingQueue).map fun queue => (true, queue, m)
    | .fcfs => some (false, waitingQueue, m)
    | .lof => some (false, sortByLongestOutput m.reqs p.enablePriorityScheduling p.prioritySign
        waitingQueue, m)
    | .random => some (false, sortRandomly draw waitingQueue, m)
    | .routingKey => some (false, match running with
        | none => waitingQueue
        | some running => sortByRoutingKey m.reqs running waitingQueue, m)

end SchedulePolicy

end SpecDecode.Admission
