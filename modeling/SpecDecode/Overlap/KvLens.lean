import SpecDecode.Lib.Buffer
import Mathlib.Data.List.Nodup

/-!
# KV lengths of the overlapped speculative loop

The scheduler prepares the decode step of the next batch while the result of the last one
is still on its way, so it sizes the allocation from lengths that lag behind the device.
This is the part of the scheduler that keeps these lengths: `prepare_for_decode` of the
draft input, the processing of a result, prefill, retraction and release, in the order in
which `event_loop_overlap` takes them.

A request enters with the length of its last prefill chunk. Which requests are scheduled,
how many tokens the device accepts, which requests a result finishes and which slots the
allocator returns are the choices of an `Action`.
-/

namespace SpecDecode.Overlap

open Function Buffer

/-- What `get_alloc_len_per_decode` reads of `ServerArgs`. -/
structure ServerArgs where
  /-- `speculative_algorithm` is set. -/
  speculativeAlgorithm : Bool
  speculativeNumSteps : Option Nat
  speculativeEagleTopk : Option Nat
  speculativeNumDraftTokens : Nat
  pageSize : Nat

def orOne : Option Nat → Nat
  | none => 1
  | some 0 => 1
  | some (n + 1) => n + 1

/-- `get_alloc_len_per_decode`; `none` is the `NotImplementedError`. -/
def getAllocLenPerDecode (a : ServerArgs) : Option Nat :=
  if !a.speculativeAlgorithm then some 1
  else
    let specSteps := orOne a.speculativeNumSteps
    let specTopk := orOne a.speculativeEagleTopk
    if a.pageSize = 1 ∨ specTopk = 1 then
      some (max (specSteps * specTopk) a.speculativeNumDraftTokens)
    else none

/-- The KV side of a `Req`. `seqLen` is its entry of `batch.seq_lens`, which is on the
device; `resolvedLen` counts its prompt and the tokens of the results processed so far,
and `assigned` lists the stores into its row of `req_to_token` since it entered, as cells
of the flat table with their slots. -/
structure Req where
  reqPoolIdx : Option Nat
  kvCommittedLen : Nat
  kvAllocatedLen : Nat
  decodeBatchIdx : Nat
  finished : Bool
  isRetracted : Bool
  seqLen : Nat
  resolvedLen : Nat
  assigned : List (Nat × Nat)

/-- A request when it arrives. -/
def Req.new : Req where
  reqPoolIdx := none
  kvCommittedLen := 0
  kvAllocatedLen := 0
  decodeBatchIdx := 0
  finished := false
  isRetracted := false
  seqLen := 0
  resolvedLen := 0
  assigned := []

structure Claim where
  reqs : Nat → Req
  curKvLens : List Nat
  nxtKvLens : List Nat
  numNeededTokens : Int

def claimReq (doubleAlloc : Nat) (c : Claim) (i : Nat) : Claim :=
  let r := c.reqs i
  let cur := r.kvAllocatedLen
  let nxt := r.kvCommittedLen + doubleAlloc
  { reqs := update c.reqs i
      { r with
        kvAllocatedLen := nxt
        decodeBatchIdx := r.decodeBatchIdx + 1
        kvCommittedLen := r.kvCommittedLen + 1 }
    curKvLens := c.curKvLens ++ [cur]
    nxtKvLens := c.nxtKvLens ++ [nxt]
    numNeededTokens := c.numNeededTokens + ((nxt : Int) - cur) }

def claim (doubleAlloc : Nat) (reqs : Nat → Req) (batch : List Nat) : Claim :=
  batch.foldl (claimReq doubleAlloc) ⟨reqs, [], [], 0⟩

/-- The stores of program `pid` of `assign_req_to_token_pool`, block by block. -/
def assignReqToTokenPool (poolLen : Nat) (reqPoolIndices startOffset endOffset : Nat → Nat)
    (outCacheLoc : List Nat) (pid : Nat) : List (Nat × Nat) :=
  let kvStart := startOffset pid
  let kvEnd := endOffset pid
  let tokenPool := reqPoolIndices pid * poolLen
  let outOffset := ((List.range pid).map fun j => (endOffset j : Int) - startOffset j).sum
  let numLoop := (kvEnd - kvStart + 31) / 32
  (List.range numLoop).flatMap fun loop => (List.range 32).filterMap fun lane =>
    let offset := loop * 32 + lane
    if kvStart + offset < kvEnd then
      some (tokenPool + (kvStart + offset), outCacheLoc.getD (outOffset + offset).toNat 0)
    else none

/-- The program `pid` that `prepare_for_decode` launches. -/
def Claim.stores (poolLen : Nat) (c : Claim) (batch outCacheLoc : List Nat) (pid : Nat) :
    List (Nat × Nat) :=
  assignReqToTokenPool poolLen (fun pid => (c.reqs (batch.getD pid 0)).reqPoolIdx.getD 0)
    (c.curKvLens.getD · 0) (c.nxtKvLens.getD · 0) outCacheLoc pid

/-- `assign_req_to_token_pool_func` on the requests of a batch. -/
def assign (poolLen : Nat) (c : Claim) (batch outCacheLoc : List Nat) : Nat → Req :=
  updateEach (batch.getD · 0)
    (fun pid r => { r with assigned := r.assigned ++ c.stores poolLen batch outCacheLoc pid })
    (List.range batch.length) c.reqs

inductive Batch where
  | extend (reqs : List Nat)
  | decode (reqs : List Nat)

def Batch.reqs : Batch → List Nat
  | .extend reqs => reqs
  | .decode reqs => reqs

/-- What `result_queue` holds: the requests of a batch, of a decode batch with their
`accept_lens`. -/
inductive Result where
  | extend (reqs : List Nat)
  | decode (acceptLens : List (Nat × Nat))

/-- Where `event_loop_overlap` stands: before `get_next_batch_to_run`, before `run_batch`
or after it, and whether the last result was popped before the launch. -/
inductive Phase where
  | schedule
  | chosen (batch : Option Batch) (popped : Bool)
  | launched (batch : Bool) (popped : Bool)

structure State where
  reqs : Nat → Req
  /-- `free_slots` of the `ReqToTokenPool`. -/
  freeSlots : List Nat
  /-- `running_batch`. -/
  running : List Nat
  queue : List Result
  /-- `last_batch` is not `None`. -/
  lastBatch : Bool
  phase : Phase

/-- The scheduler after its start, with a pool of `size` rows. -/
def State.init (size : Nat) : State where
  reqs := fun _ => Req.new
  freeSlots := List.range' 1 size
  running := []
  queue := []
  lastBatch := false
  phase := .schedule

/-- A request whose tokens got the given slots, in `row`. -/
def Req.extend (poolLen row : Nat) (slots : List Nat) (r : Req) : Req :=
  { r with
    reqPoolIdx := some row
    kvCommittedLen := slots.length
    kvAllocatedLen := slots.length
    isRetracted := false
    seqLen := slots.length
    resolvedLen := slots.length
    assigned := (List.range slots.length).map fun k => (row * poolLen + k, slots.getD k 0) }

def extendReq (poolLen : Nat) (s : State) (p : Nat × List Nat) : Option State :=
  match s.freeSlots with
  | [] => none
  | row :: freeSlots => some
      { s with
        freeSlots := freeSlots
        reqs := update s.reqs p.1 ((s.reqs p.1).extend poolLen row p.2) }

def releaseKvCache (s : State) (i : Nat) : State :=
  { s with
    freeSlots := s.freeSlots ++ (s.reqs i).reqPoolIdx.toList
    reqs := update s.reqs i { s.reqs i with reqPoolIdx := none } }

def releaseReq (s : State) (i : Nat) : State :=
  let s := releaseKvCache s i
  { s with
    reqs := update s.reqs i
      { s.reqs i with
        isRetracted := true
        kvAllocatedLen := 0
        kvCommittedLen := 0
        decodeBatchIdx := 0 } }

/-- `_handle_finished_req` of a request, which is among those finished or not. -/
def handleFinishedReq (done : List Nat) (s : State) (i : Nat) : State :=
  if i ∈ done then
    let s := releaseKvCache s i
    { s with reqs := update s.reqs i { s.reqs i with finished := true } }
  else s

def resolveSpecOverlapTokenIds (acceptLens : List (Nat × Nat)) (reqs : Nat → Req) : Nat → Req :=
  updateEach Prod.fst (fun p r => { r with kvCommittedLen := r.kvCommittedLen + (p.2 - 1) })
    acceptLens reqs

/-- The body of the loop of `process_batch_result_decode`. -/
def processReq (done : List Nat) (s : State) (p : Nat × Nat) : State :=
  if (s.reqs p.1).finished || (s.reqs p.1).isRetracted then s
  else handleFinishedReq done
    { s with
      reqs := update s.reqs p.1
        { s.reqs p.1 with resolvedLen := (s.reqs p.1).resolvedLen + p.2 } } p.1

def processBatchResult (done : List Nat) (s : State) : Result → State
  | .extend reqs => reqs.foldl (fun s i =>
      if (s.reqs i).finished || (s.reqs i).isRetracted then s else handleFinishedReq done s i) s
  | .decode acceptLens => acceptLens.foldl (processReq done)
      { s with reqs := resolveSpecOverlapTokenIds acceptLens s.reqs }

/-- The device side of a decode batch: `new_seq_lens = seq_lens + accept_lens`. -/
def verify (acceptLens : List (Nat × Nat)) (reqs : Nat → Req) : Nat → Req :=
  updateEach Prod.fst (fun p r => { r with seqLen := r.seqLen + p.2 }) acceptLens reqs

/-- The choices of an iteration, phase by phase. -/
inductive Action where
  /-- Prefill requests, each with the slots of its tokens. -/
  | extend (batch : List (Nat × List Nat))
  /-- Decode the first `keep` running requests and retract the others. -/
  | decode (keep : Nat) (outCacheLoc : List Nat)
  | idle
  | popEarly (done : List Nat)
  | run (acceptLens : List Nat)
  | popLate (done : List Nat)
  | noPop

/-- The running requests that are left when the finished ones are filtered out. -/
def State.unfinished (s : State) : List Nat := s.running.filter fun i => !(s.reqs i).finished

def State.retract (s : State) (keep : Nat) : State :=
  { (s.unfinished.drop keep).reverse.foldl releaseReq s with running := s.unfinished.take keep }

/-- The lengths `prepare_for_decode` computes when `keep` requests stay. -/
def State.claim (s : State) (allocLen keep : Nat) : Claim :=
  Overlap.claim (allocLen + allocLen) (s.retract keep).reqs (s.unfinished.take keep)

/-- One action of the loop; `none` where the loop cannot take it. -/
def step (a : ServerArgs) (poolLen : Nat) (s : State) : Action → Option State
  | .extend batch =>
      match s.phase with
      | .schedule =>
          if (batch.map Prod.fst).Nodup ∧
              ∀ p ∈ batch, (s.reqs p.1).reqPoolIdx = none ∧ (s.reqs p.1).finished = false then
            (batch.foldlM (extendReq poolLen) s).map fun s' =>
              { s' with
                running := s'.running ++ batch.map Prod.fst
                phase := .chosen (some (.extend (batch.map Prod.fst))) false }
          else none
      | _ => none
  | .decode keep outCacheLoc =>
      match s.phase with
      | .schedule =>
          if a.speculativeAlgorithm then
            (getAllocLenPerDecode a).bind fun allocLen =>
              let c := s.claim allocLen keep
              let batch := s.unfinished.take keep
              if (outCacheLoc.length : Int) = c.numNeededTokens then some
                { s.retract keep with
                  reqs := assign poolLen c batch outCacheLoc
                  phase := .chosen (some (.decode batch)) false }
              else none
          else none
      | _ => none
  | .idle =>
      match s.phase with
      | .schedule => some { s with phase := .chosen none false }
      | _ => none
  | .popEarly done =>
      match s.phase, s.queue with
      | .chosen batch false, result :: queue =>
          some { processBatchResult done { s with queue := queue } result with
            phase := .chosen batch true }
      | _, _ => none
  | .run acceptLens =>
      match s.phase with
      | .chosen none popped => some { s with phase := .launched false popped }
      | .chosen (some (.extend reqs)) popped =>
          some { s with queue := s.queue ++ [.extend reqs], phase := .launched true popped }
      | .chosen (some (.decode reqs)) popped =>
          if acceptLens.length = reqs.length ∧
              ∀ n ∈ acceptLens, 1 ≤ n ∧ n ≤ a.speculativeNumDraftTokens then some
            { s with
              reqs := verify (reqs.zip acceptLens) s.reqs
              queue := s.queue ++ [.decode (reqs.zip acceptLens)]
              phase := .launched true popped }
          else none
      | _ => none
  | .popLate done =>
      match s.phase, s.queue with
      | .launched batch false, result :: queue =>
          if s.lastBatch then some
            { processBatchResult done { s with queue := queue } result with
              lastBatch := batch
              phase := .schedule }
          else none
      | _, _ => none
  | .noPop =>
      match s.phase with
      | .launched batch popped =>
          if popped || !s.lastBatch then some { s with lastBatch := batch, phase := .schedule }
          else none
      | _ => none

/-- The states of the loop. -/
inductive Reachable (a : ServerArgs) (poolLen : Nat) : State → Prop where
  | init (size : Nat) : Reachable a poolLen (State.init size)
  | step {s s' : State} (act : Action) : Reachable a poolLen s → step a poolLen s act = some s' →
      Reachable a poolLen s'

end SpecDecode.Overlap
