import SpecDecode.Lib.Chunks

/-!
# Relocating expert weights

`update_expert_weights_single_layer` runs on every rank. From the old and the new map of physical
to logical experts a rank computes which experts it receives from where and which it sends to
whom, exchanges them point to point, and copies what has arrived from its buffers to its weights.

A rank's tensors are functions of the tensor and of the local slot. Between an ordered pair of
ranks the `k`-th receive gets what the `k`-th send sends, and what a rank receives may arrive in
any order; a rank with an operation that has no partner waits forever.
-/

namespace SpecDecode.Eplb

def deduplicateOrdered (arr : List Nat) : List Nat :=
  arr.foldl (fun output item =>
    if output.getLast? = some item then output else output ++ [item]) []

structure ChunkUtils where
  chunkValues : List Nat
  elementValues : List Nat

namespace ChunkUtils

def chunkIndexFromElementIndex (u : ChunkUtils) (elementIndex : Nat) : Nat :=
  Chunks.owner u.elementValues.length u.chunkValues.length elementIndex

def chunkValueFromElementValue (u : ChunkUtils) (elementValue : Nat) : Option Nat :=
  (u.elementValues.idxOf? elementValue).bind fun elementIndex =>
    if u.chunkValues.length = 0 then none
    else u.chunkValues[u.chunkIndexFromElementIndex elementIndex]?

def elementValuesFromChunkValue (u : ChunkUtils) (chunkValue : Nat) : Option (List Nat) :=
  if u.elementValues.length = 0 then some []
  else (u.chunkValues.idxOf? chunkValue).map fun chunkIndex =>
    (u.elementValues.drop (Chunks.start u.elementValues.length u.chunkValues.length
      chunkIndex)).take
      (Chunks.size u.elementValues.length u.chunkValues.length chunkIndex)

end ChunkUtils

/-- What all ranks are called with. -/
structure Layer where
  oldPhysicalToLogicalMap : List Nat
  newPhysicalToLogicalMap : List Nat
  numLocalPhysicalExperts : Nat
  numGpuPerNode : Nat
  numTensors : Nat

inductive OpKind where
  | isend
  | irecv
deriving DecidableEq

structure P2POp where
  kind : OpKind
  tensor : Nat
  slot : Nat
  peer : Nat
deriving DecidableEq

/-- The copies from weights to buffers, the operations by logical expert, and the copies from
buffers to weights. -/
structure Plan where
  weight2bufferCopies : List (Nat × Nat)
  p2pOpInfos : List (Nat × List P2POp)
  buffer2weightCopyInfos : List (Nat × Nat)

/-- One plan after the other. -/
def Plan.join (plans : List Plan) : Plan :=
  ⟨plans.flatMap (·.weight2bufferCopies), plans.flatMap (·.p2pOpInfos),
    plans.flatMap (·.buffer2weightCopyInfos)⟩

namespace Layer

variable (ly : Layer)

def numPhysicalExperts : Nat := ly.oldPhysicalToLogicalMap.length

def nodeOf (rank : Nat) : Nat := rank / ly.numGpuPerNode

def rankOf (expertLocation : Nat) : Nat := expertLocation / ly.numLocalPhysicalExperts

def localRange (rank : Nat) : List Nat :=
  List.range' (rank * ly.numLocalPhysicalExperts) ly.numLocalPhysicalExperts

def slotOf (expertLocation : Nat) : Nat := expertLocation % ly.numLocalPhysicalExperts

def oldAt (location logicalExpertId : Nat) : Bool :=
  ly.oldPhysicalToLogicalMap[location]? = some logicalExpertId

def newAt (location logicalExpertId : Nat) : Bool :=
  ly.newPhysicalToLogicalMap[location]? = some logicalExpertId

def allSrcRanks (logicalExpertId : Nat) : List Nat :=
  deduplicateOrdered (((List.range ly.numPhysicalExperts).filter fun x =>
    ly.oldAt x logicalExpertId).map ly.rankOf)

def needCommDstRanks (logicalExpertId : Nat) : List Nat :=
  deduplicateOrdered (((List.range ly.numPhysicalExperts).filter fun x =>
    ly.newAt x logicalExpertId && !(ly.allSrcRanks logicalExpertId).contains (ly.rankOf x)).map
      ly.rankOf)

def selfNodeSrcRanks (rank logicalExpertId : Nat) : List Nat :=
  (ly.allSrcRanks logicalExpertId).filter fun x => ly.nodeOf x = ly.nodeOf rank

def needCommSelfNodeDstRanks (rank logicalExpertId : Nat) : List Nat :=
  if 0 < (ly.selfNodeSrcRanks rank logicalExpertId).length then
    (ly.needCommDstRanks logicalExpertId).filter fun x => ly.nodeOf x = ly.nodeOf rank
  else []

def needCommCrossNodeDstRanks (logicalExpertId : Nat) : List Nat :=
  (ly.needCommDstRanks logicalExpertId).filter fun x =>
    !((ly.allSrcRanks logicalExpertId).map ly.nodeOf).contains (ly.nodeOf x)

def sameNodeMapping (rank logicalExpertId : Nat) : ChunkUtils :=
  ⟨ly.selfNodeSrcRanks rank logicalExpertId, ly.needCommSelfNodeDstRanks rank logicalExpertId⟩

def crossNodeMapping (logicalExpertId : Nat) : ChunkUtils :=
  ⟨ly.allSrcRanks logicalExpertId, ly.needCommCrossNodeDstRanks logicalExpertId⟩

/-- The rank an expert is received from: on the same node if possible. -/
def chosenSrcRank (rank logicalExpertId : Nat) : Option Nat :=
  if rank ∈ ly.needCommSelfNodeDstRanks rank logicalExpertId then
    (ly.sameNodeMapping rank logicalExpertId).chunkValueFromElementValue rank
  else (ly.crossNodeMapping logicalExpertId).chunkValueFromElementValue rank

def createP2pRecv (logicalExpertId srcRank dstExpertLocation : Nat) : Plan where
  weight2bufferCopies := []
  p2pOpInfos := [(logicalExpertId, (List.range ly.numTensors).map fun i =>
    ⟨.irecv, i, ly.slotOf dstExpertLocation, srcRank⟩)]
  buffer2weightCopyInfos := [(dstExpertLocation, dstExpertLocation)]

/-- `_handle_recv_of_dst_expert_location`: unchanged, same GPU, free rider, or received. -/
def handleRecvOfDstExpertLocation (rank dstExpertLocation : Nat) : Option Plan :=
  (ly.newPhysicalToLogicalMap[dstExpertLocation]?).bind fun logicalExpertId =>
    if ly.oldAt dstExpertLocation logicalExpertId then some ⟨[], [], []⟩
    else match (ly.localRange rank).find? fun src => ly.oldAt src logicalExpertId with
      | some src =>
          some ⟨[(src, dstExpertLocation)], [], [(dstExpertLocation, dstExpertLocation)]⟩
      | none =>
          match (List.range' (rank * ly.numLocalPhysicalExperts)
              (dstExpertLocation - rank * ly.numLocalPhysicalExperts)).find? fun src =>
                ly.newAt src logicalExpertId with
          | some src => some ⟨[], [], [(src, dstExpertLocation)]⟩
          | none =>
              (ly.chosenSrcRank rank logicalExpertId).map fun srcRank =>
                ly.createP2pRecv logicalExpertId srcRank dstExpertLocation

def handleRecv (rank : Nat) : Option Plan :=
  ((ly.localRange rank).mapM (ly.handleRecvOfDstExpertLocation rank)).map Plan.join

def allDstRanks (rank logicalExpertId : Nat) : Option (List Nat) :=
  ((ly.sameNodeMapping rank logicalExpertId).elementValuesFromChunkValue rank).bind fun same =>
    ((ly.crossNodeMapping logicalExpertId).elementValuesFromChunkValue rank).map fun cross =>
      same ++ cross

def createIsendOpsOf (rank logicalExpertId srcExpertLocation : Nat) : Option (Nat × List P2POp) :=
  (ly.allDstRanks rank logicalExpertId).map fun dstRanks =>
    (logicalExpertId, dstRanks.flatMap fun dstRank => (List.range ly.numTensors).map fun i =>
      ⟨.isend, i, ly.slotOf srcExpertLocation, dstRank⟩)

/-- The loop of `_create_isend_ops`: an expert that was handled is passed over. -/
def createIsendOpsLoop (rank : Nat) (handled : List Nat) :
    List Nat → Option (List (Nat × List P2POp))
  | [] => some []
  | src :: srcs =>
      match ly.oldPhysicalToLogicalMap[src]? with
      | none => none
      | some logicalExpertId =>
          if logicalExpertId ∈ handled then createIsendOpsLoop rank handled srcs
          else (ly.createIsendOpsOf rank logicalExpertId src).bind fun info =>
            (createIsendOpsLoop rank (logicalExpertId :: handled) srcs).map
            fun infos => info :: infos

def createIsendOps (rank : Nat) : Option (List (Nat × List P2POp)) :=
  ly.createIsendOpsLoop rank [] (ly.localRange rank)

/-- `_filter_p2p_ops`: what goes to or comes from an inactive rank is dropped. -/
def filterP2pOps (isActive : Option (Nat → Bool)) (infos : List (Nat × List P2POp)) :
    List (Nat × List P2POp) :=
  match isActive with
  | none => infos
  | some isActive => infos.map fun (logicalExpertId, ops) =>
      if ops.any fun op => op.kind = .isend then
        (logicalExpertId, ops.filter fun op => isActive op.peer)
      else if ops.any fun op => !isActive op.peer then (logicalExpertId, [])
      else (logicalExpertId, ops)

/-- The plan of a rank and the operations it issues, in order. -/
def planOf (isActive : Option (Nat → Bool)) (rank : Nat) : Option (Plan × List P2POp) :=
  -- `self_node_id = rank // num_gpu_per_node`
  if ly.numGpuPerNode = 0 then none
  else (ly.handleRecv rank).bind fun plan =>
    (ly.createIsendOps rank).map fun sends =>
      let infos := filterP2pOps isActive (plan.p2pOpInfos ++ sends)
      (plan, (infos.mergeSort fun a b => decide (a.1 ≤ b.1)).flatMap (·.2))

end Layer

structure RankMem (ω : Type) where
  weights : Nat → Nat → ω
  tempBuffers : Nat → Nat → ω

def setTensor {ω : Type} (tensors : Nat → Nat → ω) (i slot : Nat) (value : ω) : Nat → Nat → ω :=
  fun i' slot' => if i' = i ∧ slot' = slot then value else tensors i' slot'

/-- The operations of a kind with a peer, in the order of issue. -/
def opsWith (kind : OpKind) (peer : Nat) (ops : List P2POp) : List P2POp :=
  ops.filter fun op => op.kind = kind ∧ op.peer = peer

/-- Writes to a tensor, a slot and of a value, one after the other. -/
def writeAll {ω : Type} (writes : List (Nat × Nat × ω)) (tensors : Nat → Nat → ω) : Nat → Nat → ω :=
  writes.foldl (fun tensors (i, slot, value) => setTensor tensors i slot value) tensors

/-- What arrives in a rank's buffers: each receive gets what its partner sent. The weights of the
sender are as they were, since it overwrites them after its sends are done. -/
def arrivals {ω : Type} (worldSize : Nat) (ops : Nat → List P2POp) (mem : Nat → RankMem ω)
    (rank : Nat) : List (Nat × Nat × ω) :=
  (List.range worldSize).flatMap fun src =>
    ((opsWith .isend rank (ops src)).zip (opsWith .irecv src (ops rank))).map fun (send, recv) =>
      (recv.tensor, recv.slot, (mem src).weights send.tensor send.slot)

namespace Layer

variable {ω : Type} (ly : Layer)

def copyAll (copies : List (Nat × Nat)) (from' into : Nat → Nat → ω) : Nat → Nat → ω :=
  copies.foldl (fun into (src, dst) => (List.range ly.numTensors).foldl (fun into i =>
    setTensor into i (ly.slotOf dst) (from' i (ly.slotOf src))) into) into

/-- Every operation is between two ranks and has a partner. -/
def balanced (worldSize : Nat) (ops : Nat → List P2POp) : Bool :=
  (List.range worldSize).all fun src => ((ops src).all fun op => op.peer < worldSize) &&
    (List.range worldSize).all fun dst =>
      (opsWith .isend dst (ops src)).length == (opsWith .irecv src (ops dst)).length

/-- The memory of a rank after the update, when the ranks issue `ops` and what arrives at a rank
arrives in the order `arrive` puts it in. -/
def finishRank (worldSize : Nat) (arrive : List (Nat × Nat × ω) → List (Nat × Nat × ω))
    (ops : Nat → List P2POp) (mem : Nat → RankMem ω) (plan : Plan) (rank : Nat) : RankMem ω :=
  let buffers := ly.copyAll plan.weight2bufferCopies (mem rank).weights (mem rank).tempBuffers
  let buffers := writeAll (arrive (arrivals worldSize ops mem rank)) buffers
  ⟨ly.copyAll plan.buffer2weightCopyInfos buffers (mem rank).weights, buffers⟩

/-- The operations a rank issues. -/
def opsOf (isActive : Option (Nat → Bool)) (rank : Nat) : List P2POp :=
  ((ly.planOf isActive rank).map (·.2)).getD []

/-- `update_expert_weights_single_layer` on all ranks; fails when a rank fails or waits forever. -/
def updateExpertWeights (worldSize : Nat) (isActive : Option (Nat → Bool))
    (arrive : Nat → List (Nat × Nat × ω) → List (Nat × Nat × ω)) (mem : Nat → RankMem ω) :
    Option (Nat → RankMem ω) :=
  if (List.range worldSize).all fun rank => (ly.planOf isActive rank).isSome then
    if balanced worldSize (ly.opsOf isActive) then
      some fun rank => match ly.planOf isActive rank with
        | some (plan, _) => ly.finishRank worldSize (arrive rank) (ly.opsOf isActive) mem plan rank
        | none => mem rank
    else none
  else none

end Layer

end SpecDecode.Eplb
