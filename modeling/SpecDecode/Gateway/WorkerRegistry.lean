import SpecDecode.Gateway.HashRing
import Mathlib.Logic.Function.Basic

/-!
# The worker registry of the gateway

The registry keeps its workers by id and six structures derived from them: the id of a URL,
the workers and the hash ring of a model, and the ids of a worker type and of a connection
mode. A map is a function into `Option`.

Of a worker the registry reads its URL, model, type and connection mode. New ids are random
UUIDs, so an operation that may create one carries it.
-/

namespace SpecDecode.Gateway

open Function

inductive WorkerType where
  | regular
  | prefill (bootstrapPort : Option UInt16)
  | decode
deriving DecidableEq

inductive ConnectionMode where
  | http
  | grpc (port : Option UInt16)
deriving DecidableEq

structure WorkerId where
  id : String
deriving DecidableEq

structure Worker where
  url : String
  modelId : String
  workerType : WorkerType
  connectionMode : ConnectionMode
deriving DecidableEq

structure WorkerRegistry where
  workers : WorkerId → Option Worker
  modelIndex : String → Option (List Worker)
  hashRings : String → Option HashRing
  typeWorkers : WorkerType → Option (List WorkerId)
  connectionWorkers : ConnectionMode → Option (List WorkerId)
  urlToId : String → Option WorkerId

section Entries

variable {κ α : Type} [DecidableEq κ]

def pushTo (index : κ → Option (List α)) (key : κ) (value : α) : κ → Option (List α) :=
  update index key (some ((index key).getD [] ++ [value]))

/-- `get_mut(key)`, and `retain` if it is there. -/
def retainIn (index : κ → Option (List α)) (key : κ) (keep : α → Bool) : κ → Option (List α) :=
  match index key with
  | some values => update index key (some (values.filter keep))
  | none => index

end Entries

namespace WorkerRegistry

variable (H : RingHash)

def new : WorkerRegistry :=
  ⟨fun _ => none, fun _ => none, fun _ => none, fun _ => none, fun _ => none, fun _ => none⟩

def rebuildHashRing (r : WorkerRegistry) (modelId : String) : WorkerRegistry :=
  { r with
    hashRings := update r.hashRings modelId <|
      (r.modelIndex modelId).map fun workers => HashRing.new H (workers.map Worker.url) }

/-- `register`; `newId` is the UUID it draws for an unknown URL. -/
def register (r : WorkerRegistry) (newId : WorkerId) (worker : Worker) : WorkerRegistry :=
  let workerId := (r.urlToId worker.url).getD newId
  let r := { r with
    workers := update r.workers workerId (some worker)
    urlToId := update r.urlToId worker.url (some workerId)
    modelIndex := pushTo r.modelIndex worker.modelId worker }
  let r := r.rebuildHashRing H worker.modelId
  { r with
    typeWorkers := pushTo r.typeWorkers worker.workerType workerId
    connectionWorkers := pushTo r.connectionWorkers worker.connectionMode workerId }

def reserveIdForUrl (r : WorkerRegistry) (newId : WorkerId) (url : String) : WorkerRegistry :=
  { r with urlToId := update r.urlToId url (some ((r.urlToId url).getD newId)) }

def remove (r : WorkerRegistry) (workerId : WorkerId) : Option Worker × WorkerRegistry :=
  match r.workers workerId with
  | some worker =>
      let r := { r with
        workers := update r.workers workerId none
        urlToId := update r.urlToId worker.url none
        modelIndex := retainIn r.modelIndex worker.modelId fun w => decide (w.url ≠ worker.url) }
      let r := r.rebuildHashRing H worker.modelId
      (some worker, { r with
        typeWorkers := retainIn r.typeWorkers worker.workerType fun i => decide (i ≠ workerId)
        connectionWorkers :=
          retainIn r.connectionWorkers worker.connectionMode fun i => decide (i ≠ workerId) })
  | none => (none, r)

def removeByUrl (r : WorkerRegistry) (url : String) : Option Worker × WorkerRegistry :=
  match r.urlToId url with
  | some workerId => { r with urlToId := update r.urlToId url none }.remove H workerId
  | none => (none, r)

def get (r : WorkerRegistry) (workerId : WorkerId) : Option Worker := r.workers workerId

def getByUrl (r : WorkerRegistry) (url : String) : Option Worker := (r.urlToId url).bind r.get

def getByModel (r : WorkerRegistry) (modelId : String) : List Worker :=
  (r.modelIndex modelId).getD []

def idsOfType (r : WorkerRegistry) (workerType : WorkerType) : List WorkerId :=
  (r.typeWorkers workerType).getD []

def idsOfMode (r : WorkerRegistry) (mode : ConnectionMode) : List WorkerId :=
  (r.connectionWorkers mode).getD []

def getByType (r : WorkerRegistry) (workerType : WorkerType) : List Worker :=
  (r.idsOfType workerType).filterMap r.get

inductive Action where
  | register (newId : WorkerId) (worker : Worker)
  | reserveIdForUrl (newId : WorkerId) (url : String)
  | remove (workerId : WorkerId)
  | removeByUrl (url : String)

def step (r : WorkerRegistry) : Action → WorkerRegistry
  | .register newId worker => r.register H newId worker
  | .reserveIdForUrl newId url => r.reserveIdForUrl newId url
  | .remove workerId => (r.remove H workerId).2
  | .removeByUrl url => (r.removeByUrl H url).2

def run (acts : List Action) : WorkerRegistry := acts.foldl (step H) new

end WorkerRegistry

end SpecDecode.Gateway
