import SpecDecode.Gateway.HashRing
import SpecDecode.Gateway.Tree
import Mathlib.Data.List.MinMax

/-!
# The routing policies of the gateway

Seven policies choose a worker for a request. What a policy remembers between requests is its
state; a call of `select_worker` comes with what the policy reads from outside: the workers with
their health, circuit breaker and loads, the request, the random draws, the clock and the order
in which maps are iterated. Comparisons of floating-point values and the hashes of external
crates are parameters of the configuration.
-/

namespace SpecDecode.Gateway.Policies

inductive CircuitState where
  | closed
  | open
  | halfOpen
deriving DecidableEq

/-- `CircuitBreaker::can_execute`. -/
def CircuitState.canExecute : CircuitState → Bool
  | .closed => true
  | .open => false
  | .halfOpen => true

structure Worker where
  url : String
  modelId : String
  isHealthy : Bool
  circuitBreaker : CircuitState
  load : Nat
  routingKeyLoad : Nat

def Worker.isAvailable (w : Worker) : Bool := w.isHealthy && w.circuitBreaker.canExecute

/-- The headers of a request: the value of a name, read as text where it is text. -/
abbrev HeaderMap := String → Option (Option String)

structure SelectWorkerInfo where
  requestText : Option (List Char)
  tokens : Option (List UInt32)
  headers : Option HeaderMap
  hashRing : Option HashRing

/-- What a call of `select_worker` is given and what it reads from outside. -/
structure Call where
  workers : List Worker
  info : SelectWorkerInfo
  order : Order
  draw : Nat
  draw₂ : Nat
  epoch : Nat
  epoch₂ : Nat
  now : Nat
  requestId : String

/-- What comes from external crates. -/
structure Env where
  ringHash : RingHash
  unknownModelId : String
  prefixKey : List UInt32 → String

def usizeMax : Nat := 2 ^ 64 - 1

def randomRange (draw n : Nat) : Nat := draw % n

def getHealthyWorkerIndices (workers : List Worker) : List Nat :=
  ((workers.zipIdx).filter fun e => e.1.isHealthy && e.1.circuitBreaker.canExecute).map (·.2)

def normalizeModelKey (env : Env) (modelId : String) : String :=
  if modelId.isEmpty then env.unknownModelId else modelId

def extractHeaderValue (headers : Option HeaderMap) (name : String) : Option String :=
  ((headers.bind fun h => h name).bind id).filter fun s => !s.isEmpty

def extractTargetWorker (headers : Option HeaderMap) : Option String :=
  extractHeaderValue headers "x-smg-target-worker"

def extractRoutingKey (headers : Option HeaderMap) : Option String :=
  extractHeaderValue headers "x-smg-routing-key"

def findWorkerIndexByUrl (workers : List Worker) (url : String) : Option Nat :=
  workers.findIdx? fun w => w.url = url

def loadOf (workers : List Worker) (idx : Nat) : Nat := ((workers[idx]?).map (·.load)).getD 0

def urlOf (workers : List Worker) (idx : Nat) : String := ((workers[idx]?).map (·.url)).getD ""

def modelOf (env : Env) (workers : List Worker) (idx : Nat) : String :=
  normalizeModelKey env (((workers[idx]?).map (·.modelId)).getD "")

def randomSelect (draw : Nat) (healthyIndices : List Nat) : Option Nat :=
  healthyIndices[randomRange draw healthyIndices.length]?

def roundRobinSelect (counter : Nat) (c : Call) : Option Nat × Nat :=
  let healthyIndices := getHealthyWorkerIndices c.workers
  if healthyIndices.isEmpty then (none, counter)
  else (healthyIndices[counter % healthyIndices.length]?, (counter + 1) % 2 ^ 64)

def powerOfTwoSelect (cachedLoads : AList fun _ : String => Int) (c : Call) : Option Nat :=
  match getHealthyWorkerIndices c.workers with
  | [] => none
  | [idx] => some idx
  | healthyIndices =>
      let idx₁ := randomRange c.draw healthyIndices.length
      let idx₂ := (idx₁ + 1 + randomRange c.draw₂ (healthyIndices.length - 1)) %
        healthyIndices.length
      match healthyIndices[idx₁]?, healthyIndices[idx₂]? with
      | some workerIdx₁, some workerIdx₂ =>
          let (load₁, load₂) := match cachedLoads.lookup (urlOf c.workers workerIdx₁),
              cachedLoads.lookup (urlOf c.workers workerIdx₂) with
            | some t₁, some t₂ => (t₁, t₂)
            | _, _ => ((loadOf c.workers workerIdx₁ : Int), (loadOf c.workers workerIdx₂ : Int))
          some (if load₁ ≤ load₂ then workerIdx₁ else workerIdx₂)
      | _, _ => none

/-- The healthy workers with their positions; the circuit breaker is not asked. -/
def healthyWorkers (workers : List Worker) : List (Worker × Nat) :=
  workers.zipIdx.filter fun e => e.1.isHealthy

/-- The map from URLs to positions; the last worker with a URL wins. -/
def healthyUrlToIdx (workers : List Worker) : AList fun _ : String => Nat :=
  (healthyWorkers workers).foldl (fun m e => m.insert e.1.url e.2) ∅

def findByConsistentHash (env : Env) (c : Call) (key : String) : Option Nat :=
  let urlToIdx := healthyUrlToIdx c.workers
  if urlToIdx.entries.isEmpty then none
  else match c.info.hashRing with
    | some ring =>
        (ring.findHealthyUrl env.ringHash key fun url => (urlToIdx.lookup url).isSome).bind
          urlToIdx.lookup
    | none =>
        let healthyIndices := ((c.order.iter urlToIdx).map (·.2)).mergeSort
        healthyIndices[env.ringHash.hashPosition key % healthyIndices.length]?

/-- `str::parse::<usize>`. -/
def parseUsize (s : String) : Option Nat :=
  let digits := match s.toList with
    | '+' :: cs => cs
    | cs => cs
  if !digits.isEmpty && digits.all Char.isDigit then
    let n := digits.foldl (fun n c => 10 * n + (c.toNat - '0'.toNat)) 0
    if n < 2 ^ 64 then some n else none
  else none

/-- The key taken from headers that stay the same in a session. -/
def implicitKey (headers : Option HeaderMap) : Option String :=
  ((headers.bind fun h =>
    ((h "authorization").or ((h "x-forwarded-for").or (h "cookie"))).bind id)).filter
      fun s => !s.isEmpty

def consistentHashingSelect (env : Env) (c : Call) : Option Nat :=
  if c.workers.isEmpty then none
  else match extractTargetWorker c.info.headers with
    | some idxStr =>
        (parseUsize idxStr).filter fun idx => ((c.workers[idx]?).map (·.isHealthy)).getD false
    | none =>
        match extractRoutingKey c.info.headers with
        | some key => findByConsistentHash env c key
        | none =>
            match implicitKey c.info.headers with
            | some key => findByConsistentHash env c key
            | none =>
                let healthy := healthyWorkers c.workers
                if healthy.isEmpty then none
                else (healthy[randomRange c.draw healthy.length]?).map (·.2)

structure PrefixHashConfig where
  prefixTokenCount : Nat
  loadBelow : Nat → Nat → Nat → Bool

def PrefixHashConfig.loadOk (config : PrefixHashConfig) (workerLoad totalLoad numWorkers : Nat) :
    Bool :=
  if totalLoad = 0 ∨ numWorkers = 0 then true else config.loadBelow workerLoad totalLoad numWorkers

def findWorkerWithLoadBalance (env : Env) (config : PrefixHashConfig) (c : Call) (key : String) :
    Option Nat :=
  let healthy := healthyWorkers c.workers
  if healthy.isEmpty then none
  else
    let totalLoad := (healthy.map (·.1.load)).sum
    let loadOk (e : Worker × Nat) := config.loadOk e.1.load totalLoad healthy.length
    let urlMap := healthyUrlToIdx c.workers
    let initial := c.info.hashRing.bind fun ring =>
      (ring.findHealthyUrl env.ringHash key fun url => (urlMap.lookup url).isSome).bind
        urlMap.lookup
    match initial with
    | some idx =>
        if config.loadOk (loadOf c.workers idx) totalLoad healthy.length then some idx
        else some ((((healthy.filter loadOk).argmin (·.1.load)).map (·.2)).getD idx)
    | none => (healthy.argmin (·.1.load)).map (·.2)

def prefixHashSelect (env : Env) (config : PrefixHashConfig) (c : Call) : Option Nat :=
  if c.workers.isEmpty then none
  else match c.info.tokens with
    | some (token :: tokens) =>
        findWorkerWithLoadBalance env config c
          (env.prefixKey ((token :: tokens).take config.prefixTokenCount))
    | _ => none

inductive ManualAssignmentMode where
  | random
  | minLoad
  | minGroup
deriving DecidableEq

structure RoutingNode where
  candiWorkerUrls : List String
  lastAccess : Nat

structure Manual where
  routingMap : AList fun _ : String => RoutingNode
  assignmentMode : ManualAssignmentMode
  maxIdle : Nat

def maxCandidateWorkers : Nat := 2

def pushBounded (urls : List String) (url : String) : List String :=
  urls.drop (urls.length + 1 - maxCandidateWorkers) ++ [url]

/-- `select_min_by`: a random one of the indices with the least value. -/
def selectMinBy (draw : Nat) (indices : List Nat) (value : Nat → Nat) : Option Nat :=
  let candidates := indices.filter fun idx => indices.all fun idx' => value idx ≤ value idx'
  candidates[randomRange draw candidates.length]?

def Manual.selectNewWorker (m : Manual) (c : Call) (healthyIndices : List Nat) : Option Nat :=
  match m.assignmentMode with
  | .random => randomSelect c.draw healthyIndices
  | .minLoad => selectMinBy c.draw healthyIndices (loadOf c.workers)
  | .minGroup => selectMinBy c.draw healthyIndices fun idx =>
      ((c.workers[idx]?).map (·.routingKeyLoad)).getD 0

def findHealthyWorker (urls : List String) (workers : List Worker) (healthyIndices : List Nat) :
    Option Nat :=
  urls.findSome? fun url =>
    (findWorkerIndexByUrl workers url).filter fun idx => healthyIndices.contains idx

def Manual.select (m : Manual) (c : Call) : Option Nat × Manual :=
  let healthyIndices := getHealthyWorkerIndices c.workers
  if healthyIndices.isEmpty then (none, m)
  else match extractRoutingKey c.info.headers with
    | some routingId =>
        match m.routingMap.lookup routingId with
        | some node =>
            match findHealthyWorker node.candiWorkerUrls c.workers healthyIndices with
            | some idx =>
                let node := { node with lastAccess := c.now }
                (some idx, { m with routingMap := m.routingMap.insert routingId node })
            | none =>
                let selected := m.selectNewWorker c healthyIndices
                let urls := pushBounded node.candiWorkerUrls (urlOf c.workers (selected.getD 0))
                (selected, { m with routingMap := m.routingMap.insert routingId ⟨urls, c.now⟩ })
        | none =>
            let selected := m.selectNewWorker c healthyIndices
            let urls := [urlOf c.workers (selected.getD 0)]
            (selected, { m with routingMap := m.routingMap.insert routingId ⟨urls, c.now⟩ })
    | none => (randomSelect c.draw healthyIndices, m)

/-- The eviction task: keep the nodes that were used within the idle time. -/
def Manual.evictIdle (m : Manual) (o : Order) (now : Nat) : Manual :=
  { m with routingMap := ((o.iter m.routingMap).filter fun e =>
      decide (now - e.2.lastAccess < m.maxIdle)).foldl (fun map e => map.insert e.1 e.2) ∅ }

structure CacheAwareConfig where
  balanceAbsThreshold : Nat
  exceedsRel : Nat → Nat → Bool
  hits : Nat → Nat → Bool

structure CacheAware where
  config : CacheAwareConfig
  trees : AList fun _ : String => Tree

/-- `trees.entry(key).or_insert_with(Tree::new)` and a change of that tree. -/
def CacheAware.updateTree (p : CacheAware) (key : String) (f : Tree → Tree) : CacheAware :=
  { p with trees := p.trees.insert key (f ((p.trees.lookup key).getD Tree.new)) }

def CacheAware.modifyTree (p : CacheAware) (key : String) (f : Tree → Tree) : CacheAware :=
  match p.trees.lookup key with
  | some tree => { p with trees := p.trees.insert key (f tree) }
  | none => p

/-- The index of the least loaded worker, the first of them. -/
def minLoadIdx (workers : List Worker) (healthyIndices : List Nat) : Option Nat :=
  healthyIndices.argmin (loadOf workers)

def CacheAware.isImbalanced (p : CacheAware) (workers : List Worker) : Bool :=
  let loads := workers.foldl (fun m w => (min m.1 w.load, max m.2 w.load)) (usizeMax, 0)
  let minLoad := if loads.1 = usizeMax then 0 else loads.1
  p.config.balanceAbsThreshold < loads.2 - minLoad && p.config.exceedsRel loads.2 minLoad

def CacheAware.selectWorkerMinLoad (p : CacheAware) (c : Call) (healthyIndices : List Nat)
    (modelId : String) : Option Nat × CacheAware :=
  let selected := minLoadIdx c.workers healthyIndices
  (selected, match c.info.requestText, selected with
    | some text, some idx =>
        p.modifyTree modelId fun tree => tree.insert text (urlOf c.workers idx) c.epoch
    | _, _ => p)

def CacheAware.isHit (p : CacheAware) (result : PrefixMatchResult) : Bool :=
  if result.inputCharCount = 0 then p.config.hits 0 1
  else p.config.hits result.matchedCharCount result.inputCharCount

/-- The worker for a match: that of the tenant on a hit, if it is healthy, else the least loaded. -/
def CacheAware.selectedIdx (p : CacheAware) (workers : List Worker) (healthyIndices : List Nat)
    (result : PrefixMatchResult) : Option Nat :=
  if p.isHit result then
    (findWorkerIndexByUrl workers result.tenant).filter fun idx =>
      ((workers[idx]?).map (·.isHealthy)).getD false
  else minLoadIdx workers healthyIndices

def CacheAware.selectCached (p : CacheAware) (c : Call) (healthyIndices : List Nat)
    (modelId : String)
    (tree : Tree) : Option Nat × CacheAware :=
  let text := c.info.requestText.getD []
  let (result, tree) := tree.prefixMatchWithCounts c.order text c.epoch
  match p.selectedIdx c.workers healthyIndices result with
  | some idx =>
      let tree := tree.insert text (urlOf c.workers idx) c.epoch₂
      (some idx, { p with trees := p.trees.insert modelId tree })
  | none =>
      let tree := if p.isHit result then tree.removeTenant c.order result.tenant else tree
      (healthyIndices.head?, { p with trees := p.trees.insert modelId tree })

def CacheAware.select (env : Env) (p : CacheAware) (c : Call) : Option Nat × CacheAware :=
  let healthyIndices := getHealthyWorkerIndices c.workers
  match healthyIndices.head? with
  | none => (none, p)
  | some first =>
      let modelId := modelOf env c.workers first
      if p.isImbalanced c.workers then p.selectWorkerMinLoad c healthyIndices modelId
      else match p.trees.lookup modelId with
        | some tree => p.selectCached c healthyIndices modelId tree
        | none => (randomSelect c.draw healthyIndices, p)

inductive CacheAwareOp where
  | addWorker (url modelId : String) (epoch : Nat)
  | addWorkerByUrl (url modelId : String) (epoch : Nat)
  | removeWorker (o : Order) (url modelId : String)
  | removeWorkerByUrl (o : Order) (url : String)
  | evictCache (o : Order) (maxSize : Nat)
  | remoteInsert (modelId : String) (text : List Char) (tenant : String) (epoch : Nat)
  | remoteRemove (o : Order) (modelId tenant : String)

def CacheAware.mapTrees (p : CacheAware) (f : Tree → Tree) : CacheAware :=
  { p with trees := p.trees.keys.foldl (fun trees key =>
      match trees.lookup key with
      | some tree => trees.insert key (f tree)
      | none => trees) p.trees }

def CacheAware.apply (env : Env) (p : CacheAware) : CacheAwareOp → CacheAware
  | .addWorker url modelId epoch =>
      p.updateTree (normalizeModelKey env modelId) fun tree => tree.insert [] url epoch
  | .addWorkerByUrl url modelId epoch => p.updateTree modelId fun tree => tree.insert [] url epoch
  | .removeWorker o url modelId =>
      p.modifyTree (normalizeModelKey env modelId) fun tree => tree.removeTenant o url
  | .removeWorkerByUrl o url => p.mapTrees fun tree => tree.removeTenant o url
  | .evictCache o maxSize => p.mapTrees fun tree => tree.evictTenantBySize o maxSize
  | .remoteInsert modelId text tenant epoch =>
      p.updateTree (normalizeModelKey env modelId) fun tree => tree.insert text tenant epoch
  | .remoteRemove o modelId tenant =>
      p.updateTree (normalizeModelKey env modelId) fun tree => tree.removeTenant o tenant

structure Boundary where
  url : String
  lower : Nat
  upper : Nat
deriving DecidableEq

structure SequencerRequest where
  id : String
  charCnt : Nat
  timestamp : Nat
  prefillWorkerUrl : String

structure Bucket where
  lMax : Nat
  bucketCnt : Nat
  prefillWorkerUrls : List String
  loadTotal : Nat
  period : Nat
  bucketLoad : Nat
  boundary : List Boundary
  requestList : List SequencerRequest
  tReqLoads : AList fun _ : String => Nat
  charsPerUrl : AList fun _ : String => Nat

namespace Bucket

def new (period : Nat) : Bucket := ⟨4096, 0, [], 0, period, 0, [], [], ∅, ∅⟩

/-- `init_prefill_worker_urls`. -/
def initPrefillWorkerUrls (b : Bucket) (urls : List String) : Bucket :=
  let workerCnt := urls.length
  let charsPerUrl := urls.foldl (fun m url => m.insert url 0) (∅ : AList fun _ : String => Nat)
  let b := { b with bucketCnt := workerCnt, prefillWorkerUrls := urls, charsPerUrl }
  if workerCnt = 0 then { b with boundary := [] }
  else
    let gap := b.lMax / workerCnt
    { b with
      lMax := usizeMax
      boundary := urls.zipIdx.map fun (url, i) =>
        ⟨url, i * gap, if i = workerCnt - 1 then usizeMax else (i + 1) * gap - 1⟩ }

/-- `find_boundary`: binary search for the range that contains the count. -/
def findBoundaryLoop (boundary : List Boundary) (charCount : Nat) : Nat → Nat → Nat → Option String
  | 0, _, _ => none
  | fuel + 1, left, right =>
      if left < right then
        let mid := left + (right - left) / 2
        match boundary[mid]? with
        | none => none
        | some b =>
            if charCount < b.lower then findBoundaryLoop boundary charCount fuel left mid
            else if b.upper < charCount then findBoundaryLoop boundary charCount fuel
              (mid + 1) right
            else some b.url
      else none

def findBoundary (b : Bucket) (charCount : Nat) : Option String :=
  findBoundaryLoop b.boundary charCount (b.boundary.length + 1) 0 b.boundary.length

/-- The requests at the front that are older than the period, or newer than the clock. -/
def expired (period now : Nat) (r : SequencerRequest) : Bool :=
  decide (now < r.timestamp) || decide (period < now - r.timestamp)

/-- `post_process_request`. -/
def postProcessRequest (b : Bucket) (charCnt : Nat) (prefillUrl : String) (now : Nat)
    (id : String) :
    Bucket :=
  let charsPerUrl := b.charsPerUrl.insert prefillUrl
    ((b.charsPerUrl.lookup prefillUrl).getD 0 + charCnt)
  let old := b.requestList.takeWhile (expired b.period now)
  let charsPerUrl := old.foldl (fun m r => match m.lookup r.prefillWorkerUrl with
    | some count => m.insert r.prefillWorkerUrl (count - r.charCnt)
    | none => m) charsPerUrl
  let tReqLoads := old.foldl (fun m r => m.erase r.id) b.tReqLoads
  let removedLoad := (old.map (·.charCnt)).sum
  { b with
    charsPerUrl
    requestList := b.requestList.dropWhile (expired b.period now) ++
      [⟨id, charCnt, now, prefillUrl⟩]
    tReqLoads := tReqLoads.insert id charCnt
    loadTotal := min (b.loadTotal - removedLoad + charCnt) usizeMax }

def updateWorkersCnt (o : Order) (b : Bucket) : Bucket :=
  let currentUrls := (o.iter b.charsPerUrl).map (·.1)
  let m := (b.prefillWorkerUrls.filter fun url => !currentUrls.contains url).foldl
    (fun m url => m.insert url 0) b.charsPerUrl
  let m := (currentUrls.filter fun url => !b.prefillWorkerUrls.contains url).foldl
    (fun m url => if m.lookup url = some 0 then m.erase url else m) m
  { b with bucketCnt := b.prefillWorkerUrls.length, charsPerUrl := m }

/-- The inner loop of `adjust_boundary` over the loads that are left: how many it passes, and the
load at which the share is reached. -/
def reachShare (share : Nat) : List Nat → Nat → Nat → Nat × Option Nat
  | [], passed, _ => (passed, none)
  | load :: loads, passed, accumulator =>
      if share ≤ accumulator + load then (passed, some load)
      else reachShare share loads (passed + 1) (accumulator + load)

def adjustLoop (share : Nat) (histLoad : List Nat) : List String → Nat → Nat → List Boundary
  | [], _, _ => []
  | [url], upperBound, _ => [⟨url, upperBound, usizeMax⟩]
  | url :: urls, upperBound, lastLoadIndex =>
      let (passed, reached) := reachShare share (histLoad.drop lastLoadIndex) 0 0
      match reached with
      | some load =>
          let upper := if load ≤ upperBound then upperBound + share else load
          ⟨url, upperBound, upper⟩ :: adjustLoop share histLoad urls (upper + 1)
            (lastLoadIndex + passed + 1)
      | none =>
          let upper := upperBound + share
          ⟨url, upperBound, upper⟩ :: adjustLoop share histLoad urls (upper + 1)
            (lastLoadIndex + passed)

def adjustBoundary (o : Order) (b : Bucket) : Bucket :=
  if b.tReqLoads.entries.isEmpty then b
  else
    let b := b.updateWorkersCnt o
    if b.bucketCnt = 0 then b
    else
      let share := b.loadTotal / b.bucketCnt
      if share ≤ 2 * b.bucketLoad && (b.bucketLoad ≤ 2 * share && b.bucketLoad ≠ 0) then b
      else
        let histLoad := ((o.iter b.tReqLoads).map (·.2)).mergeSort
        { b with bucketLoad := share, boundary :=
          adjustLoop share histLoad b.prefillWorkerUrls 0 0 }

end Bucket

structure BucketConfig where
  balanceAbsThreshold : Nat
  exceedsRel : Nat → Nat → Bool
  period : Nat

structure BucketPolicy where
  config : BucketConfig
  buckets : AList fun _ : String => Bucket

namespace BucketPolicy

/-- The URL for a request of the length: the least loaded one when the loads are imbalanced, else
that of the boundary, else that of a random healthy worker. -/
def chooseUrl (p : BucketPolicy) (c : Call) (b : Bucket) (healthyIndices : List Nat)
    (charCount : Nat) :
    String :=
  let entries := c.order.iter b.charsPerUrl
  let maxLoad := ((entries.map (·.2)).max?).getD 0
  let minLoad := ((entries.map (·.2)).min?).getD 0
  let randomUrl := urlOf c.workers ((randomSelect c.draw healthyIndices).getD 0)
  if p.config.balanceAbsThreshold < maxLoad - minLoad && p.config.exceedsRel maxLoad minLoad then
    ((entries.argmin (·.2)).map (·.1)).getD randomUrl
  else match b.findBoundary charCount with
    | some url => if url.isEmpty then randomUrl else url
    | none => randomUrl

def select (env : Env) (p : BucketPolicy) (c : Call) : Option Nat × BucketPolicy :=
  let healthyIndices := getHealthyWorkerIndices c.workers
  match healthyIndices.head? with
  | none => (none, p)
  | some first =>
      let charCount := (c.info.requestText.getD []).length
      let modelKey := modelOf env c.workers first
      match p.buckets.lookup modelKey with
      | some b =>
          let url := p.chooseUrl c b healthyIndices charCount
          let b := b.postProcessRequest charCount url c.now c.requestId
          (findWorkerIndexByUrl c.workers url, { p with buckets := p.buckets.insert modelKey b })
      | none =>
          let url := urlOf c.workers ((randomSelect c.draw healthyIndices).getD 0)
          (findWorkerIndexByUrl c.workers url, p)

end BucketPolicy

inductive BucketOp where
  | initPrefillWorkerUrls (workers : List (String × String))
  | addPrefillUrl (url modelId : String)
  | removePrefillUrl (url modelId : String)
  | adjustBoundaries (o : Order)

/-- `init_prefill_worker_urls` for the workers of one model. -/
def BucketPolicy.initModel (p : BucketPolicy) (key : String) (urls : List String) : BucketPolicy :=
  let b := (p.buckets.lookup key).getD (Bucket.new p.config.period)
  { p with buckets := p.buckets.insert key (b.initPrefillWorkerUrls urls) }

def BucketPolicy.apply (env : Env) (p : BucketPolicy) : BucketOp → BucketPolicy
  | .initPrefillWorkerUrls workers =>
      let key (w : String × String) := normalizeModelKey env w.2
      (workers.map key).dedup.foldl (fun p k =>
        p.initModel k ((workers.filter fun w => key w = k).map (·.1))) p
  | .addPrefillUrl url modelId =>
      let key := normalizeModelKey env modelId
      let b := (p.buckets.lookup key).getD (Bucket.new p.config.period)
      let urls := if url ∈ b.prefillWorkerUrls then b.prefillWorkerUrls else b.prefillWorkerUrls ++
        [url]
      { p with buckets := p.buckets.insert key (b.initPrefillWorkerUrls urls) }
  | .removePrefillUrl url modelId =>
      let key := normalizeModelKey env modelId
      match p.buckets.lookup key with
      | none => p
      | some b =>
          let urls := b.prefillWorkerUrls.filter (· ≠ url)
          let b := { b with
            prefillWorkerUrls := urls
            charsPerUrl := b.charsPerUrl.erase url
            bucketCnt := urls.length }
          let b := if 0 < urls.length then b.initPrefillWorkerUrls urls else b
          { p with buckets := p.buckets.insert key b }
  | .adjustBoundaries o =>
      { p with buckets := p.buckets.keys.foldl (fun buckets key =>
          match buckets.lookup key with
          | some b => buckets.insert key (b.adjustBoundary o)
          | none => buckets) p.buckets }

inductive Policy where
  | cacheAware (p : CacheAware)
  | bucket (p : BucketPolicy)
  | manual (p : Manual)
  | prefixHash (config : PrefixHashConfig)
  | consistentHashing
  | powerOfTwo (cachedLoads : AList fun _ : String => Int)
  | roundRobin (counter : Nat)

/-- What happens to a policy: requests, and the operations that change its state. An operation
of another policy does nothing. -/
inductive PolicyOp where
  | select (c : Call)
  | cacheAware (op : CacheAwareOp)
  | bucket (op : BucketOp)
  | evictIdle (o : Order) (now : Nat)
  | updateLoads (loads : AList fun _ : String => Int)
  | reset

/-- `select_worker`. -/
def Policy.selectWorker (env : Env) (p : Policy) (c : Call) : Option Nat × Policy :=
  match p with
  | .cacheAware p => (p.select env c).map id .cacheAware
  | .bucket p => (p.select env c).map id .bucket
  | .manual p => (p.select c).map id .manual
  | .prefixHash config => (prefixHashSelect env config c, .prefixHash config)
  | .consistentHashing => (consistentHashingSelect env c, .consistentHashing)
  | .powerOfTwo cachedLoads => (powerOfTwoSelect cachedLoads c, .powerOfTwo cachedLoads)
  | .roundRobin counter => (roundRobinSelect counter c).map id .roundRobin

def Policy.apply (env : Env) (p : Policy) : PolicyOp → Policy
  | .select c => (p.selectWorker env c).2
  | .cacheAware op => match p with
    | .cacheAware p => .cacheAware (p.apply env op)
    | p => p
  | .bucket op => match p with
    | .bucket p => .bucket (p.apply env op)
    | p => p
  | .evictIdle o now => match p with
    | .manual p => .manual (p.evictIdle o now)
    | p => p
  | .updateLoads loads => match p with
    | .powerOfTwo _ => .powerOfTwo loads
    | p => p
  | .reset => match p with
    | .roundRobin _ => .roundRobin 0
    | p => p

end SpecDecode.Gateway.Policies
