import SpecDecode.Lib.PageLayout
import SpecDecode.MemCache.RadixRun

/-!
# KV cache events

A radix cache tells remote routers which blocks it holds: `_record_store_event` and
`_record_remove_event` send one event a page, which names the page by a hash of its tokens and of
the hash of the page before it. The hashes of a node are computed when they are needed and divided
when the node is split.

The hash of a page and its shortening to 64 bits are parameters. `none` stands for an exception.
-/

namespace SpecDecode.MemCache

open Function

open RadixCache (Call InsertPoint EvictState)

variable {σ H B : Type}

/-- `hash_page` of the units of a page, and `hash_str_to_int64`. -/
structure BlockHash (H B : Type) where
  hashPage : List KeyUnit → Option H → H
  toInt64 : H → B

inductive KvEvent (B : Type) where
  | blockStored (blockHash : B) (parentBlockHash : Option B) (tokenIds : List KeyUnit)
  | blockRemoved (blockHash : B)
  | allBlocksCleared
deriving DecidableEq, Repr

def RadixKey.eventPages (k : RadixKey) (pageSize : Nat) : List (List KeyUnit) :=
  (List.range (numPages pageSize k.len)).map fun i => (k.units.drop (i * pageSize)).take pageSize

namespace BlockHash

variable (hash : BlockHash H B)

def hashPages : Option H → List (List KeyUnit) → List H
  | _, [] => []
  | prior, page :: pages =>
      hash.hashPage page prior :: hashPages (some (hash.hashPage page prior)) pages

def storeEvents : Option B → List (List KeyUnit) → List H → Option (List (KvEvent B))
  | _, [], _ => some []
  | _, _ :: _, [] => none
  | parent, page :: pages, h :: hs =>
      (storeEvents (some (hash.toInt64 h)) pages hs).map fun events =>
        .blockStored (hash.toInt64 h) parent page :: events

def removeEvents : List (List KeyUnit) → List H → Option (List (KvEvent B))
  | [], _ => some []
  | _ :: _, [] => none
  | _ :: pages, h :: hs =>
      (removeEvents pages hs).map fun events => .blockRemoved (hash.toInt64 h) :: events

end BlockHash

/-- A radix cache with the hashes of its nodes and the events that it has sent. -/
structure EventCache (σ H B : Type) where
  cache : RadixCache σ
  hashValue : Nat → Option (List H)
  kvEventQueue : List (KvEvent B)

def splitNodeHashValue (childHashValue : Option (List H)) (splitLen pageSize : Nat) :
    Option (List H) × Option (List H) :=
  let splitPages := if pageSize = 1 then splitLen else splitLen / pageSize
  (childHashValue.map (·.take splitPages), childHashValue.map (·.drop splitPages))

namespace EventCache

variable (c : CacheParams) (hash : BlockHash H B)

/-- A cache after `reset`. -/
def new (now : Nat) : EventCache σ H B where
  cache := .new now
  hashValue := update (fun _ => none) (RadixCache.new now : RadixCache σ).rootNode (some [])
  kvEventQueue := [.allBlocksCleared]

def computeNodeHashValues (e : EventCache σ H B) (node : Nat) : List H :=
  let parentHash := (e.cache.nodes node).parent.bind fun parent =>
    (e.hashValue parent).bind fun hashes =>
      if 0 < (e.cache.nodes parent).key.len then hashes.getLast? else none
  hash.hashPages parentHash ((e.cache.nodes node).key.eventPages c.pageSize)

/-- The hashes of a node, computed if they are missing. -/
def nodeHashValue (e : EventCache σ H B) (node : Nat) : List H :=
  (e.hashValue node).getD (e.computeNodeHashValues c hash node)

def recordStoreEvent (node : Nat) (e : EventCache σ H B) : Option (EventCache σ H B) :=
  let hashValue := e.nodeHashValue c hash node
  let parentBlockHash := (e.cache.nodes node).parent.bind fun parent =>
    if parent = e.cache.rootNode then none
    else (e.hashValue parent).bind fun hashes => hashes.getLast?.map hash.toInt64
  (hash.storeEvents parentBlockHash ((e.cache.nodes node).key.eventPages c.pageSize) hashValue).map
    fun events =>
      { e with
        hashValue := update e.hashValue node (some hashValue)
        kvEventQueue := e.kvEventQueue ++ events }

def recordRemoveEvent (node : Nat) (e : EventCache σ H B) : Option (EventCache σ H B) :=
  let hashValue := e.nodeHashValue c hash node
  (hash.removeEvents ((e.cache.nodes node).key.eventPages c.pageSize) hashValue).map fun events =>
    { e with
      hashValue := update e.hashValue node (some hashValue)
      kvEventQueue := e.kvEventQueue ++ events }

def updateNode (e : EventCache σ H B) (node : Nat) (f : TreeNode σ → TreeNode σ) :
    EventCache σ H B :=
  { e with cache := e.cache.updateNode node f }

def splitNode (e : EventCache σ H B) (child splitLen now : Nat) : Nat × EventCache σ H B :=
  let (newNode, cache) := e.cache.splitNode c child splitLen now
  let (newHash, childHash) := splitNodeHashValue (e.hashValue child) splitLen c.pageSize
  (newNode, { e with
    cache := cache
    hashValue := update (update e.hashValue newNode newHash) child childHash })

def matchLoop (now : Nat) : (fuel node : Nat) → RadixKey → EventCache σ H B →
    Option (MatchResult σ × EventCache σ H B)
  | 0, _, _, _ => none
  | fuel + 1, node, key, e =>
      if 0 < key.len then
        match (e.cache.nodes node).children.lookup (key.childKey c.pageSize) with
        | none => some (⟨[], node⟩, e)
        | some child =>
            let e := e.updateNode child fun n => { n with lastAccessTime := now }
            let prefixLen := (e.cache.nodes child).key.matchLen key c.pageSize
            if prefixLen < (e.cache.nodes child).key.len then
              let (newNode, e) := e.splitNode c child prefixLen now
              some (⟨(e.cache.nodes newNode).value, newNode⟩, e)
            else
              (matchLoop now fuel child (key.slice prefixLen key.len) e).map fun (r, e') =>
                ({ r with deviceIndices := (e.cache.nodes child).value ++ r.deviceIndices }, e')
      else some (⟨[], node⟩, e)

/-- `match_prefix`. -/
def matchPrefix (key : RadixKey) (now : Nat) (e : EventCache σ H B) :
    Option (MatchResult σ × EventCache σ H B) :=
  let (key, _) := key.maybeToBigramView c.isEagle ([] : List σ)
  if c.disable || key.len = 0 then some (⟨[], e.cache.rootNode⟩, e)
  else
    let key := key.pageAligned c.pageSize
    if key.len = 0 then some (⟨[], e.cache.rootNode⟩, e)
    else matchLoop c now (key.len + 1) e.cache.rootNode key
      (e.updateNode e.cache.rootNode fun n => { n with lastAccessTime := now })

structure EventPoint (σ H B : Type) where
  totalPrefixLength : Nat
  node : Nat
  key : RadixKey
  value : List σ
  events : EventCache σ H B

def insertLoop (priority : Int) (chunked : Bool) (now : Nat) :
    (fuel : Nat) → EventPoint σ H B → Option (EventPoint σ H B)
  | 0, _ => none
  | fuel + 1, ⟨total, node, key, value, e⟩ =>
      if 0 < key.len then
        match (e.cache.nodes node).children.lookup (key.childKey c.pageSize) with
        | none => some ⟨total, node, key, value, e⟩
        | some child =>
            let e := e.updateNode child fun n => { n with lastAccessTime := now }
            let prefixLen := (e.cache.nodes child).key.matchLen key c.pageSize
            let (node, e) :=
              if prefixLen < (e.cache.nodes child).key.len then e.splitNode c child prefixLen now
              else (child, e)
            let e := e.updateNode node fun n =>
              RadixCache.incHitCount chunked { n with priority := max n.priority priority }
            insertLoop priority chunked now fuel
              ⟨total + prefixLen, node, key.slice prefixLen key.len, value.drop prefixLen, e⟩
      else some ⟨total, node, key, value, e⟩

/-- The end of `_insert_helper`: a leaf whose hashes are computed when its event is sent. -/
def insertLeaf (priority : Int) (chunked : Bool) (now : Nat) (p : EventPoint σ H B) :
    Option (EventCache σ H B) :=
  if 0 < p.key.len then
    let newNode := p.events.cache.counter
    recordStoreEvent c hash newNode { p.events with
      cache := RadixCache.insertLeaf c priority chunked now
        ⟨p.totalPrefixLength, p.node, p.key, p.value, p.events.cache⟩
      hashValue := update p.events.hashValue newNode none }
  else some p.events

def insertHelper (key : RadixKey) (value : List σ) (priority : Int) (chunked : Bool) (now : Nat)
    (e : EventCache σ H B) : Option (Nat × EventCache σ H B) :=
  let e := e.updateNode e.cache.rootNode fun n =>
    { n with lastAccessTime := now, priority := max n.priority priority }
  if key.len = 0 then some (0, e)
  else
    (insertLoop c priority chunked now (key.len + 2) ⟨0, e.cache.rootNode, key, value, e⟩).bind
      fun p => (insertLeaf c hash priority chunked now p).map fun e => (p.totalPrefixLength, e)

/-- `insert`. -/
def insert (key : RadixKey) (value : List σ) (priority : Int) (chunked : Bool) (now : Nat)
    (e : EventCache σ H B) : Option (Nat × EventCache σ H B) :=
  if c.disable then some (0, e)
  else
    let (key, value) := key.maybeToBigramView c.isEagle value
    let key := key.pageAligned c.pageSize
    insertHelper c hash key (value.take key.len) priority chunked now e

structure EventEvict (σ H B : Type) where
  heap : Finset Nat
  freed : List (List σ)
  events : EventCache σ H B

def evictNode (x : Nat) (s : EventEvict σ H B) : Option (EventEvict σ H B) :=
  (RadixCache.evictNode c x ⟨s.heap, s.freed, s.events.cache⟩).bind fun r =>
    (recordRemoveEvent c hash x { s.events with cache := r.cache }).map fun e =>
      ⟨r.heap, r.freed, e⟩

def evictLoop (numTokens : Nat) : List Nat → EventEvict σ H B → Option (EventEvict σ H B)
  | [], s => if (s.freed.map List.length).sum < numTokens ∧ s.heap ≠ ∅ then none else some s
  | x :: victims, s =>
      if (s.freed.map List.length).sum < numTokens then
        (evictNode c hash x s).bind (evictLoop numTokens victims)
      else none

/-- `evict`. -/
def evict (numTokens : Nat) (victims : List Nat) (e : EventCache σ H B) :
    Option (List (List σ) × EventCache σ H B) :=
  if c.disable then if victims = [] then some ([], e) else none
  else (evictLoop c hash numTokens victims ⟨e.cache.evictableLeaves, [], e⟩).map fun s =>
    (s.freed, s.events)

/-- The cache behind a call; a lock sends no events. -/
def exec (e : EventCache σ H B) : Call σ → Option (EventCache σ H B)
  | .matchPrefix key now => (e.matchPrefix c key now).map (·.2)
  | .insert key value priority chunked now =>
      (e.insert c hash key value priority chunked now).map (·.2)
  | .evict numTokens victims => (e.evict c hash numTokens victims).map (·.2)
  | .incLockRef node => ((Call.incLockRef node).exec c e.cache).map fun cache =>
      { e with cache := cache }
  | .decLockRef node => ((Call.decLockRef node).exec c e.cache).map fun cache =>
      { e with cache := cache }

end EventCache

end SpecDecode.MemCache
