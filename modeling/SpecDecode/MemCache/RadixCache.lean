import SpecDecode.MemCache.RadixKey
import Mathlib.Algebra.Order.Ring.Int
import Mathlib.Data.Finset.Erase
import Mathlib.Data.Finset.Insert
import Mathlib.Logic.Function.Basic

/-!
# The radix cache

Tree nodes are objects; here they are numbered by `TreeNode.counter` and the cache maps
numbers to nodes. `children` is an association list. A call reads the clock once, as
`now`. The `value` of a node is never `None` in this cache, so no node is `evicted`.

The loops over the tree take fuel; `none` stands for a loop that does not end, a failed
assertion or an attribute of `None`.

`evict` pops a heap whose order leaves ties open, and fills it from a set. The nodes it
pops are given as `victims`; each of them has to be a least element of the heap.
-/

namespace SpecDecode.MemCache

open Function

variable {σ : Type}

structure TreeNode (σ : Type) where
  children : List (ChildKey × Nat)
  parent : Option Nat
  key : RadixKey
  value : List σ
  lockRef : Int
  lastAccessTime : Nat
  creationTime : Nat
  hitCount : Nat
  priority : Int

/-- `TreeNode.__init__`. -/
def TreeNode.new (priority : Int) (now : Nat) : TreeNode σ where
  children := []
  parent := none
  key := ⟨[], none, false⟩
  value := []
  lockRef := 0
  lastAccessTime := now
  creationTime := now
  hitCount := 0
  priority := priority

inductive EvictionPolicy where
  | lru
  | lfu
  | fifo
  | mru
  | filo
  | priority
  | slru
deriving DecidableEq, Repr

def EvictionPolicy.getPriority (policy : EvictionPolicy) (node : TreeNode σ) : Int × Int :=
  match policy with
  | .lru => (node.lastAccessTime, 0)
  | .lfu => (node.hitCount, node.lastAccessTime)
  | .fifo => (node.creationTime, 0)
  | .mru => (-node.lastAccessTime, 0)
  | .filo => (-node.creationTime, 0)
  | .priority => (node.priority, node.lastAccessTime)
  | .slru => (if 2 ≤ node.hitCount then 1 else 0, node.lastAccessTime)

/-- The order of the eviction heap: by priority, then by `TreeNode.__lt__`. -/
def EvictionPolicy.before (policy : EvictionPolicy) (x y : TreeNode σ) : Bool :=
  let (p, q) := policy.getPriority x
  let (p', q') := policy.getPriority y
  p < p' || (p = p' && (q < q' || (q = q' && x.lastAccessTime < y.lastAccessTime)))

structure CacheParams where
  disable : Bool
  pageSize : Nat
  isEagle : Bool
  evictionPolicy : EvictionPolicy

structure RadixCache (σ : Type) where
  nodes : Nat → TreeNode σ
  counter : Nat
  rootNode : Nat
  evictableSize : Int
  protectedSize : Int
  evictableLeaves : Finset Nat

structure MatchResult (σ : Type) where
  deviceIndices : List σ
  lastDeviceNode : Nat

def setChild (key : ChildKey) (node : Nat) : List (ChildKey × Nat) → List (ChildKey × Nat)
  | [] => [(key, node)]
  | (key', node') :: rest =>
      if key' = key then (key, node) :: rest else (key', node') :: setChild key node rest

def popChild (key : ChildKey) (children : List (ChildKey × Nat)) : List (ChildKey × Nat) :=
  children.filter fun entry => entry.1 ≠ key

namespace RadixCache

/-- A cache after `RadixCache.reset`, with the root as its only node. -/
def new (now : Nat) : RadixCache σ where
  nodes _ := { TreeNode.new (-(2 ^ 63 - 1)) now with lockRef := 1 }
  counter := 1
  rootNode := 0
  evictableSize := 0
  protectedSize := 0
  evictableLeaves := ∅

def updateNode (s : RadixCache σ) (node : Nat) (f : TreeNode σ → TreeNode σ) : RadixCache σ :=
  { s with nodes := update s.nodes node (f (s.nodes node)) }

def updateLeafStatus (s : RadixCache σ) (node : Nat) : RadixCache σ :=
  if 0 < (s.nodes node).lockRef ∨ (s.nodes node).children ≠ [] then
    { s with evictableLeaves := s.evictableLeaves.erase node }
  else { s with evictableLeaves := insert node s.evictableLeaves }

def splitNode (c : CacheParams) (s : RadixCache σ) (child splitLen now : Nat) :
    Nat × RadixCache σ :=
  let node := s.nodes child
  let rest := node.key.slice splitLen node.key.len
  let newNode := s.counter
  let s := { s with
    counter := s.counter + 1
    nodes := update s.nodes newNode
      { (TreeNode.new node.priority now : TreeNode σ) with
        hitCount := node.hitCount
        children := [(rest.childKey c.pageSize, child)]
        parent := node.parent
        lockRef := node.lockRef
        key := node.key.slice 0 splitLen
        value := node.value.take splitLen } }
  let s := s.updateNode child fun n =>
    { n with parent := some newNode, key := rest, value := n.value.drop splitLen }
  match node.parent with
  | none => (newNode, s)
  | some parent => (newNode, s.updateNode parent fun n =>
      { n with children := setChild (node.key.childKey c.pageSize) newNode n.children })

/-- The loop of `RadixCache._match_prefix_helper`: the values, the last node and the cache. -/
def matchLoop (c : CacheParams) (now : Nat) :
    (fuel node : Nat) → RadixKey → RadixCache σ → Option (MatchResult σ × RadixCache σ)
  | 0, _, _, _ => none
  | fuel + 1, node, key, s =>
      if 0 < key.len then
        match (s.nodes node).children.lookup (key.childKey c.pageSize) with
        | none => some (⟨[], node⟩, s)
        | some child =>
            let s := s.updateNode child fun n => { n with lastAccessTime := now }
            let prefixLen := (s.nodes child).key.matchLen key c.pageSize
            if prefixLen < (s.nodes child).key.len then
              let (newNode, s) := s.splitNode c child prefixLen now
              some (⟨(s.nodes newNode).value, newNode⟩, s)
            else
              (matchLoop c now fuel child (key.slice prefixLen key.len) s).map fun (r, s') =>
                ({ r with deviceIndices := (s.nodes child).value ++ r.deviceIndices }, s')
      else some (⟨[], node⟩, s)

/-- `RadixCache.match_prefix`. -/
def matchPrefix (c : CacheParams) (key : RadixKey) (now : Nat) (s : RadixCache σ) :
    Option (MatchResult σ × RadixCache σ) :=
  let (key, _) := key.maybeToBigramView c.isEagle ([] : List σ)
  if c.disable || key.len = 0 then some (⟨[], s.rootNode⟩, s)
  else
    let key := key.pageAligned c.pageSize
    if key.len = 0 then some (⟨[], s.rootNode⟩, s)
    else matchLoop c now (key.len + 1) s.rootNode key
      (s.updateNode s.rootNode fun n => { n with lastAccessTime := now })

def incHitCount (chunked : Bool) (n : TreeNode σ) : TreeNode σ :=
  if chunked then n else { n with hitCount := n.hitCount + 1 }

/-- What the loop of `RadixCache._insert_helper` leaves: the matched length, the node it
ends at and the rest of the key and of the values. -/
structure InsertPoint (σ : Type) where
  totalPrefixLength : Nat
  node : Nat
  key : RadixKey
  value : List σ
  cache : RadixCache σ

def insertLoop (c : CacheParams) (priority : Int) (chunked : Bool) (now : Nat) :
    (fuel : Nat) → InsertPoint σ → Option (InsertPoint σ)
  | 0, _ => none
  | fuel + 1, ⟨total, node, key, value, s⟩ =>
      if 0 < key.len then
        match (s.nodes node).children.lookup (key.childKey c.pageSize) with
        | none => some ⟨total, node, key, value, s⟩
        | some child =>
            let s := s.updateNode child fun n => { n with lastAccessTime := now }
            let prefixLen := (s.nodes child).key.matchLen key c.pageSize
            let (node, s) :=
              if prefixLen < (s.nodes child).key.len then s.splitNode c child prefixLen now
              else (child, s)
            let s := s.updateNode node fun n =>
              incHitCount chunked { n with priority := max n.priority priority }
            insertLoop c priority chunked now fuel
              ⟨total + prefixLen, node, key.slice prefixLen key.len, value.drop prefixLen, s⟩
      else some ⟨total, node, key, value, s⟩

/-- The end of `RadixCache._insert_helper`: a leaf for the rest of the key. -/
def insertLeaf (c : CacheParams) (priority : Int) (chunked : Bool) (now : Nat)
    (p : InsertPoint σ) : RadixCache σ :=
  if 0 < p.key.len then
    let newNode := p.cache.counter
    let s := { p.cache with
      counter := p.cache.counter + 1
      evictableSize := p.cache.evictableSize + p.key.len
      nodes := update p.cache.nodes newNode
        (incHitCount chunked { (TreeNode.new priority now : TreeNode σ) with
          parent := some p.node
          key := p.key
          value := p.value }) }
    let s := s.updateNode p.node fun n =>
      { n with children := setChild (p.key.childKey c.pageSize) newNode n.children }
    (s.updateLeafStatus p.node).updateLeafStatus newNode
  else p.cache

def insertHelper (c : CacheParams) (key : RadixKey) (value : List σ) (priority : Int)
    (chunked : Bool) (now : Nat) (s : RadixCache σ) : Option (Nat × RadixCache σ) :=
  let s := s.updateNode s.rootNode fun n =>
    { n with lastAccessTime := now, priority := max n.priority priority }
  if key.len = 0 then some (0, s)
  else
    (insertLoop c priority chunked now (key.len + 2) ⟨0, s.rootNode, key, value, s⟩).map fun p =>
      (p.totalPrefixLength, insertLeaf c priority chunked now p)

/-- `RadixCache.insert`: the prefix length and the cache. -/
def insert (c : CacheParams) (key : RadixKey) (value : List σ) (priority : Int)
    (chunked : Bool) (now : Nat) (s : RadixCache σ) : Option (Nat × RadixCache σ) :=
  if c.disable then some (0, s)
  else
    let (key, value) := key.maybeToBigramView c.isEagle value
    let key := key.pageAligned c.pageSize
    insertHelper c key (value.take key.len) priority chunked now s

/-- One round of the loops of `inc_lock_ref` and `dec_lock_ref`: `lock_ref` changes by `d`,
and the key changes sides if it was `border`. Returns by how much `delta` falls. -/
def lockNode (border d : Int) (node : Nat) (s : RadixCache σ) : Int × RadixCache σ :=
  let n := s.nodes node
  let moved : Int := if n.lockRef = border then d * n.key.len else 0
  let s := { s with
    evictableSize := s.evictableSize - moved
    protectedSize := s.protectedSize + moved }
  let s := s.updateNode node fun n => { n with lockRef := n.lockRef + d }
  (moved, s.updateLeafStatus node)

/-- The loops of `inc_lock_ref` and `dec_lock_ref`, up to the root. -/
def lockLoop (border d : Int) : (fuel node : Nat) → (delta : Int) → RadixCache σ →
    Option (Int × RadixCache σ)
  | 0, _, _, _ => none
  | fuel + 1, node, delta, s =>
      if node = s.rootNode then some (delta, s)
      else
        match (s.nodes node).parent with
        | none => none
        | some parent =>
            let (moved, s) := lockNode border d node s
            lockLoop border d fuel parent (delta - moved) s

/-- `RadixCache.inc_lock_ref`: the delta and the cache. -/
def incLockRef (c : CacheParams) (node : Nat) (s : RadixCache σ) : Option (Int × RadixCache σ) :=
  if c.disable then some (0, s) else lockLoop 0 1 (s.counter + 1) node 0 s

/-- `RadixCache.dec_lock_ref`: the delta and the cache. -/
def decLockRef (c : CacheParams) (node : Nat) (s : RadixCache σ) : Option (Int × RadixCache σ) :=
  if c.disable then some (0, s) else lockLoop 1 (-1) (s.counter + 1) node 0 s

def deleteLeaf (c : CacheParams) (node : Nat) (s : RadixCache σ) : Option (RadixCache σ) :=
  match (s.nodes node).parent with
  | none => none
  | some parent =>
      let key := (s.nodes node).key.childKey c.pageSize
      if (s.nodes parent).children.lookup key = some node then
        let s := s.updateNode parent fun n => { n with children := popChild key n.children }
        let s := { s with
          evictableSize := s.evictableSize - (s.nodes node).key.len
          evictableLeaves := s.evictableLeaves.erase node }
        some (s.updateLeafStatus parent)
      else none

/-- What `RadixCache.evict` has done so far: the heap, the slots it has freed, node by
node, and the cache. -/
structure EvictState (σ : Type) where
  heap : Finset Nat
  freed : List (List σ)
  cache : RadixCache σ

def EvictState.numEvicted (e : EvictState σ) : Nat := (e.freed.map List.length).sum

/-- One round of the loop of `RadixCache.evict`, which pops `x`. -/
def evictNode (c : CacheParams) (x : Nat) (e : EvictState σ) : Option (EvictState σ) :=
  let n := e.cache.nodes x
  if x ∈ e.heap ∧ ∀ y ∈ e.heap, c.evictionPolicy.before (e.cache.nodes y) n = false then
    (deleteLeaf c x e.cache).bind fun s =>
      n.parent.map fun parent =>
        { heap :=
            if (s.nodes parent).children = [] ∧ (s.nodes parent).lockRef = 0 then
              Insert.insert parent (e.heap.erase x)
            else e.heap.erase x
          freed := e.freed ++ [n.value]
          cache := s }
  else none

def evictLoop (c : CacheParams) (numTokens : Nat) : List Nat → EvictState σ → Option (EvictState σ)
  | [], e => if e.numEvicted < numTokens ∧ e.heap ≠ ∅ then none else some e
  | x :: victims, e =>
      if e.numEvicted < numTokens then (evictNode c x e).bind (evictLoop c numTokens victims)
      else none

/-- `RadixCache.evict`: the slots it frees and the cache. -/
def evict (c : CacheParams) (numTokens : Nat) (victims : List Nat) (s : RadixCache σ) :
    Option (List (List σ) × RadixCache σ) :=
  if c.disable then if victims = [] then some ([], s) else none
  else (evictLoop c numTokens victims ⟨s.evictableLeaves, [], s⟩).map fun e => (e.freed, e.cache)

end RadixCache

end SpecDecode.MemCache
