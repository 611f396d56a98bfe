import SpecDecode.MemCache.RadixCalls
import Mathlib.Algebra.Order.Monoid.Unbundled.WithTop

/-!
# The radix cache of hybrid models

`SWARadixCache` keeps the slots of full attention and of sliding-window attention in one
tree. A tombstoned node has lost its sliding-window slots. Locks count twice: the full
count up to the root, the window count up to the node where the window is covered, which a
uuid marks.

Nodes are numbered by `TreeNode.counter`. A linked LRU list and its dictionary are the list
of its nodes, most recent first. The calls to the allocator are recorded in order. `none`
stands for a failed assertion, an attribute of `None` or a loop without end.

`_compact_single_child_chain` is off by default and left out, and so are the access times,
which only the sanity checks read.
-/

namespace SpecDecode.MemCache

open Function

variable {σ : Type}

structure SwaCacheParams where
  disable : Bool
  pageSize : Nat
  isEagle : Bool
  slidingWindowSize : Nat
  /-- `SGLANG_OPT_SWA_SPLIT_LEAF_ON_INSERT` -/
  splitLeafOnInsert : Bool
  pageSize_pos : 0 < pageSize
  slidingWindowSize_pos : 0 < slidingWindowSize

/-- `TreeNode` of `swa_radix_cache.py`. -/
structure SwaTreeNode (σ : Type) extends PageNode σ where
  swaTombstone : Bool
  fullLockRef : Int
  swaLockRef : Int
  swaUuid : Option Nat

structure LruList where
  isSwaList : Bool
  order : List Nat

namespace LruList

variable (nodes : Nat → SwaTreeNode σ) (l : LruList)

/-- The lock count a list goes by. -/
def lockRef (node : Nat) : Int :=
  if l.isSwaList then (nodes node).swaLockRef else (nodes node).fullLockRef

def addNodeAfter (oldNode : Option Nat) (newNode : Nat) (order : List Nat) : List Nat :=
  match oldNode, order with
  | none, order => newNode :: order
  | some _, [] => []
  | some v, w :: order => if w = v then w :: newNode :: order else w ::
    addNodeAfter (some v) newNode order

def resetNodeMru (node : Nat) : Option LruList :=
  if node ∈ l.order ∧ ¬ (l.isSwaList ∧ (nodes node).swaTombstone) then
    some { l with order := node :: l.order.erase node }
  else none

def resetLoop (rootNode : Nat) : (fuel : Nat) → (prevNode : Option Nat) → (node : Nat) → LruList →
    Option LruList
  | 0, _, _, _ => none
  | fuel + 1, prevNode, node, l =>
      if node = rootNode then some l
      else
        match (nodes node).parent with
        | none => none
        | some parent =>
            if ¬ l.isSwaList ∨ ¬ (nodes node).swaTombstone then
              if node ∈ l.order then
                resetLoop rootNode fuel (some node) parent
                  { l with order := addNodeAfter prevNode node (l.order.erase node) }
              else none
            else resetLoop rootNode fuel prevNode parent l

def insertMru (node : Nat) : Option LruList :=
  if node ∉ l.order ∧ ¬ (l.isSwaList ∧ (nodes node).swaTombstone) then
    some { l with order := node :: l.order }
  else none

def removeNode (node : Nat) : Option LruList :=
  if node ∈ l.order ∧ ¬ (l.isSwaList ∧ (nodes node).swaTombstone) then
    some { l with order := l.order.erase node }
  else none

def getLruNoLock : Option Nat := l.order.reverse.find? fun v => ¬ 0 < l.lockRef nodes v

def getLeafLruNoLock : Option Nat :=
  l.order.reverse.find? fun v => ¬ (0 < l.lockRef nodes v ∨ (nodes v).children ≠ [])

def getPrevNoLock (node : Nat) : Option (Option Nat) :=
  if node ∈ l.order then
    some ((l.order.takeWhile (· ≠ node)).reverse.find? fun v => ¬ 0 < l.lockRef nodes v)
  else none

def getPrevLeafNoLock (node : Nat) : Option (Option Nat) :=
  if node ∈ l.order then
    some ((l.order.takeWhile (· ≠ node)).reverse.find? fun v =>
      ¬ (0 < l.lockRef nodes v ∨ (nodes v).children ≠ []))
  else none

end LruList

inductive AllocatorCall (σ : Type) where
  | free (slots : List σ)
  | freeSwa (slots : List σ)

structure SwaRadixCache (σ : Type) where
  nodes : Nat → SwaTreeNode σ
  counter : Nat
  swaUuidCounter : Nat
  rootNode : Nat
  fullEvictableSize : Int
  swaEvictableSize : Int
  fullProtectedSize : Int
  swaProtectedSize : Int
  fullLruList : LruList
  swaLruList : LruList
  calls : List (AllocatorCall σ)

namespace SwaRadixCache

/-- A cache after `SWARadixCache.reset`, with the root as its only node. -/
def new : SwaRadixCache σ where
  nodes _ := ⟨⟨[], none, ⟨[], none, false⟩, []⟩, false, 1, 1, none⟩
  counter := 1
  swaUuidCounter := 1
  rootNode := 0
  fullEvictableSize := 0
  swaEvictableSize := 0
  fullProtectedSize := 0
  swaProtectedSize := 0
  fullLruList := ⟨false, []⟩
  swaLruList := ⟨true, []⟩
  calls := []

def updateNode (s : SwaRadixCache σ) (node : Nat) (f : SwaTreeNode σ → SwaTreeNode σ) :
    SwaRadixCache σ :=
  { s with nodes := update s.nodes node (f (s.nodes node)) }

def free (s : SwaRadixCache σ) (slots : List σ) : SwaRadixCache σ :=
  { s with calls := s.calls ++ [.free slots] }

def freeSwa (s : SwaRadixCache σ) (slots : List σ) : SwaRadixCache σ :=
  { s with calls := s.calls ++ [.freeSwa slots] }

def onFull (s : SwaRadixCache σ) (f : (Nat → SwaTreeNode σ) → LruList → Option LruList) :
    Option (SwaRadixCache σ) :=
  (f s.nodes s.fullLruList).map fun l => { s with fullLruList := l }

def onSwa (s : SwaRadixCache σ) (f : (Nat → SwaTreeNode σ) → LruList → Option LruList) :
    Option (SwaRadixCache σ) :=
  (f s.nodes s.swaLruList).map fun l => { s with swaLruList := l }

/-- An operation on `full_lru_list`, and on `swa_lru_list` unless the node is tombstoned. -/
def onLists (s : SwaRadixCache σ) (tombstone : Bool)
    (f : (Nat → SwaTreeNode σ) → LruList → Option LruList) : Option (SwaRadixCache σ) :=
  (s.onFull f).bind fun s => if tombstone then some s else s.onSwa f

def splitNodes (c : SwaCacheParams) (s : SwaRadixCache σ) (child splitLen parent : Nat) :
    SwaRadixCache σ :=
  let node := s.nodes child
  let rest := node.key.slice splitLen node.key.len
  let newNode := s.counter
  let s := { s with
    counter := s.counter + 1
    nodes := update s.nodes newNode { node with
      children := [(rest.childKey c.pageSize, child)]
      key := node.key.slice 0 splitLen
      value := node.value.take splitLen } }
  let s := s.updateNode child fun n =>
    { n with parent := some newNode, key := rest, value := n.value.drop splitLen, swaUuid := none }
  s.updateNode parent fun n =>
    { n with children := setChild (node.key.childKey c.pageSize) newNode n.children }

/-- `SWARadixCache._split_node` of a child and its own key. -/
def splitNode (c : SwaCacheParams) (child splitLen : Nat) (s : SwaRadixCache σ) :
    Option (Nat × SwaRadixCache σ) := do
  let node := s.nodes child
  let newNode := s.counter
  if 0 < (node.key.slice 0 splitLen).len ∧ 0 < (node.key.slice splitLen node.key.len).len then
    let parent ← node.parent
    let s ← s.onLists node.swaTombstone fun nodes l => l.removeNode nodes child
    let s := s.splitNodes c child splitLen parent
    let s ← s.onLists node.swaTombstone fun nodes l => l.insertMru nodes newNode
    let s ← s.onLists node.swaTombstone fun nodes l => l.insertMru nodes child
    some (newNode, s)
  else none

structure MatchState (σ : Type) where
  node : Nat
  value : List (List σ)
  /-- `match_len_since_tombstone`, with `⊤` for infinity -/
  matchLen : WithTop Nat
  bestValueLen : Nat
  bestLastNode : Nat
  cache : SwaRadixCache σ

/-- `best_value_len` and `best_last_node` are updated at the current node. -/
def MatchState.updateBest (c : SwaCacheParams) (p : MatchState σ) : MatchState σ :=
  if (c.slidingWindowSize : WithTop Nat) ≤ p.matchLen then
    { p with bestValueLen := p.value.length, bestLastNode := p.node }
  else p

def MatchState.moveTo (p : MatchState σ) (node : Nat) : MatchState σ :=
  let n := p.cache.nodes node
  { p with
    node := node
    value := p.value ++ [n.value]
    matchLen := if n.swaTombstone then p.matchLen else p.matchLen + (n.value.length : WithTop Nat) }

def matchLoop (c : SwaCacheParams) : (fuel : Nat) → RadixKey → MatchState σ → Option (MatchState σ)
  | 0, _, _ => none
  | fuel + 1, key, p =>
      if 0 < key.len then
        match (p.cache.nodes p.node).children.lookup (key.childKey c.pageSize) with
        | none => some p
        | some child =>
            let p :=
              if (p.cache.nodes child).swaTombstone then { p.updateBest c with matchLen :=
                0 } else p
            let prefixLen := (p.cache.nodes child).key.matchLen key c.pageSize
            if prefixLen < (p.cache.nodes child).key.len then
              (p.cache.splitNode c child prefixLen).map fun (newNode, s) =>
                ({ p with cache := s } : MatchState σ).moveTo newNode
            else matchLoop c fuel (key.slice prefixLen key.len) (p.moveTo child)
      else some p

structure SwaMatchResult (σ : Type) where
  deviceIndices : List σ
  lastDeviceNode : Nat

def matchPostProcessor (p : MatchState σ) : Option (SwaMatchResult σ × SwaRadixCache σ) := do
  let s := p.cache
  let s ← s.onFull fun nodes l => l.resetLoop nodes s.rootNode (s.counter + 1) none p.bestLastNode
  let s ← s.onSwa fun nodes l => l.resetLoop nodes s.rootNode (s.counter + 1) none p.bestLastNode
  some (⟨(p.value.take p.bestValueLen).flatten, p.bestLastNode⟩, s)

/-- The part of a key that the cache works with. -/
def alignedKey (c : SwaCacheParams) (key : RadixKey) : RadixKey :=
  (key.maybeToBigramView c.isEagle ([] : List Unit)).1.pageAligned c.pageSize

/-- `SWARadixCache.match_prefix`. -/
def matchPrefix (c : SwaCacheParams) (key : RadixKey) (s : SwaRadixCache σ) :
    Option (SwaMatchResult σ × SwaRadixCache σ) :=
  let (key, _) := key.maybeToBigramView c.isEagle ([] : List Unit)
  if c.disable || key.len = 0 then some (⟨[], s.rootNode⟩, s)
  else
    let key := key.pageAligned c.pageSize
    if key.len = 0 then some (⟨[], s.rootNode⟩, s)
    else (matchLoop c (key.len + 1) key ⟨s.rootNode, [], ⊤, 0, s.rootNode, s⟩).bind fun p =>
      matchPostProcessor (p.updateBest c)

def overwriteNode (node : Nat) (value : List σ) (s : SwaRadixCache σ) :
    Option (SwaRadixCache σ) :=
  let s := s.updateNode node fun n => { n with value := value, swaTombstone := false }
  (s.onSwa fun nodes l => l.insertMru nodes node).map fun s =>
    { s with swaEvictableSize := s.swaEvictableSize + value.length }

/-- The branches of `SWARadixCache._insert_helper` for a matched node. -/
def updateMatchedNode (c : SwaCacheParams) (updateKvAfterLen swaEvictedSeqlen total prefixLen : Nat)
    (node : Nat) (value : List σ) (s : SwaRadixCache σ) : Option (SwaRadixCache σ) :=
  let n := s.nodes node
  if updateKvAfterLen < total + prefixLen then
    if n.swaTombstone then
      if n.swaLockRef = 0 ∧ swaEvictedSeqlen % c.pageSize = 0 then
        if swaEvictedSeqlen ≤ total then
          (s.free (n.value.take prefixLen)).overwriteNode node (value.take prefixLen)
        else if swaEvictedSeqlen < total + prefixLen then
          let startUpdateIdx := swaEvictedSeqlen - total
          let s := s.free ((n.value.take prefixLen).drop startUpdateIdx)
          (s.splitNode c node startUpdateIdx).bind fun (_, s) =>
            (s.free (value.take startUpdateIdx)).overwriteNode node
              ((value.take prefixLen).drop startUpdateIdx)
        else some (s.free (value.take prefixLen))
      else none
    else some (s.free (value.take prefixLen))
  else some s

/-- What the loop of `SWARadixCache._insert_helper` works with: the matched length, the
node it is at and the rest of the key and of the values. -/
structure InsertPoint (σ : Type) where
  totalPrefixLength : Nat
  node : Nat
  key : RadixKey
  value : List σ
  cache : SwaRadixCache σ

def insertLoop (c : SwaCacheParams) (updateKvAfterLen swaEvictedSeqlen : Nat) :
    (fuel : Nat) → InsertPoint σ → Option (InsertPoint σ)
  | 0, _ => none
  | fuel + 1, p =>
      if 0 < p.key.len then
        match (p.cache.nodes p.node).children.lookup (p.key.childKey c.pageSize) with
        | none => some p
        | some child => do
            let s := p.cache
            let s ← s.onLists (s.nodes child).swaTombstone fun nodes l => l.resetNodeMru nodes child
            let prefixLen := (s.nodes child).key.matchLen p.key c.pageSize
            let (node, s) ←
              if prefixLen < (s.nodes child).key.len then s.splitNode c child prefixLen
              else some (child, s)
            let s ← s.updateMatchedNode c updateKvAfterLen swaEvictedSeqlen p.totalPrefixLength
              prefixLen node p.value
            insertLoop c updateKvAfterLen swaEvictedSeqlen fuel
              ⟨p.totalPrefixLength + prefixLen, node, p.key.slice prefixLen p.key.len,
              p.value.drop prefixLen, s⟩
      else some p

def addNewNode (c : SwaCacheParams) (parent : Nat) (key : RadixKey) (value : List σ)
    (swaTombstone : Bool) (s : SwaRadixCache σ) : Option (Nat × SwaRadixCache σ) := do
  let newNode := s.counter
  if 0 < key.len then
    let s := { s with
      counter := s.counter + 1
      nodes := update s.nodes newNode
        ⟨⟨[], some parent, key, value⟩, swaTombstone, 0, 0, none⟩ }
    let s := s.updateNode parent fun n =>
      { n with children := setChild (key.childKey c.pageSize) newNode n.children }
    let s ← s.onLists swaTombstone fun nodes l => l.insertMru nodes newNode
    some (newNode, { s with
      fullEvictableSize := s.fullEvictableSize + value.length
      swaEvictableSize := s.swaEvictableSize + if swaTombstone then 0 else (value.length : Int) })
  else none

def maybeSplitLeafForSwaLock (c : SwaCacheParams) (leaf : Nat) (s : SwaRadixCache σ) :
    Option (SwaRadixCache σ) :=
  let n := s.nodes leaf
  if leaf = s.rootNode ∨ 0 < n.swaLockRef ∨ n.swaTombstone ∨ n.value.length = 0 then some s
  else
    let tailSize := (c.slidingWindowSize + c.pageSize - 1) / c.pageSize * c.pageSize
    if n.value.length ≤ tailSize then some s
    else
      let splitAt := n.value.length - tailSize
      if splitAt = 0 ∨ n.value.length ≤ splitAt then some s
      else if 1 < c.pageSize ∧ (splitAt % c.pageSize ≠ 0 ∨
        n.value.length % c.pageSize ≠ 0) then some s
      else (s.splitNode c leaf splitAt).map Prod.snd

/-- The end of `SWARadixCache._insert_helper`: new nodes for the rest of the key. -/
def insertRest (c : SwaCacheParams) (swaEvictedSeqlen : Nat) (p : InsertPoint σ) :
    Option (SwaRadixCache σ) := do
  if 0 < p.key.len then
    if swaEvictedSeqlen = p.totalPrefixLength + p.key.len then some (p.cache.free p.value)
    else
      let swaTombstoneLen := swaEvictedSeqlen - p.totalPrefixLength
      let (node, s) ←
        if p.totalPrefixLength < swaEvictedSeqlen ∧
            swaEvictedSeqlen < p.totalPrefixLength + p.key.len then
          p.cache.addNewNode c p.node (p.key.slice 0 swaTombstoneLen)
            (p.value.take swaTombstoneLen) true
        else some (p.node, p.cache)
      let (key, value) :=
        if p.totalPrefixLength < swaEvictedSeqlen ∧
            swaEvictedSeqlen < p.totalPrefixLength + p.key.len then
          (p.key.slice swaTombstoneLen p.key.len, p.value.drop swaTombstoneLen)
        else (p.key, p.value)
      let (newLeaf, s) ← s.addNewNode c node key value false
      if c.splitLeafOnInsert then s.maybeSplitLeafForSwaLock c newLeaf else some s
  else some p.cache

/-- `SWARadixCache._insert_helper` at the root: the prefix length and the cache. -/
def insertHelper (c : SwaCacheParams) (key : RadixKey) (value : List σ)
    (updateKvAfterLen swaEvictedSeqlen : Nat) (s : SwaRadixCache σ) :
    Option (Nat × SwaRadixCache σ) := do
  let p ← insertLoop c updateKvAfterLen swaEvictedSeqlen (key.len + 1)
    ⟨0, s.rootNode, key, value, s⟩
  let s ← insertRest c swaEvictedSeqlen p
  some (p.totalPrefixLength, s)

/-- `SWARadixCache.insert`: the prefix length and the cache. -/
def insert (c : SwaCacheParams) (key : RadixKey) (value : List σ)
    (prevPrefixLen swaEvictedSeqlen : Nat) (s : SwaRadixCache σ) : Option (Nat × SwaRadixCache σ) :=
  if c.disable then some (0, s)
  else
    let (key, value) := key.maybeToBigramView c.isEagle value
    let key := key.pageAligned c.pageSize
    insertHelper c key (value.take key.len) prevPrefixLen swaEvictedSeqlen s

/-- `full_lock_ref` changes by `d`, and the slots change sides if it was `border`. -/
def lockFull (border d : Int) (node : Nat) (s : SwaRadixCache σ) : SwaRadixCache σ :=
  let n := s.nodes node
  let moved : Int := if n.fullLockRef = border then d * n.value.length else 0
  { s.updateNode node fun n => { n with fullLockRef := n.fullLockRef + d } with
    fullEvictableSize := s.fullEvictableSize - moved
    fullProtectedSize := s.fullProtectedSize + moved }

/-- `swa_lock_ref` changes by `d`, and the slots change sides if it was `border`. -/
def lockSwa (border d : Int) (node : Nat) (s : SwaRadixCache σ) : SwaRadixCache σ :=
  let n := s.nodes node
  let moved : Int := if n.swaLockRef = border then d * n.value.length else 0
  { s.updateNode node fun n => { n with swaLockRef := n.swaLockRef + d } with
    swaEvictableSize := s.swaEvictableSize - moved
    swaProtectedSize := s.swaProtectedSize + moved }

/-- The uuid of a node, from `gen_swa_uuid` if it has none. -/
def markNode (node : Nat) (s : SwaRadixCache σ) : Nat × SwaRadixCache σ :=
  match (s.nodes node).swaUuid with
  | some uuid => (uuid, s)
  | none =>
      let uuid := s.swaUuidCounter + 1
      (uuid, { s.updateNode node fun n => { n with swaUuid := some uuid } with
        swaUuidCounter := uuid })

def incLockLoop (c : SwaCacheParams) : (fuel node swaLockSize : Nat) → (uuid : Option Nat) →
    SwaRadixCache σ → Option (Option Nat × SwaRadixCache σ)
  | 0, _, _, _, _ => none
  | fuel + 1, node, swaLockSize, uuid, s =>
      if node = s.rootNode then some (uuid, s)
      else
        let n := s.nodes node
        if 0 ≤ n.fullLockRef then
          let s := s.lockFull 0 1 node
          match n.parent with
          | none => none
          | some parent =>
              if swaLockSize < c.slidingWindowSize then
                if n.swaTombstone then none
                else
                  let s := s.lockSwa 0 1 node
                  let swaLockSize := swaLockSize + n.value.length
                  if c.slidingWindowSize ≤ swaLockSize then
                    let (uuid, s) := s.markNode node
                    incLockLoop c fuel parent swaLockSize (some uuid) s
                  else incLockLoop c fuel parent swaLockSize uuid s
              else incLockLoop c fuel parent swaLockSize uuid s
        else none

/-- `SWARadixCache.inc_lock_ref`: the `swa_uuid_for_lock` and the cache. -/
def incLockRef (c : SwaCacheParams) (node : Nat) (s : SwaRadixCache σ) :
    Option (Option Nat × SwaRadixCache σ) :=
  if c.disable then some (none, s) else incLockLoop c (s.counter + 1) node 0 none s

/-- `swa_uuid_for_lock and node.swa_uuid == swa_uuid_for_lock`. -/
def isBorder (uuid : Option Nat) (n : SwaTreeNode σ) : Bool :=
  match uuid with
  | none => false
  | some uuid => uuid ≠ 0 && n.swaUuid = some uuid

def decLockLoop (uuid : Option Nat) : (fuel node : Nat) → (decLockSwa : Bool) → SwaRadixCache σ →
    Option (SwaRadixCache σ)
  | 0, _, _, _ => none
  | fuel + 1, node, decLockSwa, s =>
      if node = s.rootNode then some s
      else
        let n := s.nodes node
        if 0 < n.fullLockRef then
          let s := s.lockFull 1 (-1) node
          match n.parent with
          | none => none
          | some parent =>
              if decLockSwa then
                if ¬ n.swaTombstone ∧ 0 < n.swaLockRef then
                  decLockLoop uuid fuel parent (!isBorder uuid n) (s.lockSwa 1 (-1) node)
                else none
              else decLockLoop uuid fuel parent false s
        else none

/-- `SWARadixCache.dec_lock_ref`. -/
def decLockRef (c : SwaCacheParams) (node : Nat) (uuid : Option Nat) (skipSwa : Bool)
    (s : SwaRadixCache σ) : Option (SwaRadixCache σ) :=
  if c.disable then some s else decLockLoop uuid (s.counter + 1) node (!skipSwa) s

/-- One round of `SWARadixCache.dec_swa_lock_only`: the last window lock of a leaf takes its
sliding-window slots. -/
def releaseSwa (node : Nat) (s : SwaRadixCache σ) : Option (SwaRadixCache σ) :=
  let n := s.nodes node
  let decremented : SwaRadixCache σ → SwaRadixCache σ := fun s =>
    s.updateNode node fun n => { n with swaLockRef := n.swaLockRef - 1 }
  if n.swaLockRef = 1 then
    let s := { s with swaProtectedSize := s.swaProtectedSize - n.value.length }
    if n.children = [] then
      ((s.freeSwa n.value).onSwa fun nodes l => l.removeNode nodes node).map fun s =>
        decremented (s.updateNode node fun n => { n with swaTombstone := true })
    else some (decremented { s with swaEvictableSize := s.swaEvictableSize + n.value.length })
  else some (decremented s)

def decSwaLoop (uuid : Option Nat) : (fuel node : Nat) → SwaRadixCache σ → Option (SwaRadixCache σ)
  | 0, _, _ => none
  | fuel + 1, node, s =>
      if node = s.rootNode then some s
      else
        let n := s.nodes node
        if ¬ n.swaTombstone ∧ 0 < n.swaLockRef then
          (s.releaseSwa node).bind fun s =>
            if isBorder uuid n then some s else n.parent.bind fun parent =>
              decSwaLoop uuid fuel parent s
        else none

/-- `SWARadixCache.dec_swa_lock_only`. -/
def decSwaLockOnly (c : SwaCacheParams) (node : Nat) (uuid : Option Nat) (s : SwaRadixCache σ) :
    Option (SwaRadixCache σ) :=
  if c.disable then some s else decSwaLoop uuid (s.counter + 1) node s

/-- A childless node is taken out of `children` of its parent. -/
def popLeaf (c : SwaCacheParams) (node : Nat) (s : SwaRadixCache σ) : Option (SwaRadixCache σ) :=
  let n := s.nodes node
  match n.parent with
  | none => none
  | some parent =>
      if n.children = [] ∧ (s.nodes parent).children.lookup (n.key.childKey c.pageSize) =
        some node then
        some { s.updateNode parent fun p =>
          { p with children := popChild (n.key.childKey c.pageSize) p.children } with
          fullEvictableSize := s.fullEvictableSize - n.key.len }
      else none

def deleteLeaf (c : SwaCacheParams) (node : Nat) (s : SwaRadixCache σ) :
    Option (SwaRadixCache σ) :=
  (s.popLeaf c node).map fun s' => { s' with
    swaEvictableSize := s'.swaEvictableSize -
      if (s.nodes node).swaTombstone then 0 else ((s.nodes node).key.len : Int) }

def deleteTombstoneLeaf (c : SwaCacheParams) (node : Nat) (s : SwaRadixCache σ) :
    Option (SwaRadixCache σ) :=
  if (s.nodes node).swaTombstone then s.popLeaf c node else none

/-- `SWARadixCache._iteratively_delete_tombstone_leaf`: the last deleted node, the number of
full slots it evicts on top of `fullNumEvicted`, and the cache. -/
def iterativelyDeleteTombstoneLeaf (c : SwaCacheParams) : (fuel node fullNumEvicted : Nat) →
    SwaRadixCache σ → Option (Nat × Nat × SwaRadixCache σ)
  | 0, _, _, _ => none
  | fuel + 1, node, fullNumEvicted, s =>
      match (s.nodes node).parent with
      | none => none
      | some parent =>
          let p := s.nodes parent
          if p.swaTombstone ∧ p.children = [] ∧ parent ≠ s.rootNode ∧ ¬ 0 < p.fullLockRef then
            if p.swaLockRef = 0 then do
              let s := s.free p.value
              let s ← s.onFull fun nodes l => l.removeNode nodes parent
              let s ← s.deleteTombstoneLeaf c parent
              iterativelyDeleteTombstoneLeaf c fuel parent (fullNumEvicted + p.value.length) s
            else none
          else some (node, fullNumEvicted, s)

structure EvictState (σ : Type) where
  fullNumEvicted : Nat
  swaNumEvicted : Nat
  cache : SwaRadixCache σ

/-- `SWARadixCache.evict` frees and deletes the unlocked leaf `x` and the tombstones above
it. Returns the last deleted node. -/
def evictLeaf (c : SwaCacheParams) (x : Nat) (e : EvictState σ) : Option (Nat × EvictState σ) := do
  let n := e.cache.nodes x
  let s := e.cache.free n.value
  let s ← s.onLists n.swaTombstone fun nodes l => l.removeNode nodes x
  let s ← s.deleteLeaf c x
  let (last, fullNumEvicted, s) ← s.iterativelyDeleteTombstoneLeaf c (s.counter + 1) x 0
  some (last, ⟨e.fullNumEvicted + n.value.length + fullNumEvicted,
    e.swaNumEvicted + (if n.swaTombstone then 0 else n.value.length), s⟩)

def evictFullLoop (c : SwaCacheParams) (fullNumTokens : Nat) : (fuel : Nat) → (x : Option Nat) →
    EvictState σ → Option (EvictState σ)
  | 0, _, _ => none
  | fuel + 1, x, e =>
      match x with
      | none => some e
      | some x =>
          if e.fullNumEvicted < fullNumTokens ∧ x ∈ e.cache.fullLruList.order then
            if x ≠ e.cache.rootNode ∧ (e.cache.nodes x).fullLockRef = 0 then do
              let xNext ← e.cache.fullLruList.getPrevLeafNoLock e.cache.nodes x
              let (last, e) ← evictLeaf c x e
              let parent ← (e.cache.nodes last).parent
              let xNext :=
                if (e.cache.nodes parent).children = [] then
                  e.cache.fullLruList.getLeafLruNoLock e.cache.nodes
                else xNext
              evictFullLoop c fullNumTokens fuel xNext e
            else none
          else some e

/-- A node that stays loses its sliding-window slots, `size` by count. -/
def tombstoneNode (x size : Nat) (s : SwaRadixCache σ) : Option (SwaRadixCache σ) :=
  ((s.freeSwa (s.nodes x).value).onSwa fun nodes l => l.removeNode nodes x).map fun s =>
    { s.updateNode x fun n => { n with swaTombstone := true } with
      swaEvictableSize := s.swaEvictableSize - size }

def evictSwaLoop (c : SwaCacheParams) (swaNumTokens : Nat) : (fuel : Nat) → (x : Option Nat) →
    EvictState σ → Option (EvictState σ)
  | 0, _, _ => none
  | fuel + 1, x, e =>
      match x with
      | none => some e
      | some x =>
          if e.swaNumEvicted < swaNumTokens ∧ x ∈ e.cache.swaLruList.order then
            let n := e.cache.nodes x
            if ¬ n.swaTombstone ∧ x ≠ e.cache.rootNode ∧ n.swaLockRef = 0 then do
              let xNext ← e.cache.swaLruList.getPrevNoLock e.cache.nodes x
              if n.children ≠ [] ∨ 0 < n.fullLockRef then
                let s ← e.cache.tombstoneNode x
                  (if n.children ≠ [] then n.key.len else n.value.length)
                evictSwaLoop c swaNumTokens fuel xNext
                  { e with swaNumEvicted := e.swaNumEvicted + n.value.length, cache := s }
              else if n.fullLockRef = 0 then
                let (_, e') ← evictLeaf c x e
                -- the slots of tombstones above the leaf are not counted here
                evictSwaLoop c swaNumTokens fuel xNext
                  { e' with fullNumEvicted := e.fullNumEvicted + n.value.length }
              else none
            else none
          else some e

/-- `SWARadixCache.evict`: the numbers of full and sliding-window slots, and the cache. -/
def evict (c : SwaCacheParams) (numTokens swaNumTokens : Nat) (s : SwaRadixCache σ) :
    Option (EvictState σ) := do
  if c.disable then some ⟨0, 0, s⟩
  else
    let e ←
      if 0 < numTokens then
        evictFullLoop c numTokens (s.counter + 1) (s.fullLruList.getLeafLruNoLock s.nodes) ⟨0, 0, s⟩
      else some ⟨0, 0, s⟩
    if e.swaNumEvicted < swaNumTokens then
      evictSwaLoop c swaNumTokens (e.cache.counter + 1)
        (e.cache.swaLruList.getLruNoLock e.cache.nodes) e
    else some e

end SwaRadixCache

end SpecDecode.MemCache
