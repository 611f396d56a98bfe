import SpecDecode.Gateway.CharText
import SpecDecode.Lib.DepthFirst
import Mathlib.Algebra.Order.Ring.Int
import Mathlib.Data.List.AList

/-!
# The multi tenant radix tree of the gateway

Nodes live in an arena and refer to each other by index; the root is node `0`. The order in
which hash maps are iterated, and which of the oldest entries a heap pops, are not fixed by
the code: an `Order` says what they are in one call. The epochs come from a counter that all
trees share, so each call takes its own.
-/

namespace SpecDecode.Gateway

open Function

structure NodeText where
  text : List Char
  charCount : Nat
deriving DecidableEq

namespace NodeText

def new (text : List Char) : NodeText := ⟨text, text.length⟩

def empty : NodeText := ⟨[], 0⟩

def firstChar (n : NodeText) : Option Char := n.text.head?

def splitAtChar (n : NodeText) (charIdx : Nat) : NodeText × NodeText :=
  if charIdx = 0 then (empty, n)
  else if n.charCount ≤ charIdx then (n, empty)
  else (⟨n.text.take charIdx, charIdx⟩, ⟨n.text.drop charIdx, n.charCount - charIdx⟩)

end NodeText

structure Node where
  children : AList fun _ : Char => Nat
  text : NodeText
  tenantLastAccessTime : AList fun _ : String => Nat
  parent : Option Nat
  lastTenant : Option String

structure Tree where
  nodes : Nat → Node
  next : Nat
  tenantCharCount : AList fun _ : String => Nat

structure EvictionEntry where
  timestamp : Nat
  tenant : String
  node : Nat

structure PrefixMatchResult where
  tenant : String
  matchedCharCount : Nat
  inputCharCount : Nat
deriving DecidableEq

/-- How maps are iterated and what a heap of `Reverse` entries pops. -/
structure Order where
  iter : {κ ν : Type} → (AList fun _ : κ => ν) → List (Sigma fun _ : κ => ν)
  iter_perm {κ ν : Type} (m : AList fun _ : κ => ν) : (iter m).Perm m.entries
  pop : List EvictionEntry → Option (EvictionEntry × List EvictionEntry)
  pop_nil : pop [] = none
  pop_cons (e : EvictionEntry) (pq : List EvictionEntry) :
    ∃ e' pq', pop (e :: pq) = some (e', pq') ∧
    (e :: pq).Perm (e' :: pq') ∧ ∀ e'' ∈ pq', e'.timestamp ≤ e''.timestamp

namespace Order

variable (o : Order) {κ ν : Type} [DecidableEq κ] {m : AList fun _ : κ => ν}

theorem mem_iter {k : κ} {x : ν} : ⟨k, x⟩ ∈ o.iter m ↔ m.lookup k = some x := by
  rw [(o.iter_perm m).mem_iff]
  exact AList.mem_lookup_iff.symm

theorem iter_head? : ((o.iter m).head?.map (·.1)) = none ↔ ∀ k, k ∉ m := by
  rw [Option.map_eq_none_iff, List.head?_eq_none_iff]
  constructor
  · intro hnil k hk
    obtain ⟨x, hx⟩ := Option.isSome_iff_exists.mp (AList.lookup_isSome.mpr hk)
    have hmem := o.mem_iter.mpr hx
    rw [hnil] at hmem
    cases hmem
  · intro hnone
    refine List.eq_nil_iff_forall_not_mem.mpr fun ⟨k, x⟩ hmem => hnone k ?_
    exact AList.lookup_isSome.mp (by rw [o.mem_iter.mp hmem]; rfl)

end Order

namespace Tree

def root : Nat := 0

def modify (t : Tree) (v : Nat) (f : Node → Node) : Tree :=
  { t with nodes := update t.nodes v (f (t.nodes v)) }

/-- `Tree::new`. -/
def new : Tree where
  nodes _ := ⟨∅, .empty, ∅, none, none⟩
  next := 1
  tenantCharCount := ∅

def containsKey (t : Tree) (v : Nat) (tenant : String) : Bool :=
  ((t.nodes v).tenantLastAccessTime.lookup tenant).isSome

def insertTime (t : Tree) (v : Nat) (tenant : String) (epoch : Nat) : Tree :=
  t.modify v fun n => { n with tenantLastAccessTime := n.tenantLastAccessTime.insert tenant epoch }

def eraseTime (t : Tree) (v : Nat) (tenant : String) : Tree :=
  t.modify v fun n => { n with tenantLastAccessTime := n.tenantLastAccessTime.erase tenant }

/-- `tenant_char_count.entry(tenant).and_modify(|count| *count += n).or_insert(n)`. -/
def addCount (t : Tree) (tenant : String) (n : Nat) : Tree :=
  { t with tenantCharCount :=
      t.tenantCharCount.insert tenant ((t.tenantCharCount.lookup tenant).getD 0 + n) }

/-- `tenant_char_count.entry(tenant).and_modify(|count| *count = count.saturating_sub(n))`. -/
def subCount (t : Tree) (tenant : String) (n : Nat) : Tree :=
  { t with tenantCharCount := match t.tenantCharCount.lookup tenant with
      | some count => t.tenantCharCount.insert tenant (count - n)
      | none => t.tenantCharCount }

/-- Ensure the tenant exists at a node, and count its characters if it did not. -/
def attach (t : Tree) (v : Nat) (tenant : String) (charCount : Nat) : Tree :=
  if t.containsKey v tenant then t else (t.addCount tenant charCount).insertTime v tenant 0

/-- The vacant entry: a new leaf under `prev` with the remaining text. -/
def addLeaf (t : Tree) (prev : Nat) (firstChar : Char) (remaining : List Char) (tenant : String)
    (epoch : Nat) : Tree :=
  let t := t.addCount tenant remaining.length
  { t with
    nodes := update (update t.nodes t.next
        ⟨∅, .new remaining, (∅ : AList fun _ : String => Nat).insert tenant epoch,
          some prev, some tenant⟩)
      prev { t.nodes prev with children := (t.nodes prev).children.insert firstChar t.next }
    next := t.next + 1 }

/-- The occupied entry whose text is longer than what is shared: a new node takes the shared
part. -/
def split (t : Tree) (prev matched : Nat) (firstChar : Char) (sharedCount : Nat) : Tree :=
  let node := t.nodes matched
  let (matchedText, contractedText) := node.text.splitAtChar sharedCount
  let children := match contractedText.firstChar with
    | some firstNewChar => (∅ : AList fun _ : Char => Nat).insert firstNewChar matched
    | none => ∅
  { t with
    nodes := update (update (update t.nodes t.next
          ⟨children, matchedText, node.tenantLastAccessTime, some prev, node.lastTenant⟩)
        prev { t.nodes prev with children := (t.nodes prev).children.insert firstChar t.next })
      matched { node with text := contractedText, parent := some t.next }
    next := t.next + 1 }

def insertLoop (tenant : String) (epoch : Nat) : Nat → Tree → Nat → List Char → Tree
  | 0, t, _, _ => t
  | _ + 1, t, prev, [] => t.insertTime prev tenant epoch
  | fuel + 1, t, prev, firstChar :: rest =>
      match (t.nodes prev).children.lookup firstChar with
      | none => t.addLeaf prev firstChar (firstChar :: rest) tenant epoch
      | some matched =>
          let matchedText := (t.nodes matched).text
          let sharedCount := sharedPrefixCount (firstChar :: rest) matchedText.text
          let remaining := advanceByChars (firstChar :: rest) sharedCount
          if sharedCount < matchedText.charCount then
            insertLoop tenant epoch fuel
              ((t.split prev matched firstChar sharedCount).attach t.next tenant sharedCount)
              t.next remaining
          else
            insertLoop tenant epoch fuel (t.attach matched tenant matchedText.charCount) matched
              remaining

def orInsertZero (m : AList fun _ : String => Nat) (tenant : String) :
    AList fun _ : String => Nat :=
  if (m.lookup tenant).isSome then m else m.insert tenant 0

/-- Ensure the tenant exists at the root and has a count. -/
def register (t : Tree) (tenant : String) : Tree :=
  let t := t.modify root fun n =>
    { n with tenantLastAccessTime := orInsertZero n.tenantLastAccessTime tenant }
  { t with tenantCharCount := orInsertZero t.tenantCharCount tenant }

/-- `insert`; each round takes at least one character. -/
def insert (t : Tree) (text : List Char) (tenant : String) (epoch : Nat) : Tree :=
  insertLoop tenant epoch (text.length + 1) (t.register tenant) root text

/-- The loop that both matches share: go down as long as the text of a child is matched in
full and the child passes `admits`. Returns where it ends and how many characters matched. -/
def matchLoop (t : Tree) (admits : Nat → Bool) : Nat → Nat → List Char → Nat → Nat × Nat
  | 0, prev, _, matchedChars => (prev, matchedChars)
  | _ + 1, prev, [], matchedChars => (prev, matchedChars)
  | fuel + 1, prev, firstChar :: rest, matchedChars =>
      match (t.nodes prev).children.lookup firstChar with
      | none => (prev, matchedChars)
      | some matched =>
          if admits matched then
            let matchedText := (t.nodes matched).text
            let sharedCount := sharedPrefixCount (firstChar :: rest) matchedText.text
            if sharedCount = matchedText.charCount then
              matchLoop t admits fuel matched (advanceByChars (firstChar :: rest) sharedCount)
                (matchedChars + sharedCount)
            else (matched, matchedChars + sharedCount)
          else (prev, matchedChars)

def firstTenant (o : Order) (n : Node) : String :=
  ((o.iter n.tenantLastAccessTime).head?.map (·.1)).getD "empty"

/-- The tenant a match reports at the node where it ends, and the node with its cache. -/
def ownerOf (o : Order) (n : Node) : String × Node :=
  match n.lastTenant with
  | some t =>
      if (n.tenantLastAccessTime.lookup t).isSome then (t, n)
      else (firstTenant o n, { n with lastTenant := some (firstTenant o n) })
  | none => (firstTenant o n, { n with lastTenant := some (firstTenant o n) })

/-- `prefix_match_with_counts`. -/
def prefixMatchWithCounts (o : Order) (t : Tree) (text : List Char) (epoch : Nat) :
    PrefixMatchResult × Tree :=
  let (curr, matchedChars) := t.matchLoop (fun _ => true) (text.length + 1) root text 0
  let (tenant, node) := ownerOf o (t.nodes curr)
  let t := t.modify curr fun _ => node
  let t := if epoch % 8 = 0 then t.insertTime curr tenant epoch else t
  (⟨tenant, matchedChars, text.length⟩, t)

/-- `prefix_match_tenant`. -/
def prefixMatchTenant (t : Tree) (text : List Char) (tenant : String) (epoch : Nat) :
    List Char × Tree :=
  let (curr, matchedChars) :=
    t.matchLoop (fun v => t.containsKey v tenant) (text.length + 1) root text 0
  let t := if t.containsKey curr tenant then t.insertTime curr tenant epoch else t
  (takeChars text matchedChars, t)

def kids (o : Order) (t : Tree) (v : Nat) : List Nat := (o.iter (t.nodes v).children).map (·.2)

/-- The nodes in the order in which a stack from the root meets them. -/
def visited (o : Order) (t : Tree) : List Nat := DepthFirst.collect (t.kids o) t.next [root]

def hasChildWithTenant (o : Order) (t : Tree) (v : Nat) (tenant : String) : Bool :=
  (t.kids o v).any fun child => t.containsKey child tenant

def leafOf (o : Order) (t : Tree) (v : Nat) : List String :=
  let candidates := (o.iter (t.nodes v).tenantLastAccessTime).foldl
    (fun m e => m.insert e.1 true) (∅ : AList fun _ : String => Bool)
  let candidates := (t.kids o v).foldl (fun m child =>
    (o.iter (t.nodes child).tenantLastAccessTime).foldl (fun m e => m.insert e.1 false) m)
      candidates
  ((o.iter candidates).filter (·.2)).map (·.1)

/-- Remove the tenant from the node, and the node from its parent once nothing is left. -/
def detach (t : Tree) (v : Nat) (tenant : String) : Tree :=
  let t := t.eraseTime v tenant
  let n := t.nodes v
  if n.children.entries.isEmpty && n.tenantLastAccessTime.entries.isEmpty then
    match n.parent, n.text.firstChar with
    | some parent, some fc => t.modify parent fun p => { p with children := p.children.erase fc }
    | _, _ => t
  else t

def parentLeaf (o : Order) (t : Tree) (v : Nat) (tenant : String) : Option Nat :=
  (t.nodes v).parent.filter fun parent =>
    t.containsKey parent tenant && !t.hasChildWithTenant o parent tenant

def entryOf (t : Tree) (v : Nat) (tenant : String) : Option EvictionEntry :=
  ((t.nodes v).tenantLastAccessTime.lookup tenant).map fun timestamp => ⟨timestamp, tenant, v⟩

/-- What happens to a popped entry: the tree after it and what is pushed. -/
def evictEntry (o : Order) (maxSize : Nat) (t : Tree) (e : EvictionEntry) :
    Tree × List EvictionEntry :=
  if (t.tenantCharCount.lookup e.tenant).any (· ≤ maxSize) then (t, [])
  else if !(t.containsKey e.node e.tenant && !t.hasChildWithTenant o e.node e.tenant) then (t, [])
  else
    let nodeLen := (t.nodes e.node).text.charCount
    let t := (t.subCount e.tenant nodeLen).detach e.node e.tenant
    (t, ((t.parentLeaf o e.node e.tenant).bind fun parent => t.entryOf parent e.tenant).toList)

def evictLoop (o : Order) (maxSize : Nat) : Nat → Tree → List EvictionEntry → Tree
  | 0, t, _ => t
  | fuel + 1, t, pq =>
      match o.pop pq with
      | none => t
      | some (e, pq) =>
          let (t, pushed) := t.evictEntry o maxSize e
          evictLoop o maxSize fuel t (pushed ++ pq)

def tenancies (t : Tree) : Nat :=
  ((List.range t.next).map fun v => (t.nodes v).tenantLastAccessTime.entries.length).sum

/-- `evict_tenant_by_size`; every round pops an entry or takes a tenant off a node. -/
def evictTenantBySize (o : Order) (t : Tree) (maxSize : Nat) : Tree :=
  let pq := (t.visited o).flatMap fun v => (t.leafOf o v).filterMap fun tenant => t.entryOf v tenant
  evictLoop o maxSize (pq.length + t.tenancies) t pq

def removeLoop (o : Order) (tenant : String) : Nat → Tree → List Nat → Tree
  | 0, t, _ => t
  | _ + 1, t, [] => t
  | fuel + 1, t, curr :: queue =>
      let t := t.detach curr tenant
      removeLoop o tenant fuel t (queue ++ (t.parentLeaf o curr tenant).toList)

/-- `remove_tenant`; every round takes the tenant off a node. -/
def removeTenant (o : Order) (t : Tree) (tenant : String) : Tree :=
  let queue := (t.visited o).filter fun v =>
    t.containsKey v tenant && !t.hasChildWithTenant o v tenant
  let t := removeLoop o tenant t.tenancies t queue
  { t with tenantCharCount := t.tenantCharCount.erase tenant }

def getUsedSizePerTenant (o : Order) (t : Tree) : AList fun _ : String => Nat :=
  (t.visited o).foldl (fun used v =>
    (o.iter (t.nodes v).tenantLastAccessTime).foldl (fun used e =>
      used.insert e.1 ((used.lookup e.1).getD 0 + (t.nodes v).text.charCount)) used) ∅

end Tree

inductive TreeOp where
  | insert (text : List Char) (tenant : String) (epoch : Nat)
  | prefixMatchWithCounts (o : Order) (text : List Char) (epoch : Nat)
  | prefixMatchTenant (text : List Char) (tenant : String) (epoch : Nat)
  | evictTenantBySize (o : Order) (maxSize : Nat)
  | removeTenant (o : Order) (tenant : String)

namespace Tree

def apply (t : Tree) : TreeOp → Tree
  | .insert text tenant epoch => t.insert text tenant epoch
  | .prefixMatchWithCounts o text epoch => (t.prefixMatchWithCounts o text epoch).2
  | .prefixMatchTenant text tenant epoch => (t.prefixMatchTenant text tenant epoch).2
  | .evictTenantBySize o maxSize => t.evictTenantBySize o maxSize
  | .removeTenant o tenant => t.removeTenant o tenant

def run (t : Tree) (ops : List TreeOp) : Tree := ops.foldl apply t

end Tree

end SpecDecode.Gateway
