import Mathlib.Data.List.Basic
import Mathlib.Data.List.Nodup
import Mathlib.Logic.Function.Basic

/-!
# The n-gram trie: `insert`, `squeeze` and `reset`

Nodes live in a fixed pool and are named by their index in it. The child map is
an association list and `std::list::splice` or `erase` through a stored iterator
moves or removes the one cell of that node. `sorted_children` is the list of the
multiset's elements in its order; `erase` removes the elements equivalent to its
argument under the comparator.

Lengths, frequencies and versions are natural numbers. An operation returns,
throws and leaves the trie as it stands at the throw, or is undefined behaviour.
-/

namespace SpecDecode.Ngram

open Function

structure TrieNode where
  child : List (Int × Nat)
  token : Int
  parent : Nat
  lru : List Nat
  freq : Nat
  version : Nat
  sortedChildren : List Nat

/-- A node as its constructor leaves it. `token` and `parent` are uninitialised. -/
def TrieNode.new (version : Nat) : TrieNode := ⟨[], 0, 0, [], 0, version, []⟩

/-- The parameters of a trie. -/
structure TrieConfig where
  capacity : Nat
  maxTrieDepth : Nat

structure Trie where
  nodes : Nat → TrieNode
  nodePool : Nat → Nat
  freeNodeCount : Nat
  globalLru : List Nat
  root : Nat
  trieEpoch : Nat

inductive TrieError where
  | insufficient (available required : Nat)
  | notLeaf
deriving DecidableEq, Repr

inductive Outcome where
  | returned (t : Trie)
  | threw (e : TrieError) (t : Trie)
  | undefined

namespace Outcome

def andThen : Outcome → (Trie → Outcome) → Outcome
  | returned t, f => f t
  | threw e t, _ => threw e t
  | undefined, _ => undefined

/-- The trie an operation leaves behind. -/
def state : Outcome → Option Trie
  | returned t => some t
  | threw _ t => some t
  | undefined => none

end Outcome

namespace Trie

def less (nodes : Nat → TrieNode) (a b : Nat) : Bool :=
  (nodes b).freq < (nodes a).freq ||
    ((nodes b).freq = (nodes a).freq &&
      ((nodes a).token < (nodes b).token || ((nodes a).token = (nodes b).token && a < b)))

/-- `multiset::insert`: behind everything that is not greater. -/
def insertSorted (nodes : Nat → TrieNode) (x : Nat) : List Nat → List Nat
  | [] => [x]
  | y :: ys => if less nodes x y then x :: y :: ys else y :: insertSorted nodes x ys

def eraseSorted (nodes : Nat → TrieNode) (x : Nat) (xs : List Nat) : List Nat :=
  xs.filter fun y => less nodes x y || less nodes y x

def findChild (t : Trie) (cursor : Nat) (token : Int) : Option Nat :=
  (t.nodes cursor).child.lookup token

/-- `getNode`: take the last free node and construct it anew, keeping its version. -/
def getNode (t : Trie) : Nat × Trie :=
  let node := t.nodePool (t.freeNodeCount - 1)
  (node, { t with
    freeNodeCount := t.freeNodeCount - 1
    nodes := update t.nodes node (.new (t.nodes node).version) })

def addChild (t : Trie) (cursor : Nat) (token : Int) : Nat × Trie :=
  let (node, t) := t.getNode
  let nodes := update t.nodes node
    { t.nodes node with token := token, parent := cursor, freq := 1 }
  let parent := nodes cursor
  (node, { t with
    globalLru := t.globalLru ++ [node]
    nodes := update nodes cursor
      { parent with
        child := (token, node) :: parent.child
        lru := node :: parent.lru
        sortedChildren := insertSorted nodes node parent.sortedChildren } })

def touchChild (t : Trie) (cursor node : Nat) : Trie :=
  let erased := eraseSorted t.nodes node (t.nodes cursor).sortedChildren
  let nodes := update t.nodes node
    { t.nodes node with freq := (t.nodes node).freq + 1 }
  let parent := nodes cursor
  { t with
    nodes := update nodes cursor
      { parent with
        sortedChildren := insertSorted nodes node erased
        lru := node :: parent.lru.erase node } }

/-- The `while (start != end)` loop of `insert`: the nodes of `path_` and the trie. -/
def walk (cursor : Nat) : List Int → Trie → List Nat × Trie
  | [], t => ([], t)
  | token :: rest, t =>
      match t.findChild cursor token with
      | none =>
          let (node, t) := t.addChild cursor token
          let (path, t) := walk node rest t
          (node :: path, t)
      | some node =>
          let (path, t) := walk node rest (t.touchChild cursor node)
          (node :: path, t)

/-- `global_lru_.splice(begin, global_lru_, node->global_lru_pos)`. -/
def spliceFront (t : Trie) (node : Nat) : Trie :=
  { t with globalLru := node :: t.globalLru.erase node }

/-- One round of the loop of `squeeze`; `retireNode` bumps the version. -/
def releaseLast (t : Trie) : Outcome :=
  match t.globalLru.getLast? with
  | none => .undefined
  | some last =>
      let t := { t with globalLru := t.globalLru.dropLast }
      if (t.nodes last).child ≠ [] then .threw .notLeaf t
      else
        let p := (t.nodes last).parent
        let parent := t.nodes p
        let nodes := update t.nodes p
          { parent with
            lru := parent.lru.erase last
            sortedChildren := eraseSorted t.nodes last parent.sortedChildren
            child := parent.child.filter fun entry => entry.1 ≠ (t.nodes last).token }
        .returned { t with
          nodes := update nodes last
            { nodes last with version := (nodes last).version + 1 }
          nodePool := update t.nodePool t.freeNodeCount last
          freeNodeCount := t.freeNodeCount + 1 }

def releaseNodes : (count : Nat) → Trie → Outcome
  | 0, t => .returned t
  | count + 1, t => t.releaseLast.andThen (releaseNodes count)

/-- `Trie::squeeze`. -/
def squeeze (c : TrieConfig) (count : Nat) (t : Trie) : Outcome :=
  if c.capacity < t.freeNodeCount + count then
    .threw (.insufficient (c.capacity - t.freeNodeCount) count) t
  else releaseNodes count t

/-- One round of the outer loop of `insert`, for one suffix start. -/
def insertSuffix (c : TrieConfig) (suffix : List Int) (t : Trie) : Outcome :=
  let made :=
    if t.freeNodeCount < suffix.length then t.squeeze c (suffix.length - t.freeNodeCount)
    else .returned t
  made.andThen fun t =>
    let (path, t) := walk t.root suffix t
    .returned (path.reverse.foldl spliceFront t)

/-- `Trie::insert`. -/
def insert (c : TrieConfig) : List Int → Trie → Outcome
  | [], t => .returned t
  | token :: rest, t =>
      (t.insertSuffix c ((token :: rest).take c.maxTrieDepth)).andThen (insert c rest)

/-- Hand the whole pool out again and take a root from it. -/
def refill (c : TrieConfig) (t : Trie) : Trie :=
  let (root, t) := { t with
    globalLru := []
    nodePool := fun i => i
    freeNodeCount := c.capacity }.getNode
  { t with root := root }

/-- `Trie::reset`. -/
def reset (c : TrieConfig) (t : Trie) : Trie :=
  refill c { t with trieEpoch := t.trieEpoch + 1 }

/-- `Trie::Trie`. -/
def new (c : TrieConfig) : Trie :=
  refill c
    { nodes := fun _ => .new 1
      nodePool := fun i => i
      freeNodeCount := c.capacity
      globalLru := []
      root := 0
      trieEpoch := 1 }

end Trie

end SpecDecode.Ngram
