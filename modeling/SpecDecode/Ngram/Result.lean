import SpecDecode.Lib.Launch
import SpecDecode.Lib.Tree
import Mathlib.Data.List.ProdSigma

/-!
# Draft trees of the n-gram corpus and their masks

A draft tree is built node by node from the trie or from a suffix automaton, numbered
breadth-first and handed over as a list of tokens and a square mask in which the row of a
token marks the token and its ancestors. The trees of several indexes are merged through
their root-to-leaf paths, and a kernel reads positions and links back from the mask.

A node keeps its children in the order in which they were inserted. The iteration order of
an `unordered_map` is a parameter `iter`, and so are the floating point scores that only
decide which nodes are added.
-/

namespace SpecDecode.Ngram

open Function Buffer

/-- `Result`, with the rows of the mask one after the other. -/
structure Result where
  token : List Int
  mask : Nat → Bool

/-- `tree` and `cursor` while a tree is built. -/
structure DraftTree where
  next : Nat → List (Int × Nat)
  cursor : Nat

namespace DraftTree

/-- A root alone. -/
def new : DraftTree := ⟨fun _ => [], 1⟩

/-- Find the child of `parent` under `token` or insert it. -/
def findOrInsert (parent : Nat) (token : Int) (t : DraftTree) : Nat × DraftTree :=
  match (t.next parent).lookup token with
  | some pos => (pos, t)
  | none =>
      (t.cursor, {
        next := update t.next parent (t.next parent ++ [(token, t.cursor)])
        cursor := t.cursor + 1 })

section Recency

variable {ν β : Type} (children : ν → List (Int × ν)) (breadth : β → Nat) (narrow : β → β)
variable (draftTokenNum : Nat)

def expandRecency (parent : Nat) (score : β) :
    Nat → List (Int × ν) → List (Nat × β × ν) → DraftTree → List (Nat × β × ν) × DraftTree
  | 0, _, queue, t => (queue, t)
  | _ + 1, [], queue, t => (queue, t)
  | i + 1, (token, node) :: rest, queue, t =>
      if t.cursor ≤ draftTokenNum then
        let (pos, t) := t.findOrInsert parent token
        expandRecency parent score i rest (queue ++ [(pos, score, node)]) t
      else (queue, t)

def recencyLoop : Nat → List (Nat × β × ν) → DraftTree → Option DraftTree
  | 0, queue, t => if queue = [] ∨ draftTokenNum < t.cursor then some t else none
  | _ + 1, [], t => some t
  | fuel + 1, (parent, score, node) :: queue, t =>
      if t.cursor ≤ draftTokenNum then
        let (queue, t) := expandRecency draftTokenNum parent (narrow score) (breadth score)
          (children node) queue t
        recencyLoop fuel queue t
      else some t

def buildRecency (fuel : Nat) (anchors : List (β × ν)) : Option DraftTree :=
  anchors.foldlM (fun t anchor =>
    recencyLoop children breadth narrow draftTokenNum fuel [(0, anchor.1, anchor.2)] t) new

end Recency

section Frequency

variable {ν β : Type} (children : ν → List (Int × ν)) (share : ν → ν → β → β)
variable (pop : List (Nat × Int × ν × β) → Option ((Nat × Int × ν × β) × List (Nat × Int × ν × β)))
variable (draftTokenNum : Nat)

def addToHeap (parent : Nat) (node : ν) (prob : β) (heap : List (Nat × Int × ν × β)) :
    List (Nat × Int × ν × β) :=
  heap ++ (children node).map fun (token, child) => (parent, token, child, share node child prob)

/-- The `while` loop of one anchor; what is left in the heap is kept for the next one. -/
def frequencyLoop : Nat → List (Nat × Int × ν × β) → DraftTree →
    Option (List (Nat × Int × ν × β) × DraftTree)
  | fuel, heap, t =>
      if t.cursor ≤ draftTokenNum then
        match pop heap with
        | none => some (heap, t)
        | some ((parent, token, child, prob), heap) =>
            match fuel with
            | 0 => none
            | fuel + 1 =>
                let (pos, t) := t.findOrInsert parent token
                frequencyLoop fuel (addToHeap children share pos child prob heap) t
      else some (heap, t)

def buildFrequency (fuel : Nat) (one : β) (anchors : List ν) : Option DraftTree :=
  (anchors.foldlM (fun (heap, t) node =>
    frequencyLoop children share pop draftTokenNum fuel
      (addToHeap children share 0 node one heap) t)
    ([], new)).map Prod.snd

end Frequency

/-- The loop of `buildResultFromLeafPaths_` over the tokens of a path. -/
def insertPath (draftTokenNum : Nat) : Nat → List Int → DraftTree → DraftTree
  | _, [], t => t
  | parent, token :: path, t =>
      if (t.next parent).lookup token = none ∧ draftTokenNum ≤ t.cursor then t
      else
        let (pos, t) := t.findOrInsert parent token
        insertPath draftTokenNum pos path t

def insertPaths (draftTokenNum : Nat) : List (List Int) → DraftTree → DraftTree
  | [], t => t
  | path :: paths, t =>
      let t := insertPath draftTokenNum 0 path t
      if draftTokenNum ≤ t.cursor then t else insertPaths draftTokenNum paths t

end DraftTree

section FillResult

variable (next : Nat → List (Int × Nat))

/-- The queue loop of `fillResult`; an entry is a token, its node and the number of its
parent. `none` when the queue is not empty after `fuel` rounds. -/
def fillLoop : Nat → List (Int × Nat × Nat) → List Int → List (Option Nat) →
    Option (List Int × List (Option Nat))
  | _, [], token, prevs => some (token, prevs)
  | 0, _ :: _, _, _ => none
  | fuel + 1, (tok, node, prev) :: queue, token, prevs =>
      let token := token ++ [tok]
      let prevs := prevs ++ [some prev]
      fillLoop fuel (queue ++ (next node).map fun (t, n) => (t, n, token.length - 1)) token prevs

/-- Row `i` of the mask: the row of the parent up to the parent, and the token itself. A
`prevs` of `-1` is `none`. -/
def fillRow (n : Nat) (prevs : List (Option Nat)) (mask : Nat → Bool) (i : Nat) : Nat → Bool :=
  let mask := match prevs.getD i none with
    | some prev => fill mask (i * n) (prev + 1) fun j => mask (prev * n + j)
    | none => mask
  update mask (i * n + i) true

/-- `fillResult`, with `0` as the root. The code has `n` and `n * n` in an `int`: the mask has fewer
than `2 ^ 31` cells if `draftTokenNum + 1` rows of as many do. -/
def fillResult (lastToken : Int) (draftTokenNum : Nat) : Option Result :=
  (fillLoop next draftTokenNum ((next 0).map fun (t, n) => (t, n, 0)) [lastToken] [none]).map
    fun (token, prevs) =>
      let pad := draftTokenNum - token.length
      let token := token ++ List.replicate pad 0
      let prevs := prevs ++ List.replicate pad (some 0)
      let n := token.length
      let mask := update (fun _ => false) 0 true
      ⟨token, (List.range n).foldl (fillRow n prevs) mask⟩

end FillResult

def lastBelow (p : Nat → Bool) : Nat → Option Nat
  | 0 => none
  | j + 1 => if p j then some j else lastBelow p j

namespace Result

variable (r : Result)

/-- One round of the loop of `extractLeafPaths_` that fills `parent` and `has_child`. -/
def linkParent (n : Nat) (links : (Nat → Option Nat) × (Nat → Bool)) (i : Nat) :
    (Nat → Option Nat) × (Nat → Bool) :=
  match lastBelow (fun j => r.mask (i * n + j)) i with
  | some j => (update links.1 i (some j), update links.2 j true)
  | none => links

/-- `parent` and `has_child` with the links of the tokens `1, …, k`. -/
def linkParents (n k : Nat) : (Nat → Option Nat) × (Nat → Bool) :=
  (List.range' 1 k).foldl (r.linkParent n) (fun _ => none, fun _ => false)

/-- The loop from a leaf to the root, which is left out; `none` when it does not end within
`fuel` rounds. -/
def climb (parent : Nat → Option Nat) : Nat → Option Nat → Option (List Int)
  | _, none => some []
  | _, some 0 => some []
  | 0, some (_ + 1) => none
  | fuel + 1, some (cursor + 1) =>
      (climb parent fuel (parent (cursor + 1))).map (r.token.getD (cursor + 1) 0 :: ·)

/-- `extractLeafPaths_`. -/
def extractLeafPaths : Option (List (List Int)) :=
  let n := r.token.length
  if n ≤ 1 then some []
  else
    let (parent, hasChild) := r.linkParents n (n - 1)
    ((List.range' 1 (n - 1)).filter fun leaf => !hasChild leaf).foldlM (fun paths leaf =>
      (r.climb parent n (some leaf)).map fun path =>
        let path := path.reverse
        if path = [0] then paths else paths ++ [path]) []

end Result

def buildResultFromLeafPaths (iter : List (Int × Nat) → List (Int × Nat)) (lastToken : Int)
    (draftTokenNum : Nat) (paths : List (List Int)) : Option Result :=
  fillResult (fun v => iter ((DraftTree.insertPaths draftTokenNum paths .new).next v)) lastToken
    draftTokenNum

/-- The paths that `combineRootResults_` builds its tree from. -/
def mergedPaths (primary secondary : Result) : Option (List (List Int)) :=
  primary.extractLeafPaths.bind fun primaryPaths =>
    secondary.extractLeafPaths.map fun secondaryPaths =>
      primaryPaths ++ secondaryPaths.filter (· ≠ [])

def combineRootResults (iter : List (Int × Nat) → List (Int × Nat)) (lastToken : Int)
    (draftTokenNum : Nat) (primary secondary : Result) : Option Result :=
  (mergedPaths primary secondary).bind (buildResultFromLeafPaths iter lastToken draftTokenNum)

/-- The arguments of `reconstructIndicesFromTreeMask`. -/
structure MaskArgs where
  treeMask : Nat → Bool
  verifiedSeqLen : Nat → Nat
  draftTokenNum : Nat

/-- The buffers it writes. -/
structure IndexBuffers where
  positions : Nat → Nat
  retriveIndex : Nat → Int
  retriveNextToken : Nat → Int
  retriveNextSibling : Nat → Int

namespace MaskArgs

variable (a : MaskArgs)

/-- `tree_mask[bid][i][j]`. -/
def cell (bid i j : Nat) : Bool :=
  a.treeMask (bid * (a.draftTokenNum * a.draftTokenNum) + i * a.draftTokenNum + j)

/-- The loop `for (i = count - 1; i >= 0; i--)` over a row, with `depth` and `parent_idx`. -/
def scanRow (row : Nat → Bool) : Nat → Nat × Int → Nat × Int
  | 0, acc => acc
  | i + 1, (depth, parentIdx) =>
      scanRow row i
        (if row i then (depth + 1, if parentIdx = -1 then (i : Int) else parentIdx)
        else (depth, parentIdx))

/-- The index that a search up to `draft_token_num` ends with, `-1` when it finds none. -/
def search (p : Nat → Bool) (start : Nat) : Int :=
  let i := findFrom p (a.draftTokenNum - start) start
  if i < a.draftTokenNum then i else -1

/-- Token `i` has `parentIdx` as the last of its ancestors. -/
def isSibling (bid parentIdx i : Nat) : Bool :=
  a.cell bid i parentIdx &&
    (List.range' (parentIdx + 1) (i - (parentIdx + 1))).all fun j => !a.cell bid i j

def reconstructIndices (thread : Nat × Nat) (b : IndexBuffers) : Option IndexBuffers :=
  let (bid, tid) := thread
  if a.draftTokenNum ≤ tid then some b
  else
    let tokenIdx := bid * a.draftTokenNum
    let (depth, parentIdx) := scanRow (a.cell bid tid) tid (0, -1)
    let nextToken := a.search (fun i => a.cell bid i tid) (tid + 1)
    let nextSibling :=
      if parentIdx = -1 then -1
      else a.search (fun i => a.isSibling bid parentIdx.toNat i) (tid + 1)
    some {
      positions := update b.positions (tokenIdx + tid) (depth + a.verifiedSeqLen bid)
      retriveIndex := update b.retriveIndex (tokenIdx + tid) (tokenIdx + tid : Nat)
      retriveNextToken := update b.retriveNextToken (tokenIdx + tid) nextToken
      retriveNextSibling := update b.retriveNextSibling (tokenIdx + tid) nextSibling }

/-- The launch `<<<batch_size, draft_token_num>>>`. -/
def launchReconstruct (batchSize : Nat) (b : IndexBuffers) : Option IndexBuffers :=
  Launch.launch a.reconstructIndices (List.range batchSize ×ˢ List.range a.draftTokenNum) b

end MaskArgs

end SpecDecode.Ngram
