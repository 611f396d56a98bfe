import Mathlib.Algebra.Order.Ring.Int
import Mathlib.Data.List.Perm.Basic

/-!
# The consistent hash ring of the gateway

`HashRing` places every worker URL at a fixed number of positions. The hash is external code
and the order of equal positions is left open by an unstable sort, so both are parameters.
-/

namespace SpecDecode.Gateway

def virtualNodesPerWorker : Nat := 150

/-- The positions that blake3 gives to virtual nodes and to keys, and the sort by position. -/
structure RingHash where
  vnodePosition : String → Nat → Nat
  hashPosition : String → Nat
  sortByPosition : List (Nat × String) → List (Nat × String)
  sort_perm (entries : List (Nat × String)) : (sortByPosition entries).Perm entries
  sort_sorted (entries : List (Nat × String)) :
    (sortByPosition entries).Pairwise fun a b => a.1 ≤ b.1

theorem perm_sortByFst (entries : List (Nat × String)) :
    (entries.mergeSort fun a b => decide (a.1 ≤ b.1)).Perm entries :=
  List.mergeSort_perm entries _

theorem pairwise_sortByFst (entries : List (Nat × String)) :
    (entries.mergeSort fun a b => decide (a.1 ≤ b.1)).Pairwise fun a b => a.1 ≤ b.1 := by
  have hsorted := @List.pairwise_mergeSort _ (fun a b : Nat × String => decide (a.1 ≤ b.1))
    (fun a b c hab hbc => by simp only [decide_eq_true_eq] at *; omega)
    (fun a b => by simp only [Bool.or_eq_true, decide_eq_true_eq]; omega) entries
  exact hsorted.imp fun h => of_decide_eq_true h

structure HashRing where
  entries : List (Nat × String)
deriving DecidableEq

namespace HashRing

variable (H : RingHash)

/-- `HashRing::new` over the URLs of the workers. -/
def new (urls : List String) : HashRing where
  entries := H.sortByPosition <| urls.flatMap fun url =>
    (List.range virtualNodesPerWorker).map fun vnode => (H.vnodePosition url vnode, url)

/-- `partition_point(|(pos, _)| *pos < key_pos)`. -/
def start (ring : HashRing) (keyPos : Nat) : Nat :=
  (ring.entries.takeWhile fun entry => decide (entry.1 < keyPos)).length

/-- The walk of `find_healthy_url`: a URL that was checked before is skipped. -/
def walk (isHealthy : String → Bool) (checkedUrls : List String) : List String → Option String
  | [] => none
  | url :: urls =>
      if url ∈ checkedUrls then walk isHealthy checkedUrls urls
      else if isHealthy url then some url
      else walk isHealthy (url :: checkedUrls) urls

def findHealthyUrl (ring : HashRing) (key : String) (isHealthy : String → Bool) : Option String :=
  if ring.entries.isEmpty then none
  else
    let start := ring.start (H.hashPosition key)
    walk isHealthy [] <| (List.range ring.entries.length).filterMap fun i =>
      (ring.entries[(start + i) % ring.entries.length]?).map Prod.snd

end HashRing

end SpecDecode.Gateway
