import SpecDecode.Eagle.GreedyPath
import SpecDecode.Lib.RunningSum

/-!
# Sampling along a draft tree

The abstract side of sampled verification. At every node a coin accepts a child, or none; behind
the last accepted node a token is drawn from what the target gives to the tokens that were not
rejected, and from the whole row of the target where the walk ends at its limit.

When the rows are distributions and siblings carry distinct tokens (`Fair`), the chance that the
emitted tokens begin with the tokens of a path and one token more is the chance that the target
samples them one by one.
-/

namespace SpecDecode.Eagle

/-- A draft tree with the token drafted at every node, the probabilities that the target gives to
the tokens of the vocabulary behind it, and the thresholds. -/
structure SampleTree (n : Nat) (K : Type) extends OrderedTree n where
  token : Nat → Nat
  prob : Nat → Nat → K
  vocab : Nat
  thresholdSingle : K
  thresholdAcc : K

namespace SampleTree

section Path

variable {n : Nat} {K : Type} (t : SampleTree n K)

/-- The tokens drafted behind a node. -/
def tokens (v : Nat) : List Nat := (t.children v).map t.token

/-- A path below `v`. -/
inductive ChildPath : Nat → List Nat → Prop where
  | nil {v : Nat} : ChildPath v []
  | cons {v c : Nat} {path : List Nat} (hc : c ∈ t.children v) (rest : ChildPath c path) :
      ChildPath v (c :: path)

inductive Context : Nat → List Nat → Prop where
  | root : Context 0 [t.token 0]
  | child {v c : Nat} {p : List Nat} (h : Context v p) (hc : c ∈ t.children v) :
      Context c (p ++ [t.token c])

variable {t}

variable {v : Nat} {path : List Nat}

section

variable (h : t.ChildPath v path)

include h

theorem ChildPath.matchPath
    {token predicted : Nat → Int} (htoken : ∀ u c, [u, c] <:+: v :: path → token c = predicted u) :
    TokenTree.MatchPath ⟨t.toOrderedTree, token, predicted⟩ v path := by
  induction h with
  | nil => exact .nil
  | @cons v c path hc _ ih =>
      refine .cons hc (htoken v c ⟨[], path, rfl⟩) (ih fun u d hsegment => htoken u d ?_)
      exact hsegment.trans (List.suffix_cons v _).isInfix

theorem ChildPath.trivialMatch :
    TokenTree.MatchPath ⟨t.toOrderedTree, fun _ => 0, fun _ => 0⟩ v path :=
  h.matchPath fun _ _ _ => rfl

theorem ChildPath.congr {t' : SampleTree n K}
    (hchildren : ∀ v, t.children v = t'.children v) : t'.ChildPath v path := by
  induction h with
  | nil => exact .nil
  | cons hc _ ih => exact .cons (hchildren _ ▸ hc) ih

theorem ChildPath.nodup : (v :: path).Nodup :=
  h.trivialMatch.nodup

theorem ChildPath.lt : ∀ c ∈ path, c < n :=
  h.trivialMatch.lt

theorem ChildPath.last_lt (hv : v < n) : (v :: path).getLast (List.cons_ne_nil _ _) < n := by
  rcases List.mem_cons.mp (List.getLast_mem (List.cons_ne_nil v path)) with heq | hmem
  · rw [heq]
    exact hv
  · exact h.lt _ hmem

end

end Path

section Walk

variable {n : Nat} {K : Type} [Field K] [LinearOrder K] (t : SampleTree n K)

/-- The first of some children that the coin accepts, behind others with probability `sum`. -/
def acceptFrom (coin : K) (v : Nat) : (sum : K) → List Nat → Option Nat
  | _, [] => none
  | sum, c :: cs =>
      if coin ≤ (sum + t.prob v (t.token c)) / t.thresholdAcc ∨
          t.thresholdSingle ≤ t.prob v (t.token c) then some c
      else acceptFrom coin v (sum + t.prob v (t.token c)) cs

def nextNode (coin : K) (v : Nat) : Option Nat := t.acceptFrom coin v 0 (t.children v)

/-- What the target gives to a token that was not rejected. -/
def residual (atLimit : Bool) (v x : Nat) : K :=
  if atLimit = false ∧ x ∈ t.tokens v then 0 else t.prob v x

def residuals (atLimit : Bool) (v : Nat) : List K :=
  (List.range t.vocab).map (t.residual atLimit v)

/-- The token that is drawn behind the last accepted node. -/
def finalToken (coin : K) (atLimit : Bool) (v : Nat) : Nat :=
  (firstReach (coin * (t.residuals atLimit v).sum < ·) 0 (t.residuals atLimit v)).getD (t.vocab - 1)

/-- The nodes that are accepted behind `v`, of which there are at most `limit`. -/
def samplePath (coins : Nat → K) : (limit v : Nat) → List Nat
  | 0, _ => []
  | limit + 1, v =>
      match t.nextNode (coins v) v with
      | none => []
      | some c => c :: samplePath coins limit c

/-- The tokens that are emitted. -/
def emits (coins : Nat → K) (last : K) : (limit v : Nat) → List Nat
  | 0, v => [t.finalToken last true v]
  | limit + 1, v =>
      match t.nextNode (coins v) v with
      | none => [t.finalToken last false v]
      | some c => t.token c :: emits coins last limit c

variable {t}

theorem acceptFrom_mem {coin sum : K} {v c : Nat} {cs : List Nat}
    (h : t.acceptFrom coin v sum cs = some c) : c ∈ cs := by
  induction cs generalizing sum with
  | nil => cases h
  | cons d cs ih =>
      rw [acceptFrom] at h
      split at h
      · obtain rfl := Option.some.inj h
        exact List.mem_cons_self
      · exact List.mem_cons_of_mem _ (ih h)

theorem nextNode_mem {coin : K} {v c : Nat} (h : t.nextNode coin v = some c) : c ∈ t.children v :=
  acceptFrom_mem h

theorem samplePath_childPath (coins : Nat → K) (limit v : Nat) :
    t.ChildPath v (t.samplePath coins limit v) := by
  induction limit generalizing v with
  | zero => exact .nil
  | succ limit ih =>
      rw [samplePath]
      split
      · exact .nil
      · next c hc => exact .cons (nextNode_mem hc) (ih c)

theorem samplePath_infix {coins : Nat → K} {limit v u c : Nat}
    (h : [u, c] <:+: v :: t.samplePath coins limit v) : t.nextNode (coins u) u = some c := by
  induction limit generalizing v with
  | zero =>
      have hle := h.length_le
      simp [samplePath] at hle
  | succ limit ih =>
      rw [samplePath] at h
      split at h
      · have hle := h.length_le
        simp at hle
      · next d hd =>
          obtain hprefix | hsegment := List.infix_cons_iff.mp h
          · obtain ⟨hu, hprefix⟩ := List.cons_prefix_cons.mp hprefix
            obtain ⟨hc, -⟩ := List.cons_prefix_cons.mp hprefix
            rw [hu, hc]
            exact hd
          · exact ih hsegment

/-- A walk that ends before its limit ends where no child is accepted. -/
theorem nextNode_last {coins : Nat → K} {limit v : Nat}
    (h : (t.samplePath coins limit v).length < limit) :
    t.nextNode (coins ((v :: t.samplePath coins limit v).getLast (List.cons_ne_nil _ _)))
      ((v :: t.samplePath coins limit v).getLast (List.cons_ne_nil _ _)) = none := by
  induction limit generalizing v with
  | zero => exact absurd h (Nat.not_lt_zero _)
  | succ limit ih =>
      cases hnext : t.nextNode (coins v) v with
      | none => simp only [samplePath, hnext, List.getLast_singleton]
      | some c =>
          simp only [samplePath, hnext, List.length_cons] at h ⊢
          rw [List.getLast_cons (List.cons_ne_nil c _)]
          exact ih (Nat.lt_of_succ_lt_succ h)

theorem length_samplePath_le (coins : Nat → K) (limit v : Nat) :
    (t.samplePath coins limit v).length ≤ limit := by
  induction limit generalizing v with
  | zero => exact Nat.le_refl 0
  | succ limit ih =>
      rw [samplePath]
      split
      · exact Nat.zero_le _
      · next c _ => exact Nat.succ_le_succ (ih c)

theorem emits_eq (coins : Nat → K) (last : K) (limit v : Nat) :
    t.emits coins last limit v = (t.samplePath coins limit v).map t.token ++
      [t.finalToken last (decide ((t.samplePath coins limit v).length = limit))
        ((v :: t.samplePath coins limit v).getLast (List.cons_ne_nil _ _))] := by
  induction limit generalizing v with
  | zero => rfl
  | succ limit ih =>
      rw [emits, samplePath]
      split
      · simp
      · next c hc =>
          rw [ih]
          simp only [List.map_cons, List.cons_append, List.length_cons, Nat.add_right_cancel_iff,
            List.getLast_cons (List.cons_ne_nil c _)]

end Walk

end SampleTree

end SpecDecode.Eagle
