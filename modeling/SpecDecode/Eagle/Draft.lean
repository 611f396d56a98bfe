import Mathlib.Algebra.Order.Ring.Rat
import Mathlib.Data.List.GetD
import Mathlib.Data.List.Sort
import Mathlib.Tactic.Linarith
import Mathlib.Tactic.Ring

/-!
# Drafting: `select_top_k_tokens` and `organize_draft_results`

One request of the batch. Step `0` offers `topk` tokens; every later step
extends each of the `topk` kept tokens by `topk` more and keeps the best `topk`
of them. The flat layout numbers all offered tokens: step `0` takes `0 .. k - 1`
and step `i + 1` takes `k + i * k * k + b * k + j` for child `j` of kept token
`b`. `organize_draft_results` then picks the best `num_draft_token - 1` flat
indices.

Scores are rational numbers. `torch.topk` and `torch.max` are parameters with
their documented behaviour (`TorchOps`), ties going to the lower index.
-/

namespace SpecDecode.Eagle

def score (values : List Rat) (i : Nat) : Rat := values.getD i 0

/-- Index `j` ranks before index `i`: a larger value, or the lower index of a tie. -/
def Ranks (values : List Rat) (j i : Nat) : Prop :=
  score values i < score values j ∨ score values j = score values i ∧ j < i

/-- The tensor library on one row: the indices of the `k` largest values and the
index of a maximum. -/
structure TorchOps where
  topk : List Rat → Nat → List Nat
  max : List Rat → Nat
  topk_nodup : ∀ values k, k ≤ values.length → (topk values k).Nodup
  topk_length : ∀ values k, k ≤ values.length → (topk values k).length = k
  topk_lt : ∀ values k, k ≤ values.length → ∀ i ∈ topk values k, i < values.length
  topk_best : ∀ values k, k ≤ values.length → ∀ i ∈ topk values k, ∀ j, j < values.length →
    Ranks values j i → j ∈ topk values k
  max_lt : ∀ values, 0 < values.length → max values < values.length
  max_best : ∀ values j, j < values.length → score values j ≤ score values (max values)

/-- The order of a stable sort by decreasing value. -/
def RanksLe (values : List Rat) (j i : Nat) : Prop :=
  score values i < score values j ∨ score values j = score values i ∧ j ≤ i

instance (values : List Rat) : DecidableRel (RanksLe values) := fun _ _ =>
  inferInstanceAs (Decidable (_ ∨ _))

instance (values : List Rat) : Std.Total (RanksLe values) where
  total i j := by
    unfold RanksLe
    rcases lt_trichotomy (score values i) (score values j) with h | h | h
    · exact .inr (.inl h)
    · rcases Nat.le_total i j with hij | hij
      · exact .inl (.inr ⟨h, hij⟩)
      · exact .inr (.inr ⟨h.symm, hij⟩)
    · exact .inl (.inl h)

instance (values : List Rat) : IsTrans Nat (RanksLe values) where
  trans i j l := by
    rintro (hij | ⟨hij, hi⟩) (hjl | ⟨hjl, hj⟩)
    · exact .inl (hjl.trans hij)
    · exact .inl (hjl ▸ hij)
    · exact .inl (hij ▸ hjl)
    · exact .inr ⟨hij.trans hjl, hi.trans hj⟩

variable {values : List Rat}

theorem RanksLe.not_ranks {i j : Nat} (h : RanksLe values i j) : ¬ Ranks values j i := by
  rintro (hji | ⟨heq, hji⟩)
  · rcases h with hij | ⟨hij, _⟩
    · exact lt_asymm hij hji
    · exact absurd hji (by rw [hij]; exact lt_irrefl _)
  · rcases h with hij | ⟨_, hij⟩
    · exact absurd hij (by rw [heq]; exact lt_irrefl _)
    · omega

def rankedIndices (values : List Rat) : List Nat :=
  (List.range values.length).insertionSort (RanksLe values)

theorem mem_rankedIndices {i : Nat} : i ∈ rankedIndices values ↔ i < values.length := by
  rw [rankedIndices, (List.perm_insertionSort _ _).mem_iff, List.mem_range]

@[simp] theorem rankedIndices_length (values : List Rat) :
    (rankedIndices values).length = values.length := by
  rw [rankedIndices, (List.perm_insertionSort _ _).length_eq, List.length_range]

theorem rankedIndices_nodup (values : List Rat) : (rankedIndices values).Nodup :=
  (List.perm_insertionSort _ _).nodup_iff.mpr List.nodup_range

/-- An index of the first `k` keeps every index that ranks before it there too. -/
theorem mem_take_rankedIndices {k i j : Nat}
    (hi : i ∈ (rankedIndices values).take k) (hj : j < values.length) (h : Ranks values j i) :
    j ∈ (rankedIndices values).take k := by
  have hmem := mem_rankedIndices.mpr hj
  rw [← List.take_append_drop k (rankedIndices values), List.mem_append] at hmem
  refine hmem.resolve_right fun hdrop => ?_
  have hsorted : (rankedIndices values).Pairwise (RanksLe values) :=
    List.pairwise_insertionSort _ _
  rw [← List.take_append_drop k (rankedIndices values), List.pairwise_append] at hsorted
  exact (hsorted.2.2 i hi j hdrop).not_ranks h

theorem score_le_rankedIndices_head (values : List Rat) {j : Nat} (hj : j < values.length) :
    score values j ≤ score values ((rankedIndices values).headD 0) := by
  have hmem := mem_rankedIndices.mpr hj
  have hsorted : (rankedIndices values).Pairwise (RanksLe values) :=
    List.pairwise_insertionSort _ _
  cases hl : rankedIndices values with
  | nil => simp [hl] at hmem
  | cons i rest =>
      rw [hl] at hmem hsorted
      rcases List.mem_cons.mp hmem with rfl | hrest
      · exact le_refl _
      · rcases List.rel_of_pairwise_cons hsorted hrest with h | ⟨h, _⟩
        · exact h.le
        · exact h.ge

/-- The operators computed by a stable sort. -/
def stableOps : TorchOps where
  topk values k := (rankedIndices values).take k
  max values := (rankedIndices values).headD 0
  topk_nodup values k _ := (rankedIndices_nodup values).sublist (List.take_sublist k _)
  topk_length values k hk := by simpa using hk
  topk_lt values k _ i hi := mem_rankedIndices.mp (List.mem_of_mem_take hi)
  topk_best values k _ i hi j hj h := mem_take_rankedIndices hi hj h
  max_lt values h := by
    cases hl : rankedIndices values with
    | nil => simpa [hl] using rankedIndices_length values ▸ h
    | cons i rest => exact mem_rankedIndices.mp (by simp [hl])
  max_best values j hj := score_le_rankedIndices_head values hj

/-- `fast_topk`: a plain maximum when one index is asked for. -/
def fastTopk (ops : TorchOps) (values : List Rat) (topk : Nat) : List Nat :=
  if topk = 1 then [ops.max values] else ops.topk values topk

theorem fastTopk_length (ops : TorchOps) {k : Nat} (h : k ≤ values.length) :
    (fastTopk ops values k).length = k := by
  unfold fastTopk
  split
  · next h1 => simp [h1]
  · exact ops.topk_length values k h

theorem fastTopk_lt (ops : TorchOps) {k : Nat} (h : k ≤ values.length)
    {i : Nat} (hi : i ∈ fastTopk ops values k) : i < values.length := by
  unfold fastTopk at hi
  split at hi
  · next h1 =>
      rw [List.mem_singleton.mp hi]
      exact ops.max_lt values (by omega)
  · exact ops.topk_lt values k h i hi

variable {H : Type}

structure StepInput (H : Type) where
  topkP : List Rat
  topkIndex : List Int
  hiddenStates : List H

structure TreeInfo where
  scores : List Rat
  tokens : List Int
  parents : List Int

structure StepResult (H : Type) where
  inputIds : List Int
  hiddenStates : List H
  scores : List Rat
  treeInfo : TreeInfo

def selectTopKTokensFirst (x : StepInput H) (topk : Nat) : StepResult H where
  inputIds := x.topkIndex
  hiddenStates := x.hiddenStates.flatMap (List.replicate topk)
  scores := x.topkP
  treeInfo :=
    { scores := x.topkP
      tokens := x.topkIndex
      parents := (List.range (topk + 1)).map fun (j : Nat) => (j : Int) - 1 }

/-- `scores.unsqueeze(2) * topk_p.view(-1, topk, topk)`, flattened. -/
def expandScores (x : StepInput H) (scores : List Rat) (topk : Nat) : List Rat :=
  (List.range (topk * topk)).map fun f => score scores (f / topk) * score x.topkP f

/-- Which of the `topk * topk` offered tokens the step keeps. -/
def topkCsIndex (ops : TorchOps) (x : StepInput H) (scores : List Rat) (topk : Nat) : List Nat :=
  fastTopk ops (expandScores x scores topk) topk

def selectTopKTokensLater (ops : TorchOps) (i : Nat) (x : StepInput H) (scores : List Rat)
    (topk : Nat) : StepResult H :=
  let csIndex := topkCsIndex ops x scores topk
  { inputIds := csIndex.map (x.topkIndex.getD · 0)
    hiddenStates := csIndex.filterMap fun c => x.hiddenStates[c / topk]?
    scores := csIndex.map (score (expandScores x scores topk))
    treeInfo :=
      { scores := expandScores x scores topk
        tokens := x.topkIndex
        parents := csIndex.map fun c => ((c + (topk * topk * (i - 1) + topk) : Nat) : Int) } }

def selectTopKTokens (ops : TorchOps) (i : Nat) (x : StepInput H) (scores : List Rat)
    (topk : Nat) : StepResult H :=
  if i = 0 then selectTopKTokensFirst x topk else selectTopKTokensLater ops i x scores topk

/-- A draft model for one request: the candidates the verified token comes with
and the forward pass that produces those of the next step. Its probabilities
come in blocks of the shape the step expects. -/
structure DraftModel (topk : Nat) (H : Type) where
  first : StepInput H
  forward : Nat → List Int → List H → StepInput H
  first_length : first.topkP.length = topk
  forward_length : ∀ i ids hs, (forward i ids hs).topkP.length = topk * topk
  first_prob : ∀ p ∈ first.topkP, 0 ≤ p ∧ p ≤ 1
  forward_prob : ∀ i ids hs, ∀ p ∈ (forward i ids hs).topkP, 0 ≤ p ∧ p ≤ 1

namespace DraftModel

variable {k : Nat} (ops : TorchOps) (m : DraftModel k H)

/-- Step `i` of `draft_forward`. -/
def step : Nat → StepResult H
  | 0 => selectTopKTokens ops 0 m.first [] k
  | i + 1 => selectTopKTokens ops (i + 1) (m.forward i (step i).inputIds (step i).hiddenStates)
      (step i).scores k

/-- The loop of `draft_forward`: the `tree_info` of every step in order. -/
def draftForward (steps : Nat) : List TreeInfo :=
  (List.range steps).map fun i => (m.step ops i).treeInfo

end DraftModel

/-- `organize_draft_results`: `(parent_list, top_scores_index, draft_tokens)`. -/
def organizeDraftResults (ops : TorchOps) (scoreList : List (List Rat))
    (tokenList : List (List Int)) (parentsList : List (List Int)) (numDraftToken : Nat) :
    List Int × List Nat × List Int :=
  let scoreList := scoreList.flatten
  let ssTokenList := tokenList.flatten
  let topScoresIndex := (ops.topk scoreList (numDraftToken - 1)).insertionSort (· ≤ ·)
  let draftTokens := topScoresIndex.map (ssTokenList.getD · 0)
  let parentList := if 1 < parentsList.length then parentsList.dropLast.flatten else []
  (parentList, topScoresIndex, draftTokens)

end SpecDecode.Eagle
