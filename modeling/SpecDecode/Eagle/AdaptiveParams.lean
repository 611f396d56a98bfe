import SpecDecode.Lib.Hysteresis
import Mathlib.Data.List.GetD
import Mathlib.Data.List.Sort
import Mathlib.Data.Rat.Floor

/-!
# Adaptive numbers of draft steps

`AdaptiveSpeculativeParams` smooths the accepted lengths of the verified batches and moves the
number of draft steps along a ladder of candidates. Numbers of the configuration, and the
moving average, are rationals.
-/

namespace SpecDecode.Adaptive

/-- The keys of the JSON configuration; a missing key takes its default. -/
structure Config where
  candidateSteps : Option (List ℚ)
  emaAlpha : Option ℚ
  updateInterval : Option ℚ
  warmupBatches : Option ℚ
  downHysteresis : Option ℚ
  upHysteresis : Option ℚ
deriving Repr, DecidableEq

inductive Error where
  /-- `candidate_steps must have at least 2 distinct values` -/
  | fewCandidates
  /-- `list.index` does not find the value. -/
  | notInList
  | zeroDivision
  /-- `Missing adaptive runtime state for steps=…` -/
  | missingState (steps : ℚ)
deriving Repr, DecidableEq

def sortedSet (values : List ℚ) : List ℚ := values.dedup.insertionSort (· ≤ ·)

theorem sortedSet_lt (values : List ℚ) : (sortedSet values).Pairwise (· < ·) := by
  have hle : (sortedSet values).Pairwise (· ≤ ·) := List.pairwise_insertionSort _ _
  have hnodup : (sortedSet values).Nodup :=
    (List.perm_insertionSort _ _).nodup_iff.mpr values.nodup_dedup
  exact (hle.and hnodup).imp fun h => lt_of_le_of_ne h.1 h.2

structure Ladder where
  steps : List ℚ
  increasing : steps.Pairwise (· < ·)
  two_le : 2 ≤ steps.length

namespace Ladder

variable (l : Ladder)

def top : Nat := l.steps.length - 1

/-- `candidate_steps[i]` of an index in range. -/
def step (i : Nat) : ℚ := l.steps.getD i 0

theorem step_lt {i j : Nat} (hij : i < j) (hj : j ≤ l.top) : l.step i < l.step j := by
  have htwo := l.two_le
  have hlt : j < l.steps.length := by
    unfold top at hj
    omega
  have hi : i < l.steps.length := Nat.lt_trans hij hlt
  unfold step
  rw [List.getD_eq_getElem _ _ hi, List.getD_eq_getElem _ _ hlt]
  exact List.pairwise_iff_getElem.mp l.increasing i j hi hlt hij

theorem step_le {i j : Nat} (hij : i ≤ j) (hj : j ≤ l.top) : l.step i ≤ l.step j := by
  obtain rfl | hlt := Nat.eq_or_lt_of_le hij
  · exact le_refl _
  · exact le_of_lt (l.step_lt hlt hj)

theorem step_mem {i : Nat} (hi : i ≤ l.top) : l.step i ∈ l.steps := by
  have htwo := l.two_le
  have hlt : i < l.steps.length := by
    unfold top at hi
    omega
  unfold step
  rw [List.getD_eq_getElem _ _ hlt]
  exact List.getElem_mem hlt

theorem idxOf_le {s : ℚ} (h : s ∈ l.steps) : l.steps.idxOf s ≤ l.top :=
  Nat.le_pred_of_lt (List.idxOf_lt_length_of_mem h)

private theorem step_idxOf {s : ℚ} (h : s ∈ l.steps) : l.step (l.steps.idxOf s) = s := by
  have hlt := List.idxOf_lt_length_of_mem h
  unfold step
  rw [List.getD_eq_getElem _ _ hlt]
  exact List.getElem_idxOf hlt

theorem idxOf_step {i : Nat} (hi : i ≤ l.top) : l.steps.idxOf (l.step i) = i := by
  have hmem := l.step_mem hi
  have hidx := l.idxOf_le hmem
  have hstep := l.step_idxOf hmem
  obtain hlt | heq | hgt := Nat.lt_trichotomy (l.steps.idxOf (l.step i)) i
  · exact absurd hstep (ne_of_lt (l.step_lt hlt hi))
  · exact heq
  · exact absurd hstep.symm (ne_of_lt (l.step_lt hgt hidx))

/-- The thresholds on either side of a candidate, half a step below it and shifted. -/
def threshold (hysteresis : ℚ) (i : Nat) : ℚ := l.step i - 1 / 2 + hysteresis

theorem threshold_increasing (hysteresis : ℚ) :
    Hysteresis.Increasing (l.threshold hysteresis) l.top := by
  intro i j hij hj
  have hstep := l.step_le hij (Nat.le_of_lt hj)
  unfold threshold
  linarith

end Ladder

/-- `AdaptiveSpeculativeParams`. -/
structure Params where
  candidateSteps : Ladder
  emaAlpha : ℚ
  updateInterval : ℚ
  warmupBatches : ℚ
  downHysteresis : ℚ
  upHysteresis : ℚ
  currentSteps : ℚ
  emaAcceptLen : ℚ
  batchCount : Nat

/-- `step` has the smaller key `(abs(step - initial_steps), -step)`. -/
def Closer (initialSteps step best : ℚ) : Prop :=
  |step - initialSteps| < |best - initialSteps| ∨
    (|step - initialSteps| = |best - initialSteps| ∧ -step < -best)

instance (initialSteps step best : ℚ) : Decidable (Closer initialSteps step best) :=
  inferInstanceAs (Decidable (_ ∨ _))

/-- `min` by that key, with the best value so far. -/
def closest (initialSteps best : ℚ) : List ℚ → ℚ
  | [] => best
  | step :: steps =>
      closest initialSteps (if Closer initialSteps step best then step else best) steps

theorem closest_mem (initialSteps best : ℚ) (steps : List ℚ) :
    closest initialSteps best steps ∈ best :: steps := by
  induction steps generalizing best with
  | nil => exact List.mem_cons_self
  | cons step steps ih =>
      unfold closest
      split
      · exact List.mem_cons_of_mem best (ih step)
      · obtain heq | hrest := List.mem_cons.mp (ih best)
        · rw [heq]
          exact List.mem_cons_self
        · exact List.mem_cons_of_mem best (List.mem_cons_of_mem step hrest)

def Ladder.closest (l : Ladder) (initialSteps : ℚ) : ℚ :=
  Adaptive.closest initialSteps (l.step 0) l.steps.tail

theorem Ladder.closest_mem (l : Ladder) (initialSteps : ℚ) : l.closest initialSteps ∈ l.steps := by
  have hcons : l.step 0 :: l.steps.tail = l.steps := by
    obtain ⟨first, rest, heq⟩ :=
      List.exists_cons_of_length_pos (Nat.lt_of_lt_of_le Nat.two_pos l.two_le)
    rw [Ladder.step, heq]
    rfl
  have hmem := Adaptive.closest_mem initialSteps (l.step 0) l.steps.tail
  rw [hcons] at hmem
  exact hmem

namespace Params

/-- `__init__`. -/
def init (initialSteps : ℚ) (cfg : Config) : Except Error Params :=
  let steps := sortedSet (cfg.candidateSteps.getD [1, 3, 7])
  if h : 2 ≤ steps.length then
    let ladder : Ladder := ⟨steps, sortedSet_lt _, h⟩
    let currentSteps := ladder.closest initialSteps
    .ok {
      candidateSteps := ladder
      emaAlpha := cfg.emaAlpha.getD (1 / 5)
      updateInterval := cfg.updateInterval.getD 5
      warmupBatches := cfg.warmupBatches.getD 10
      downHysteresis := cfg.downHysteresis.getD (-1 / 4)
      upHysteresis := cfg.upHysteresis.getD 0
      currentSteps := currentSteps
      emaAcceptLen := currentSteps - 1
      batchCount := 0 }
  else .error .fewCandidates

def recomputeParams (p : Params) : Except Error Bool × Params :=
  let l := p.candidateSteps
  let oldSteps := p.currentSteps
  let currentIdx := l.steps.idxOf oldSteps
  if currentIdx < l.steps.length then
    let lowered := Hysteresis.descend (l.threshold p.downHysteresis) p.emaAcceptLen currentIdx
    let raised := Hysteresis.ascend (l.threshold p.upHysteresis) p.emaAcceptLen
      (l.top - lowered) lowered
    let target := l.step raised
    if target ≠ oldSteps then (.ok true, { p with currentSteps := target })
    else (.ok false, p)
  else (.error .notInList, p)

/-- The new average of a batch that is not empty, and the count of it. -/
def observe (p : Params) (numAcceptedDraftsPerReq : List Int) : Params :=
  let batchAvg : ℚ := (numAcceptedDraftsPerReq.sum : ℚ) / numAcceptedDraftsPerReq.length
  { p with
    emaAcceptLen := (1 - p.emaAlpha) * p.emaAcceptLen + p.emaAlpha * batchAvg
    batchCount := p.batchCount + 1 }

/-- `x % y` for `y` not zero, with the sign of `y`. -/
def modulo (x y : ℚ) : ℚ := x - y * ⌊x / y⌋

def update (p : Params) (numAcceptedDraftsPerReq : List Int) : Except Error Bool × Params :=
  if numAcceptedDraftsPerReq = [] then (.ok false, p)
  else
    let p := p.observe numAcceptedDraftsPerReq
    if (p.batchCount : ℚ) ≤ p.warmupBatches then (.ok false, p)
    else if p.updateInterval = 0 then (.error .zeroDivision, p)
    else if modulo (p.batchCount - p.warmupBatches) p.updateInterval ≠ 0 then (.ok false, p)
    else p.recomputeParams

end Params

end SpecDecode.Adaptive
