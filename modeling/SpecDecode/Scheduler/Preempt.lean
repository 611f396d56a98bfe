import SpecDecode.Scheduler.PrefillAdder
import Mathlib.Data.List.Dedup
import Mathlib.Data.List.Sort

/-!
# Preempting running requests

A waiting request of a better priority may take the place of running ones. The candidates are
the running requests that are neither finished nor preempted already, the worst priority first;
they are taken until enough tokens are promised, and only then is anything released.
-/

namespace SpecDecode.Admission

/-- The order in which a set of requests is iterated. -/
structure SetOrder where
  iterate : List Nat → List Nat
  perm (reqs : List Nat) : (iterate reqs).Perm reqs.dedup

/-- What `release_req` does to the memory pool and the tree cache, and the sizes read there. -/
structure Memory (M : Type) where
  sizes : M → Sizes
  /-- The request and the number of requests that stay. -/
  releaseReq : Nat → Int → M → M

def Req.resetForRetract (r : Req) : Req :=
  { r with
    prefixIndices := []
    lastNode := none
    extendInputLen := 0
    outputIds := if r.hasInputEmbeds then [] else r.outputIds }

namespace PrefillAdder

variable {M : Type}

def prioritySign (scheduleLowPriorityValuesFirst : Bool) : Int :=
  if scheduleLowPriorityValuesFirst then 1 else -1

/-- The keys `(priority * -priority_sign, -wait_queue_entry_time)` are in order. -/
def KeyLe (store : Store) (sign : Int) (x y : Nat) : Prop :=
  (store x).priority * -sign < (store y).priority * -sign ∨
    ((store x).priority * -sign = (store y).priority * -sign ∧
      -(store x).waitQueueEntryTime ≤ -(store y).waitQueueEntryTime)

instance (store : Store) (sign : Int) (x y : Nat) : Decidable (KeyLe store sign x y) :=
  inferInstanceAs (Decidable (_ ∨ _))

def sortedValidRunningReqs (a : PrefillAdder) (store : Store) (sign : Int) : List Nat :=
  (a.runningBatch.filter fun r => r ∉ a.preemptList && !(store r).finished).insertionSort
    (KeyLe store sign)

/-- The loop over the candidates, with the tokens that are still to be removed and the requests
taken so far. -/
def preemptLoop (a : PrefillAdder) (store : Store) (sign : Int) (priority : Int) :
    ℚ → List Nat → List Nat → List Nat × ℚ
  | need, taken, [] => (taken, need)
  | need, taken, running :: rest =>
      let priorityDiff := (priority - (store running).priority) * -sign
      if a.preemptionThreshold < priorityDiff then
        let need := need - runningRequestOffset a.newTokenRatio (store running)
        if need ≤ 0 then (taken ++ [running], need)
        else preemptLoop a store sign priority need (taken ++ [running]) rest
      else (taken, need)

structure Releasing (M : Type) where
  store : Store
  memory : M
  remTotalTokenOffset : ℚ
  keepIndices : List Nat
  releaseCounter : Nat

def releaseStep (V : Memory M) (ratio : ℚ) (preemptible : List Nat) (numReqs : Nat)
    (s : Releasing M) (entry : Nat × Nat) : Releasing M :=
  if entry.1 ∈ preemptible then
    { s with
      remTotalTokenOffset := s.remTotalTokenOffset - runningRequestOffset ratio (s.store entry.1)
      releaseCounter := s.releaseCounter + 1
      memory := V.releaseReq entry.1 ((numReqs : Int) - (s.releaseCounter + 1 : Nat)) s.memory
      store := s.store.set entry.1 (s.store entry.1).resetForRetract }
  else { s with keepIndices := s.keepIndices ++ [entry.2] }

/-- `filter_batch` with indices. -/
def filterBatch (reqs keepIndices : List Nat) : List Nat :=
  if keepIndices = [] then []
  else if keepIndices.length = reqs.length then reqs
  else keepIndices.filterMap fun i => reqs[i]?

structure Preempted (M : Type) where
  result : Bool
  adder : PrefillAdder
  store : Store
  memory : M

/-- What the incoming request needs beyond the tokens that remain. -/
def minTokensToRemove (a : PrefillAdder) (sizes : Sizes) (req : Req) : ℚ :=
  (req.extendInputLen + min req.maxNewTokens clipMaxNewTokens : Int) - a.remTotalTokens sizes

/-- The end of `preempt_to_schedule`: release the chosen requests. -/
def commitPreemption (a : PrefillAdder) (V : Memory M) (order : SetOrder) (store : Store)
    (memory : M) (preemptible : List Nat) : Preempted M :=
  let s := a.runningBatch.zipIdx.foldl
    (releaseStep V a.newTokenRatio preemptible a.runningBatch.length)
    ⟨store, memory, a.remTotalTokenOffset, [], 0⟩
  ⟨true,
    { a with
      remTotalTokenOffset := s.remTotalTokenOffset
      runningBatch := filterBatch a.runningBatch s.keepIndices
      preemptList := a.preemptList ++ order.iterate preemptible },
    s.store, s.memory⟩

/-- `preempt_to_schedule`. -/
def preemptToSchedule (a : PrefillAdder) (V : Memory M) (order : SetOrder) (store : Store)
    (memory : M) (req : Req) (scheduleLowPriorityValuesFirst : Bool) : Preempted M :=
  let sign := prioritySign scheduleLowPriorityValuesFirst
  let chosen := a.preemptLoop store sign req.priority (a.minTokensToRemove (V.sizes memory) req) []
    (a.sortedValidRunningReqs store sign)
  if chosen.1 = [] ∨ 0 < chosen.2 then ⟨false, a, store, memory⟩
  else a.commitPreemption V order store memory chosen.1

/-- By how much the running request has the worse priority. -/
def worseBy (scheduleLowPriorityValuesFirst : Bool) (incoming running : Req) : Int :=
  if scheduleLowPriorityValuesFirst then running.priority - incoming.priority
  else incoming.priority - running.priority

theorem priorityDiff_eq (low : Bool) (incoming running : Req) :
    (incoming.priority - running.priority) * -prioritySign low = worseBy low incoming running := by
  cases low
  · simp [prioritySign, worseBy]
  · simp [prioritySign, worseBy]

/-- The tokens that are promised to requests, and are free again without them. -/
def promised (a : PrefillAdder) (store : Store) (reqs : List Nat) : ℚ :=
  (reqs.map fun r => runningRequestOffset a.newTokenRatio (store r)).sum

variable {a : PrefillAdder} {store : Store} {sign priority : Int}

/-- The loop takes a beginning of the candidates, each of them with a difference above the
threshold, and what is still needed is what was needed less what they are promised. -/
theorem preemptLoop_spec (a : PrefillAdder) (store : Store) (sign priority : Int) (need : ℚ)
    (taken candidates : List Nat) :
    ∃ more, more.IsPrefix candidates ∧
      a.preemptLoop store sign priority need taken candidates =
        (taken ++ more, need - a.promised store more) ∧
      ∀ r ∈ more, a.preemptionThreshold < (priority - (store r).priority) * -sign := by
  induction candidates generalizing need taken with
  | nil => exact ⟨[], List.prefix_rfl, by simp [preemptLoop, promised], by simp⟩
  | cons running rest ih =>
      rw [preemptLoop]
      simp only
      split
      · next hdiff =>
          split
          · refine ⟨[running], ⟨rest, rfl⟩, by simp [promised], fun r hr => ?_⟩
            rw [List.mem_singleton.mp hr]
            exact hdiff
          · obtain ⟨more, hpref, heq, hmore⟩ :=
              ih (need - runningRequestOffset a.newTokenRatio (store running)) (taken ++ [running])
            refine ⟨running :: more, List.cons_prefix_cons.mpr ⟨rfl, hpref⟩, ?_, fun r hr => ?_⟩
            · rw [heq]
              simp [promised, sub_sub]
            · obtain rfl | hr := List.mem_cons.mp hr
              · exact hdiff
              · exact hmore r hr
      · exact ⟨[], List.nil_prefix, by simp [promised], by simp⟩

theorem mem_sortedValidRunningReqs {r : Nat} : r ∈ a.sortedValidRunningReqs store sign ↔
    r ∈ a.runningBatch ∧ r ∉ a.preemptList ∧ (store r).finished = false := by
  rw [sortedValidRunningReqs, List.mem_insertionSort, List.mem_filter]
  simp

theorem nodup_sortedValidRunningReqs (h : a.runningBatch.Nodup) :
    (a.sortedValidRunningReqs store sign).Nodup :=
  (List.perm_insertionSort _ _).nodup_iff.mpr (h.filter _)

variable {V : Memory M} {ratio : ℚ} {preemptible : List Nat} {numReqs : Nat}

/-- The requests behind are not touched, so each is read as it was. -/
theorem foldl_releaseStep (V : Memory M) (ratio : ℚ) (preemptible : List Nat) (numReqs : Nat)
    (entries : List (Nat × Nat)) (hnodup : (entries.map (·.1)).Nodup) (s : Releasing M) :
    let s' := entries.foldl (releaseStep V ratio preemptible numReqs) s
    s'.keepIndices = s.keepIndices ++
        (entries.filter fun e => e.1 ∉ preemptible).map (·.2) ∧
      s'.remTotalTokenOffset = s.remTotalTokenOffset -
        (((entries.map (·.1)).filter (· ∈ preemptible)).map fun r =>
          runningRequestOffset ratio (s.store r)).sum ∧
      ∀ r, r ∉ (entries.map (·.1)).filter (· ∈ preemptible) → s'.store r = s.store r := by
  induction entries generalizing s with
  | nil => simp
  | cons e entries ih =>
      obtain ⟨hnotMem, hrest⟩ := List.nodup_cons.mp hnodup
      obtain ⟨hkeep, hoffset, hstore⟩ := ih hrest (releaseStep V ratio preemptible numReqs s e)
      by_cases he : e.1 ∈ preemptible
      · have hother : ∀ r ∈ (entries.map (·.1)).filter (· ∈ preemptible),
            (releaseStep V ratio preemptible numReqs s e).store r = s.store r := by
          intro r hr
          have hne : r ≠ e.1 := by
            rintro rfl
            exact hnotMem (List.mem_filter.mp hr).1
          rw [releaseStep, if_pos he]
          exact Function.update_of_ne hne _ _
        have hsum := congrArg List.sum (List.map_congr_left fun r hr =>
          congrArg (runningRequestOffset ratio) (hother r hr))
        refine ⟨?_, ?_, fun r hr => ?_⟩
        · rw [List.foldl_cons, hkeep, releaseStep, if_pos he]
          simp [he]
        · rw [List.foldl_cons, hoffset, hsum, releaseStep, if_pos he]
          simp [he, sub_sub]
        · simp only [List.map_cons, List.filter_cons, he, decide_true, if_true,
            List.mem_cons, not_or] at hr
          rw [List.foldl_cons, hstore r hr.2, releaseStep, if_pos he]
          exact Function.update_of_ne hr.1 _ _
      · have hsame : (releaseStep V ratio preemptible numReqs s e).store = s.store := by
          rw [releaseStep, if_neg he]
        refine ⟨?_, ?_, fun r hr => ?_⟩
        · rw [List.foldl_cons, hkeep, releaseStep, if_neg he]
          simp [he]
        · rw [List.foldl_cons, hoffset, hsame, releaseStep, if_neg he]
          simp [he]
        · simp only [List.map_cons, List.filter_cons, he, decide_false, Bool.false_eq_true,
            if_false] at hr
          rw [List.foldl_cons, hstore r hr, hsame]

theorem filterBatch_eq (reqs preemptible : List Nat) :
    filterBatch reqs ((reqs.zipIdx.filter fun e => e.1 ∉ preemptible).map (·.2)) =
      reqs.filter (· ∉ preemptible) := by
  have hfst : (reqs.zipIdx.filter fun e => e.1 ∉ preemptible).map (·.1) =
      reqs.filter (· ∉ preemptible) := by
    have hmap := List.filter_map (f := Prod.fst) (p := (· ∉ preemptible)) (l := reqs.zipIdx)
    rw [List.zipIdx_map_fst] at hmap
    exact hmap.symm
  unfold filterBatch
  split
  · next hnil =>
      rw [List.map_eq_nil_iff] at hnil
      rw [← hfst, hnil]
      rfl
  · split
    · next hlength =>
        rw [List.length_map, ← List.length_map (f := (·.1)), hfst] at hlength
        exact (List.filter_eq_self.mpr (List.length_filter_eq_length_iff.mp hlength)).symm
    · rw [List.filterMap_map, ← hfst, ← List.filterMap_eq_map]
      apply List.filterMap_congr
      intro e he
      exact List.mem_zipIdx_iff_getElem?.mp (List.mem_filter.mp he).1

structure Preempts (a : PrefillAdder) (V : Memory M) (store : Store) (memory : M) (req : Req)
    (low : Bool) (victims : List Nat) (out : Preempted M) : Prop where
  nodup : victims.Nodup
  candidate {r : Nat} : r ∈ victims →
    r ∈ a.runningBatch ∧ r ∉ a.preemptList ∧ (store r).finished = false
  worse {r : Nat} : r ∈ victims → a.preemptionThreshold < worseBy low req (store r)
  /-- The victims join the preempt list, each of them once. -/
  preemptList : ∃ added, added.Perm victims ∧ out.adder.preemptList = a.preemptList ++ added
  /-- The running batch keeps the others, in order. -/
  runningBatch : out.adder.runningBatch = a.runningBatch.filter (· ∉ victims)
  /-- What was promised to the victims covers what the incoming request needs. -/
  covers : a.minTokensToRemove (V.sizes memory) req ≤ a.promised store victims
  /-- The total budget gets back what was promised. -/
  remTotalTokenOffset : out.adder.remTotalTokenOffset =
    a.remTotalTokenOffset - a.promised store victims
  /-- No other field of the adder changes. -/
  rest : out.adder = { a with
    remTotalTokenOffset := out.adder.remTotalTokenOffset
    runningBatch := out.adder.runningBatch
    preemptList := out.adder.preemptList }
  others {r : Nat} : r ∉ victims → out.store r = store r

theorem Preempts.nodup_preemptList {memory : M} {req : Req} {low : Bool} {victims : List Nat}
    {out : Preempted M} (h : a.Preempts V store memory req low victims out)
    (hnodup : a.preemptList.Nodup) : out.adder.preemptList.Nodup := by
  obtain ⟨added, hperm, heq⟩ := h.preemptList
  rw [heq]
  refine List.nodup_append.mpr ⟨hnodup, hperm.nodup_iff.mpr h.nodup, ?_⟩
  rintro r hr r' hr' rfl
  exact (h.candidate (hperm.mem_iff.mp hr')).2.1 hr

private theorem promised_perm {l l' : List Nat} (h : l.Perm l') :
    a.promised store l = a.promised store l' :=
  (h.map _).sum_eq

theorem commitPreemption_preempts (V : Memory M) (order : SetOrder) (memory : M) (req : Req)
    (low : Bool) {victims : List Nat} (hbatch : a.runningBatch.Nodup) (hnodup : victims.Nodup)
    (hcandidate : ∀ r ∈ victims,
      r ∈ a.runningBatch ∧ r ∉ a.preemptList ∧ (store r).finished = false)
    (hworse : ∀ r ∈ victims, a.preemptionThreshold < worseBy low req (store r))
    (hcovers : a.minTokensToRemove (V.sizes memory) req ≤ a.promised store victims) :
    a.Preempts V store memory req low victims
      (a.commitPreemption V order store memory victims) := by
  have hentries : (a.runningBatch.zipIdx.map (·.1)).Nodup := by
    rw [List.zipIdx_map_fst]
    exact hbatch
  obtain ⟨hkeep, hoffset, hstore⟩ := foldl_releaseStep V a.newTokenRatio victims
    a.runningBatch.length a.runningBatch.zipIdx hentries
    ⟨store, memory, a.remTotalTokenOffset, [], 0⟩
  rw [List.zipIdx_map_fst] at hoffset hstore
  have hvictims : (a.runningBatch.filter (· ∈ victims)).Perm victims := by
    rw [List.perm_ext_iff_of_nodup (hbatch.filter _) hnodup]
    intro r
    rw [List.mem_filter, decide_eq_true_eq]
    exact ⟨fun h => h.2, fun h => ⟨(hcandidate r h).1, h⟩⟩
  refine ⟨hnodup, fun hr => hcandidate _ hr, fun hr => hworse _ hr,
    ⟨order.iterate victims, ?_, rfl⟩, ?_, hcovers, ?_, rfl, fun hr => ?_⟩
  · have hperm := order.perm victims
    rwa [List.dedup_eq_self.mpr hnodup] at hperm
  · rw [← filterBatch_eq]
    exact congrArg (filterBatch a.runningBatch) hkeep
  · rw [← promised_perm hvictims]
    exact hoffset
  · exact hstore _ fun hmem => hr (hvictims.mem_iff.mp hmem)

end PrefillAdder

end SpecDecode.Admission
