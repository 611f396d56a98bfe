import SpecDecode.Lib.Ragged
import SpecDecode.Lib.Ranges

/-!
# The DFlash draft state of a batch

The hidden rows of all requests are kept in one flat tensor, `ctx_lens` says how many belong to
each request. Requests are filtered and merged between the steps of the scheduler.
-/

namespace SpecDecode.DFlash

open OptionMap Ragged Ranges

/-- `DFlashDraftInput`. A row of `target_hidden` has at least one feature, so the tensor has
elements when it has rows. -/
structure DFlashDraftInput (H : Type) where
  verifiedId : List Int
  targetHidden : Option (List H)
  ctxLens : List Nat
  draftSeqLens : List Nat

def maskedSelect (pos2d : List (List Nat)) (mask : List (List Bool)) : List Nat :=
  (pos2d.zip mask).flatMap fun row => ((row.1.zip row.2).filter Prod.snd).map Prod.fst

namespace DFlashDraftInput

variable {H : Type}

def filterHidden (oldTargetHidden : List H) (oldCtxLens newIndices : List Nat) :
    Option (List H) := do
  let start := (offsets oldCtxLens).dropLast
  let segStart ← gather start newIndices
  let segLens ← gather oldCtxLens newIndices
  let maxLen := segLens.max?.getD 0
  if maxLen ≤ 0 then return oldTargetHidden.take 0
  let r := List.range maxLen
  let pos2d := segStart.map fun s => r.map (s + ·)
  let mask := segLens.map fun len => r.map fun j => decide (j < len)
  let flatPos := maskedSelect pos2d mask
  if flatPos.length > 0 then gather oldTargetHidden flatPos else return oldTargetHidden.take 0

/-- The tensor of the filtered batch: a missing or empty one stays. -/
def filterTargetHidden (targetHidden : Option (List H)) (oldCtxLens newIndices : List Nat) :
    Option (Option (List H)) :=
  match targetHidden with
  | none => some none
  | some hidden =>
      if hidden.isEmpty then some (some hidden)
      else (filterHidden hidden oldCtxLens newIndices).map some

/-- `filter_batch`; an index out of range raises. -/
def filterBatch (d : DFlashDraftInput H) (newIndices : List Nat) :
    Option (DFlashDraftInput H) := do
  let verifiedId ← gather d.verifiedId newIndices
  let ctxLens ← gather d.ctxLens newIndices
  let draftSeqLens ← gather d.draftSeqLens newIndices
  let targetHidden ← filterTargetHidden d.targetHidden d.ctxLens newIndices
  return { verifiedId := verifiedId, targetHidden := targetHidden, ctxLens := ctxLens,
           draftSeqLens := draftSeqLens }

/-- `merge_batch`. -/
def mergeBatch (d specInfo : DFlashDraftInput H) : DFlashDraftInput H where
  verifiedId := d.verifiedId ++ specInfo.verifiedId
  ctxLens := d.ctxLens ++ specInfo.ctxLens
  draftSeqLens := d.draftSeqLens ++ specInfo.draftSeqLens
  targetHidden :=
    match d.targetHidden with
    | none => specInfo.targetHidden
    | some hidden =>
        if hidden.isEmpty then specInfo.targetHidden
        else match specInfo.targetHidden with
          | none => some hidden
          | some other => if other.isEmpty then some hidden else some (hidden ++ other)

end DFlashDraftInput

inductive DraftCall (H : Type)
  | filterBatch (newIndices : List Nat)
  | mergeBatch (specInfo : DFlashDraftInput H)

/-- The calls one after another. -/
def DFlashDraftInput.run {H : Type} : List (DraftCall H) → DFlashDraftInput H →
    Option (DFlashDraftInput H)
  | [], d => some d
  | .filterBatch newIndices :: calls, d => (d.filterBatch newIndices).bind (run calls)
  | .mergeBatch specInfo :: calls, d => run calls (d.mergeBatch specInfo)

structure DraftReq (H : Type) where
  verifiedId : Int
  hidden : List H
  draftSeqLen : Nat

/-- The draft state lists the data of the requests, in their order. -/
structure Aligned {H : Type} (d : DFlashDraftInput H) (reqs : List (DraftReq H)) : Prop where
  verifiedId : d.verifiedId = reqs.map DraftReq.verifiedId
  ctxLens : d.ctxLens = reqs.map fun req => req.hidden.length
  draftSeqLens : d.draftSeqLens = reqs.map DraftReq.draftSeqLen
  targetHidden : d.targetHidden.getD [] = reqs.flatMap DraftReq.hidden

/-- The calls turn these requests into those: a filter chooses requests of the batch by index,
a merge appends the requests of the other batch. -/
inductive Serves {H : Type} : List (DraftReq H) → List (DraftCall H) → List (DraftReq H) → Prop
  | done {reqs : List (DraftReq H)} : Serves reqs [] reqs
  | filterBatch {reqs chosen last : List (DraftReq H)} {newIndices : List Nat}
      {calls : List (DraftCall H)} (hchosen : gather reqs newIndices = some chosen)
      (hcalls : Serves chosen calls last) :
      Serves reqs (.filterBatch newIndices :: calls) last
  | mergeBatch {reqs others last : List (DraftReq H)} {specInfo : DFlashDraftInput H}
      {calls : List (DraftCall H)} (hothers : Aligned specInfo others)
      (hcalls : Serves (reqs ++ others) calls last) :
      Serves reqs (.mergeBatch specInfo :: calls) last

variable {H : Type} {d specInfo : DFlashDraftInput H} {reqs others chosen last : List (DraftReq H)}
variable {newIndices : List Nat} {calls : List (DraftCall H)}

/-- The mask keeps as many positions of a row as its segment is long. -/
private theorem maskedSelect_eq {n : Nat} (starts : List Nat) {lens : List Nat}
    (h : ∀ len ∈ lens, len ≤ n) :
    maskedSelect (starts.map fun s => (List.range n).map (s + ·))
      (lens.map fun len => (List.range n).map fun j => decide (j < len)) =
        (starts.zip lens).flatMap fun row => List.range' row.1 row.2 := by
  rw [maskedSelect, List.zip_map, List.flatMap_map]
  refine List.flatMap_congr fun row hrow => ?_
  have hlen : row.2 ≤ n := h row.2 (List.of_mem_zip hrow).2
  simp only [Prod.map_fst, Prod.map_snd]
  rw [List.zip_map', List.filter_map, List.map_map, List.range'_eq_map_range,
    ← filter_range_lt hlen]
  rfl

theorem filterHidden_eq {segments chosen : List (List H)}
    (h : gather segments newIndices = some chosen) :
    DFlashDraftInput.filterHidden segments.flatten (segments.map List.length) newIndices =
      some chosen.flatten := by
  have hpairs := forall₂_of_mapM h
  have hlengths : newIndices.length = chosen.length := hpairs.length_eq
  have hpair : ∀ row ∈ newIndices.zip chosen, segments[row.1]? = some row.2 :=
    fun row hrow => (List.forall₂_iff_zip.mp hpairs).2 hrow
  have hlt : ∀ i ∈ newIndices, i < segments.length := by
    intro i hi
    obtain ⟨seg, -, hseg⟩ := (forall₂_mem hpairs).1 i hi
    exact (List.getElem?_eq_some_iff.mp hseg).1
  have hstart : gather (offsets (segments.map List.length)).dropLast newIndices =
      some (newIndices.map fun i => ((segments.map List.length).take i).sum) :=
    mapM_eq_some_map fun i hi =>
      getElem?_offsets_dropLast _ (by rw [List.length_map]; exact hlt i hi)
  have hlens : gather (segments.map List.length) newIndices = some (chosen.map List.length) :=
    gather_map _ h
  have hchosen : (newIndices.zip chosen).flatMap Prod.snd = chosen.flatten := by
    rw [List.flatMap, List.map_snd_zip hlengths.ge]
  -- Every pair of an index and its segment gathers the segment.
  have hgather : gather segments.flatten
      (((newIndices.map fun i => ((segments.map List.length).take i).sum).zip
        (chosen.map List.length)).flatMap fun row => List.range' row.1 row.2) =
      some chosen.flatten := by
    rw [List.zip_map, List.flatMap_map, ← hchosen]
    refine gather_flatMap fun row hrow => ?_
    obtain ⟨hi, hseg⟩ := List.getElem?_eq_some_iff.mp (hpair row hrow)
    have hsegment := gather_segment segments hi
    rw [hseg] at hsegment
    exact hsegment
  have hmask := maskedSelect_eq (n := (chosen.map List.length).max?.getD 0)
    (newIndices.map fun i => ((segments.map List.length).take i).sum)
    fun len hlen => List.le_max?_getD_of_mem hlen
  simp only [DFlashDraftInput.filterHidden, hstart, hlens, Option.bind_eq_bind, Option.bind_some,
    hmask, List.take_zero]
  split
  · next hnone =>
      have hempty : ∀ seg ∈ chosen, seg = [] := fun seg hseg =>
        List.length_eq_zero_iff.mp (Nat.le_zero.mp (Nat.le_trans
          (List.le_max?_getD_of_mem (List.mem_map_of_mem hseg)) hnone))
      rw [List.flatten_eq_nil_iff.mpr hempty]
      rfl
  · split
    · exact hgather
    · next hzero =>
        rw [List.length_eq_zero_iff.mp (Nat.le_zero.mp (Nat.not_lt.mp hzero))] at hgather
        exact hgather

namespace Aligned

theorem sum_ctxLens (h : Aligned d reqs) : d.ctxLens.sum = (d.targetHidden.getD []).length := by
  rw [h.ctxLens, h.targetHidden, List.length_flatMap]

theorem ctxLens_segments (h : Aligned d reqs) :
    d.ctxLens = (reqs.map DraftReq.hidden).map List.length := by
  rw [h.ctxLens, List.map_map]
  rfl

/-- A draft state without rows belongs to requests without rows. -/
private theorem hidden_eq_nil (h : Aligned d reqs) (hnone : d.targetHidden.getD [] = []) :
    ∀ req ∈ reqs, req.hidden = [] :=
  List.flatMap_eq_nil_iff.mp (h.targetHidden.symm.trans hnone)

theorem filterBatch (h : Aligned d reqs) (hchosen : gather reqs newIndices = some chosen) :
    ∃ d', d.filterBatch newIndices = some d' ∧ Aligned d' chosen := by
  have hverified : gather d.verifiedId newIndices = some (chosen.map DraftReq.verifiedId) :=
    h.verifiedId ▸ gather_map _ hchosen
  have hctx : gather d.ctxLens newIndices = some (chosen.map fun req => req.hidden.length) :=
    h.ctxLens ▸ gather_map _ hchosen
  have hdraft : gather d.draftSeqLens newIndices = some (chosen.map DraftReq.draftSeqLen) :=
    h.draftSeqLens ▸ gather_map _ hchosen
  -- Requests chosen from a batch without rows have none either.
  have hnil : d.targetHidden.getD [] = [] → chosen.flatMap DraftReq.hidden = [] := by
    intro hnone
    refine List.flatMap_eq_nil_iff.mpr fun req hreq => ?_
    obtain ⟨i, -, hi⟩ := (forall₂_mem (forall₂_of_mapM hchosen)).2 req hreq
    exact h.hidden_eq_nil hnone req (List.mem_of_getElem? hi)
  have hhidden : ∃ targetHidden,
      DFlashDraftInput.filterTargetHidden d.targetHidden d.ctxLens newIndices =
        some targetHidden ∧ targetHidden.getD [] = chosen.flatMap DraftReq.hidden := by
    cases htarget : d.targetHidden with
    | none =>
        rw [htarget] at hnil
        exact ⟨none, rfl, (hnil rfl).symm⟩
    | some hidden =>
        have hrows : hidden = (reqs.map DraftReq.hidden).flatten := by
          have htargets := h.targetHidden
          rw [htarget] at htargets
          exact htargets
        rw [DFlashDraftInput.filterTargetHidden]
        by_cases hempty : hidden.isEmpty
        · rw [htarget] at hnil
          have hidden_nil : hidden = [] := List.isEmpty_iff.mp hempty
          rw [if_pos hempty]
          exact ⟨_, rfl, hidden_nil.trans (hnil hidden_nil).symm⟩
        · rw [if_neg hempty, hrows, h.ctxLens_segments, filterHidden_eq (gather_map _ hchosen)]
          exact ⟨_, rfl, rfl⟩
  obtain ⟨targetHidden, htarget, hrows⟩ := hhidden
  refine ⟨{ verifiedId := chosen.map DraftReq.verifiedId, targetHidden := targetHidden,
            ctxLens := chosen.map fun req => req.hidden.length,
            draftSeqLens := chosen.map DraftReq.draftSeqLen }, ?_, rfl, rfl, rfl, hrows⟩
  rw [DFlashDraftInput.filterBatch, hverified, hctx, hdraft]
  simp only [Option.bind_eq_bind, Option.bind_some]
  rw [htarget]
  rfl

theorem mergeBatch (h : Aligned d reqs) (hothers : Aligned specInfo others) :
    Aligned (d.mergeBatch specInfo) (reqs ++ others) where
  verifiedId := by
    rw [List.map_append, ← h.verifiedId, ← hothers.verifiedId]
    rfl
  ctxLens := by
    rw [List.map_append, ← h.ctxLens, ← hothers.ctxLens]
    rfl
  draftSeqLens := by
    rw [List.map_append, ← h.draftSeqLens, ← hothers.draftSeqLens]
    rfl
  targetHidden := by
    rw [List.flatMap_append, ← h.targetHidden, ← hothers.targetHidden]
    unfold DFlashDraftInput.mergeBatch
    cases d.targetHidden with
    | none => rfl
    | some hidden =>
        cases specInfo.targetHidden with
        | none => cases hidden <;> simp
        | some other => cases hidden <;> cases other <;> simp

/-- Every sequence of `filter_batch` and `merge_batch` calls on what the scheduler keeps leaves the
draft state aligned, request by request, with the requests it serves. -/
theorem run_aligned (h : Aligned d reqs) (hserves : Serves reqs calls last) :
    ∃ d', d.run calls = some d' ∧ Aligned d' last ∧
      d'.ctxLens.sum = (d'.targetHidden.getD []).length := by
  induction hserves generalizing d with
  | done => exact ⟨d, rfl, h, h.sum_ctxLens⟩
  | filterBatch hchosen _ ih =>
      obtain ⟨d', hfilter, haligned⟩ := h.filterBatch hchosen
      obtain ⟨last, hrun, hlast⟩ := ih haligned
      refine ⟨last, ?_, hlast⟩
      rw [DFlashDraftInput.run, hfilter]
      exact hrun
  | mergeBatch hothers _ ih => exact ih (h.mergeBatch hothers)

/-- Three requests with two, no and one hidden rows. -/
def threeRequests : DFlashDraftInput Nat where
  verifiedId := [10, 20, 30]
  targetHidden := some [1, 2, 3]
  ctxLens := [2, 0, 1]
  draftSeqLens := [5, 6, 7]

/-- A request without hidden rows yet. -/
def newRequest : DFlashDraftInput Nat where
  verifiedId := [40]
  targetHidden := none
  ctxLens := [0]
  draftSeqLens := [8]

/-- The third request comes before the first one, and the new one goes to the front. -/
theorem run_aligned_threeRequests :
    ∃ d', threeRequests.run
      [.filterBatch [2, 0], .mergeBatch newRequest, .filterBatch [2, 0, 1]] = some d' ∧
      Aligned d' [⟨40, [], 8⟩, ⟨30, [3], 7⟩, ⟨10, [1, 2], 5⟩] ∧
      d'.ctxLens.sum = (d'.targetHidden.getD []).length := by
  have hthree : Aligned threeRequests [⟨10, [1, 2], 5⟩, ⟨20, [], 6⟩, ⟨30, [3], 7⟩] :=
    ⟨rfl, rfl, rfl, rfl⟩
  have hnew : Aligned newRequest [⟨40, [], 8⟩] := ⟨rfl, rfl, rfl, rfl⟩
  exact hthree.run_aligned (.filterBatch rfl (.mergeBatch hnew (.filterBatch rfl .done)))

end Aligned

end SpecDecode.DFlash
