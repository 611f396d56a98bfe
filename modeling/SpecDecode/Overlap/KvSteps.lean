import SpecDecode.Lib.Ranges
import SpecDecode.Overlap.KvLens

/-!
# What the steps of the overlapped loop do to a request

A prepared step, a processed result, prefill and retraction, each as an equation for the
requests it touches and for those it does not. `Treats` states that a transformer of the
scheduler state changes one request and the free rows only; loops over such transformers
then change the requests one by one.
-/

namespace SpecDecode.Overlap

open Function Buffer Ranges

theorem cells_assignReqToTokenPool (poolLen : Nat) (row start stop : Nat → Nat) (out : List Nat)
    (pid : Nat) : (assignReqToTokenPool poolLen row start stop out pid).map Prod.fst =
      (List.range (stop pid - start pid)).map fun k => row pid * poolLen + (start pid + k) := by
  unfold assignReqToTokenPool
  dsimp only
  rw [filterMap_range_mul _ 32 fun k => if start pid + k < stop pid then some
    (row pid * poolLen + (start pid + k), out.getD (((List.range pid).map fun j =>
      (stop j : Int) - start j).sum + k).toNat 0) else none]
  have hcond : ∀ k, (start pid + k < stop pid) = (k < stop pid - start pid) := fun k =>
    propext (by omega)
  simp only [hcond]
  rw [filterMap_range_lt (by omega), List.map_map]
  rfl

/-- What the loop of `prepare_for_decode` makes of a request. -/
def Req.claim (doubleAlloc : Nat) (r : Req) : Req :=
  { r with
    kvAllocatedLen := r.kvCommittedLen + doubleAlloc
    decodeBatchIdx := r.decodeBatchIdx + 1
    kvCommittedLen := r.kvCommittedLen + 1 }

theorem reqs_foldl_claimReq (d : Nat) (batch : List Nat) (c : Claim) :
    (batch.foldl (claimReq d) c).reqs = updateEach id (fun _ r => r.claim d) batch c.reqs := by
  induction batch generalizing c with
  | nil => rfl
  | cons i batch ih => exact ih _

theorem lens_foldl_claimReq {d : Nat} {batch : List Nat} (hnodup : batch.Nodup) (c : Claim) :
    (batch.foldl (claimReq d) c).curKvLens =
        c.curKvLens ++ batch.map (fun i => (c.reqs i).kvAllocatedLen) ∧
      (batch.foldl (claimReq d) c).nxtKvLens =
        c.nxtKvLens ++ batch.map (fun i => (c.reqs i).kvCommittedLen + d) := by
  induction batch generalizing c with
  | nil => simp
  | cons i batch ih =>
      obtain ⟨hi, hnodup⟩ := List.nodup_cons.mp hnodup
      have hsame : ∀ j ∈ batch, (claimReq d c i).reqs j = c.reqs j := by
        intro j hj
        refine update_of_ne (fun heq => hi ?_) _ _
        rwa [← heq]
      obtain ⟨hcur, hnxt⟩ := ih hnodup (claimReq d c i)
      rw [List.map_congr_left fun j hj => by rw [hsame j hj]] at hcur hnxt
      rw [List.foldl_cons, hcur, hnxt]
      simp [claimReq]

section Prepare

variable {d : Nat} {reqs : Nat → Req} {batch : List Nat} (hnodup : batch.Nodup)

include hnodup

theorem curKvLens_claim :
    (claim d reqs batch).curKvLens = batch.map fun i => (reqs i).kvAllocatedLen :=
  (lens_foldl_claimReq hnodup _).1

theorem nxtKvLens_claim :
    (claim d reqs batch).nxtKvLens = batch.map fun i => (reqs i).kvCommittedLen + d :=
  (lens_foldl_claimReq hnodup _).2

private theorem reqs_claim {i : Nat} (hi : i ∈ batch) :
    (claim d reqs batch).reqs i = (reqs i).claim d := by
  unfold claim
  rw [reqs_foldl_claimReq]
  exact updateEach_mem id _ (by rwa [List.map_id]) hi reqs

/-- A request of the batch after the step is prepared: its new positions are assigned. -/
theorem assign_mem {i row : Nat} (hi : i ∈ batch) (hrow : (reqs i).reqPoolIdx = some row)
    (poolLen : Nat) (out : List Nat) :
    ∃ stores : List (Nat × Nat), assign poolLen (claim d reqs batch) batch out i =
        { (reqs i).claim d with assigned := (reqs i).assigned ++ stores } ∧
      stores.map Prod.fst =
        (List.range ((reqs i).kvCommittedLen + d - (reqs i).kvAllocatedLen)).map
          fun k => row * poolLen + ((reqs i).kvAllocatedLen + k) := by
  obtain ⟨pid, hpid, rfl⟩ := List.getElem_of_mem hi
  have hget : batch.getD pid 0 = batch[pid] := by simp [hpid]
  have hkeys : ((List.range batch.length).map (batch.getD · 0)).Nodup := by
    have heq : (List.range batch.length).map (batch.getD · 0) = batch := by
      refine List.ext_getElem (by simp) fun k hk _ => ?_
      have hk : k < batch.length := by simpa using hk
      simp [hk]
    rwa [heq]
  have hreqs : (claim d reqs batch).reqs batch[pid] = (reqs batch[pid]).claim d :=
    reqs_claim hnodup hi
  refine ⟨(claim d reqs batch).stores poolLen batch out pid, ?_, ?_⟩
  · rw [← hget] at hreqs ⊢
    unfold assign
    rw [updateEach_mem (batch.getD · 0) _ hkeys (List.mem_range.mpr hpid), hreqs]
    rfl
  · have hidx : ((claim d reqs batch).reqs (batch.getD pid 0)).reqPoolIdx.getD 0 = row := by
      rw [hget, hreqs]
      simp [Req.claim, hrow]
    unfold Claim.stores
    rw [cells_assignReqToTokenPool, curKvLens_claim hnodup, nxtKvLens_claim hnodup, hidx]
    simp [hpid]

end Prepare

variable {i : Nat} {ls : List (Nat × Nat)}

theorem assign_notMem {d : Nat} {reqs : Nat → Req} {batch : List Nat} (hi : i ∉ batch)
    (poolLen : Nat) (out : List Nat) :
    assign poolLen (claim d reqs batch) batch out i = reqs i := by
  unfold assign claim
  rw [updateEach_notMem, reqs_foldl_claimReq, updateEach_notMem id _ (by rwa [List.map_id])]
  intro hmem
  obtain ⟨pid, hpid, rfl⟩ := List.mem_map.mp hmem
  have hpid : pid < batch.length := List.mem_range.mp hpid
  exact hi (by simp [hpid])

/-- No row of `req_to_token` is free and held, or held twice. -/
structure Rows (reqs : Nat → Req) (freeSlots : List Nat) : Prop where
  nodup : freeSlots.Nodup
  not_free {i row : Nat} : (reqs i).reqPoolIdx = some row → row ∉ freeSlots
  inj {i j row : Nat} : (reqs i).reqPoolIdx = some row → (reqs j).reqPoolIdx = some row → i = j

namespace Rows

variable {reqs reqs' : Nat → Req} {freeSlots : List Nat}

theorem congr (h : Rows reqs freeSlots) (hsame : ∀ i, (reqs' i).reqPoolIdx = (reqs i).reqPoolIdx) :
    Rows reqs' freeSlots := by
  refine ⟨h.nodup, fun hi => ?_, fun hi hj => ?_⟩
  · exact h.not_free (by rwa [← hsame])
  · exact h.inj (by rwa [← hsame]) (by rwa [← hsame])

theorem take {i row : Nat} (h : Rows reqs (row :: freeSlots)) (hi : (reqs' i).reqPoolIdx = some row)
    (hsame : ∀ j, j ≠ i → (reqs' j).reqPoolIdx = (reqs j).reqPoolIdx) : Rows reqs' freeSlots := by
  obtain ⟨hfresh, hnodup⟩ := List.nodup_cons.mp h.nodup
  have hother : ∀ {j r}, j ≠ i → (reqs' j).reqPoolIdx = some r → r ≠ row := by
    rintro j r hj hr rfl
    exact h.not_free (by rwa [← hsame j hj]) List.mem_cons_self
  refine ⟨hnodup, fun {j r} hj => ?_, fun {j k r} hj hk => ?_⟩
  · by_cases heq : j = i
    · rw [heq, hi, Option.some.injEq] at hj
      rwa [← hj]
    · exact fun hmem => h.not_free (by rwa [← hsame j heq]) (List.mem_cons_of_mem _ hmem)
  · by_cases hji : j = i
    · rw [hji, hi, Option.some.injEq] at hj
      by_cases hki : k = i
      · rw [hji, hki]
      · exact absurd hj.symm (hother hki hk)
    · by_cases hki : k = i
      · rw [hki, hi, Option.some.injEq] at hk
        exact absurd hk.symm (hother hji hj)
      · exact h.inj (by rwa [← hsame j hji]) (by rwa [← hsame k hki])

theorem release {i : Nat} (h : Rows reqs freeSlots) (hi : (reqs' i).reqPoolIdx = none)
    (hsame : ∀ j, j ≠ i → (reqs' j).reqPoolIdx = (reqs j).reqPoolIdx) :
    Rows reqs' (freeSlots ++ (reqs i).reqPoolIdx.toList) := by
  have hne : ∀ {j row}, (reqs' j).reqPoolIdx = some row → j ≠ i := by
    rintro j row hj rfl
    rw [hi] at hj
    cases hj
  refine ⟨?_, fun {j row} hj hmem => ?_, fun {j k row} hj hk => ?_⟩
  · refine List.nodup_append'.mpr ⟨h.nodup, Option.toList_nodup _, fun row hfree hrow => ?_⟩
    exact h.not_free (Option.mem_toList.mp hrow) hfree
  · have hold : (reqs j).reqPoolIdx = some row := by rwa [← hsame j (hne hj)]
    rcases List.mem_append.mp hmem with hfree | hrow
    · exact h.not_free hold hfree
    · exact hne hj (h.inj hold (Option.mem_toList.mp hrow))
  · exact h.inj (by rwa [← hsame j (hne hj)]) (by rwa [← hsame k (hne hk)])

end Rows

namespace Result

def reqs : Result → List Nat
  | .extend reqs => reqs
  | .decode acceptLens => acceptLens.map Prod.fst

def acceptLen (i : Nat) : Result → Nat
  | .extend _ => 0
  | .decode acceptLens => (acceptLens.lookup i).getD 0

/-- What a launched batch of distinct requests returns. -/
def Ok (allocLen : Nat) (r : Result) : Prop :=
  r.reqs.Nodup ∧ ∀ acceptLens, r = .decode acceptLens → ∀ p ∈ acceptLens, 1 ≤ p.2 ∧ p.2 ≤ allocLen

end Result

theorem lookup_of_notMem (hi : i ∉ ls.map Prod.fst) : ls.lookup i = none := by
  rw [List.lookup_eq_none_iff]
  intro p hp
  simp only [ne_eq, bne_iff_ne]
  rintro rfl
  exact hi (List.mem_map_of_mem hp)

private theorem lookup_of_mem (hnodup : (ls.map Prod.fst).Nodup) {p : Nat × Nat}
    (hp : p ∈ ls) : ls.lookup p.1 = some p.2 := by
  induction ls with
  | nil => cases hp
  | cons q ls ih =>
      obtain ⟨i, n⟩ := q
      rw [List.map_cons, List.nodup_cons] at hnodup
      rcases List.mem_cons.mp hp with rfl | hp
      · rw [List.lookup_cons_self]
      · have hmem : p.1 ∈ ls.map Prod.fst := List.mem_map_of_mem hp
        have hne : p.1 ≠ i := fun heq => hnodup.1 (heq ▸ hmem)
        rw [List.lookup_cons, beq_false_of_ne hne]
        exact ih hnodup.2 hp

theorem acceptLen_mem (hnodup : (ls.map Prod.fst).Nodup) {p : Nat × Nat}
    (hp : p ∈ ls) : (Result.decode ls).acceptLen p.1 = p.2 := by
  rw [show (Result.decode ls).acceptLen p.1 = (ls.lookup p.1).getD 0 from rfl,
    lookup_of_mem hnodup hp, Option.getD_some]

theorem acceptLen_notMem (hi : i ∉ ls.map Prod.fst) : (Result.decode ls).acceptLen i = 0 := by
  rw [show (Result.decode ls).acceptLen i = (ls.lookup i).getD 0 from rfl,
    lookup_of_notMem hi, Option.getD_none]

section AcceptLens

variable {ls : List (Nat × Nat)} (hnodup : (ls.map Prod.fst).Nodup) (reqs : Nat → Req) (i : Nat)

include hnodup

theorem resolveSpecOverlapTokenIds_apply : resolveSpecOverlapTokenIds ls reqs i =
    { reqs i with
      kvCommittedLen := (reqs i).kvCommittedLen + ((Result.decode ls).acceptLen i - 1) } := by
  unfold resolveSpecOverlapTokenIds
  by_cases hi : i ∈ ls.map Prod.fst
  · obtain ⟨p, hp, rfl⟩ := List.mem_map.mp hi
    rw [updateEach_mem _ _ hnodup hp, acceptLen_mem hnodup hp]
  · rw [updateEach_notMem _ _ hi, acceptLen_notMem hi]
    rfl

theorem verify_apply : verify ls reqs i =
    { reqs i with seqLen := (reqs i).seqLen + (Result.decode ls).acceptLen i } := by
  unfold verify
  by_cases hi : i ∈ ls.map Prod.fst
  · obtain ⟨p, hp, rfl⟩ := List.mem_map.mp hi
    rw [updateEach_mem _ _ hnodup hp, acceptLen_mem hnodup hp]
  · rw [updateEach_notMem _ _ hi, acceptLen_notMem hi]
    rfl

end AcceptLens

structure Processed (n : Nat) (r r' : Req) : Prop where
  assigned : r'.assigned = r.assigned
  allocated : r'.kvAllocatedLen = r.kvAllocatedLen
  seqLen : r'.seqLen = r.seqLen
  retracted : r'.isRetracted = r.isRetracted
  committed : r'.kvCommittedLen = r.kvCommittedLen + (n - 1)
  row : r'.reqPoolIdx = none ∧ r'.finished = true ∨
    r'.reqPoolIdx = r.reqPoolIdx ∧ r'.finished = r.finished
  resolved : r.finished = false → r.isRetracted = false → r'.resolvedLen = r.resolvedLen + n

/-- `_handle_finished_req` on the request itself. -/
def Req.finish (done : List Nat) (i : Nat) (r : Req) : Req :=
  if i ∈ done then { r with reqPoolIdx := none, finished := true } else r

theorem Processed.finish {n : Nat} {r r' : Req} (h : Processed n r r') (done : List Nat) :
    Processed n r (r'.finish done i) := by
  unfold Req.finish
  split
  · exact { h with row := .inl ⟨rfl, rfl⟩ }
  · exact h

theorem handleFinishedReq_eq (done : List Nat) (s : State) (i : Nat) : ∃ freeSlots,
    handleFinishedReq done s i =
        { s with reqs := update s.reqs i ((s.reqs i).finish done i), freeSlots := freeSlots } ∧
      (Rows s.reqs s.freeSlots →
        Rows (update s.reqs i ((s.reqs i).finish done i)) freeSlots) := by
  unfold handleFinishedReq Req.finish
  split
  · refine ⟨s.freeSlots ++ (s.reqs i).reqPoolIdx.toList, ?_, fun h => h.release ?_ fun j hj => ?_⟩
    · simp [releaseKvCache]
    · rw [update_self]
    · rw [update_of_ne hj]
  · exact ⟨s.freeSlots, by simp, fun h => by simpa using h⟩

/-- A state transformer that changes one request, and the free rows with it. -/
def Treats (f : State → State) (i : Nat) (g : Req → Req) : Prop :=
  ∀ s, ∃ freeSlots,
    f s = { s with reqs := update s.reqs i (g (s.reqs i)), freeSlots := freeSlots } ∧
      (Rows s.reqs s.freeSlots → Rows (update s.reqs i (g (s.reqs i))) freeSlots)

/-- A loop over such transformers changes the requests one by one. -/
theorem foldl_treats {κ : Type} {f : State → κ → State} {key : κ → Nat} {g : κ → Req → Req}
    (h : ∀ k, Treats (f · k) (key k) (g k)) (ks : List κ) (s : State) : ∃ freeSlots,
    ks.foldl f s = { s with reqs := updateEach key g ks s.reqs, freeSlots := freeSlots } ∧
      (Rows s.reqs s.freeSlots → Rows (updateEach key g ks s.reqs) freeSlots) := by
  induction ks generalizing s with
  | nil => exact ⟨s.freeSlots, rfl, id⟩
  | cons k ks ih =>
      obtain ⟨free, hf, hrows⟩ := h k s
      obtain ⟨free', hfold, hrows'⟩ := ih (f s k)
      dsimp only at hf
      rw [hf] at hfold hrows'
      exact ⟨free', by rw [List.foldl_cons, hf, hfold]; rfl, fun hs => hrows' (hrows hs)⟩

theorem treats_handleFinishedReq (done : List Nat) (i : Nat) :
    Treats (handleFinishedReq done · i) i (Req.finish done i) :=
  fun s => handleFinishedReq_eq done s i

theorem Treats.unless {f : State → State} {g : Req → Req} (h : Treats f i g)
    (p : Req → Bool) : Treats (fun s => if p (s.reqs i) then s else f s) i
      fun r => if p r then r else g r := by
  intro s
  by_cases hp : p (s.reqs i) = true
  · exact ⟨s.freeSlots, by simp [hp], fun hs => by simpa [hp] using hs⟩
  · simpa [hp] using h s

theorem Treats.after {f : State → State} {g : Req → Req} (h : Treats f i g)
    (k : Req → Req) (hrow : ∀ r, (k r).reqPoolIdx = r.reqPoolIdx) :
    Treats (fun s => f { s with reqs := update s.reqs i (k (s.reqs i)) }) i (g ∘ k) := by
  intro s
  obtain ⟨free, hf, hrows⟩ := h { s with reqs := update s.reqs i (k (s.reqs i)) }
  refine ⟨free, hf.trans ?_, fun hs => ?_⟩
  · simp
  · have hkept : Rows (update s.reqs i (k (s.reqs i))) s.freeSlots := by
      refine hs.congr fun j => ?_
      by_cases hj : j = i
      · rw [hj, update_self, hrow]
      · rw [update_of_ne hj]
    simpa using hrows hkept

/-- The body of the loop of `process_batch_result_decode` on the request itself. -/
def Req.process (done : List Nat) (p : Nat × Nat) (r : Req) : Req :=
  if r.finished || r.isRetracted then r
  else { r with resolvedLen := r.resolvedLen + p.2 }.finish done p.1

theorem treats_processReq (done : List Nat) (p : Nat × Nat) :
    Treats (processReq done · p) p.1 (Req.process done p) :=
  ((treats_handleFinishedReq done p.1).after
    (fun r => { r with resolvedLen := r.resolvedLen + p.2 }) fun _ => rfl).unless fun r =>
      r.finished || r.isRetracted

theorem Processed.refl (r : Req) : Processed 0 r r :=
  ⟨rfl, rfl, rfl, rfl, rfl, .inr ⟨rfl, rfl⟩, fun _ _ => rfl⟩

private theorem processed_process (done : List Nat) (p : Nat × Nat) (r : Req) :
    Processed p.2 r
      (Req.process done p { r with kvCommittedLen := r.kvCommittedLen + (p.2 - 1) }) := by
  unfold Req.process
  split
  · next hskip =>
      refine ⟨rfl, rfl, rfl, rfl, rfl, .inr ⟨rfl, rfl⟩, fun hfin hret => ?_⟩
      simp [hfin, hret] at hskip
  · refine Processed.finish (r := r) ?_ done
    exact ⟨rfl, rfl, rfl, rfl, rfl, .inr ⟨rfl, rfl⟩, fun _ _ => rfl⟩

theorem processBatchResult_eq (done : List Nat) (s : State) {result : Result}
    (hnodup : result.reqs.Nodup) : ∃ reqs freeSlots,
    processBatchResult done s result = { s with reqs := reqs, freeSlots := freeSlots } ∧
      (Rows s.reqs s.freeSlots → Rows reqs freeSlots) ∧
      ∀ i, Processed (result.acceptLen i) (s.reqs i) (reqs i) := by
  cases result with
  | extend ids =>
      have htreats := fun i => (treats_handleFinishedReq done i).unless fun r =>
        r.finished || r.isRetracted
      obtain ⟨free, hfold, hrows⟩ := foldl_treats htreats ids s
      refine ⟨_, free, hfold, hrows, fun i => ?_⟩
      by_cases hi : i ∈ ids
      · have hkeys : (ids.map fun i => i).Nodup := by
          rw [List.map_id']
          exact hnodup
        rw [updateEach_mem (fun i => i) _ hkeys hi]
        split
        · exact Processed.refl _
        · exact (Processed.refl _).finish done
      · rw [updateEach_notMem (fun i => i) _ (by simpa using hi)]
        exact Processed.refl _
  | decode ls =>
      obtain ⟨free, hfold, hrows⟩ := foldl_treats (treats_processReq done) ls
        { s with reqs := resolveSpecOverlapTokenIds ls s.reqs }
      refine ⟨_, free, hfold, fun hs => hrows (hs.congr fun i => ?_), fun i => ?_⟩
      · dsimp only
        rw [resolveSpecOverlapTokenIds_apply hnodup]
      · have hresolve := resolveSpecOverlapTokenIds_apply hnodup s.reqs i
        by_cases hi : i ∈ ls.map Prod.fst
        · obtain ⟨p, hp, rfl⟩ := List.mem_map.mp hi
          rw [acceptLen_mem hnodup hp] at hresolve ⊢
          rw [updateEach_mem _ _ hnodup hp]
          dsimp only
          rw [hresolve]
          exact processed_process done p _
        · rw [acceptLen_notMem hi] at hresolve ⊢
          rw [updateEach_notMem _ _ hi]
          dsimp only
          rw [hresolve]
          exact Processed.refl _

theorem foldlM_extendReq {poolLen : Nat} {batch : List (Nat × List Nat)} {s s' : State}
    (hnodup : (batch.map Prod.fst).Nodup) (h : batch.foldlM (extendReq poolLen) s = some s')
    (hrows : Rows s.reqs s.freeSlots) : ∃ reqs freeSlots,
    s' = { s with reqs := reqs, freeSlots := freeSlots } ∧ Rows reqs freeSlots ∧
      (∀ i, i ∉ batch.map Prod.fst → reqs i = s.reqs i) ∧
      ∀ p ∈ batch, ∃ row, reqs p.1 = (s.reqs p.1).extend poolLen row p.2 := by
  induction batch generalizing s with
  | nil =>
      obtain rfl : s = s' := Option.some.inj h
      exact ⟨s.reqs, s.freeSlots, rfl, hrows, fun _ _ => rfl, nofun⟩
  | cons p batch ih =>
      rw [List.map_cons, List.nodup_cons] at hnodup
      rw [List.foldlM_cons] at h
      obtain ⟨s₁, hfirst, hrest⟩ := Option.bind_eq_some_iff.mp h
      unfold extendReq at hfirst
      split at hfirst
      · cases hfirst
      next row free hfree =>
      cases hfirst
      rw [hfree] at hrows
      have htake : Rows (update s.reqs p.1 ((s.reqs p.1).extend poolLen row p.2)) free := by
        refine hrows.take (i := p.1) ?_ fun j hj => ?_
        · rw [update_self]
          rfl
        · rw [update_of_ne hj]
      obtain ⟨reqs, free', rfl, hrows', hother, hmem⟩ := ih hnodup.2 hrest htake
      refine ⟨reqs, free', rfl, hrows', fun i hi => ?_, fun q hq => ?_⟩
      · rw [List.map_cons, List.mem_cons, not_or] at hi
        rw [hother i hi.2]
        exact update_of_ne hi.1 _ _
      · rcases List.mem_cons.mp hq with rfl | hq
        · refine ⟨row, ?_⟩
          rw [hother q.1 hnodup.1]
          exact update_self _ _ _
        · obtain ⟨row', hrow'⟩ := hmem q hq
          refine ⟨row', hrow'.trans ?_⟩
          have hne : q.1 ≠ p.1 := fun heq => hnodup.1 (heq ▸ List.mem_map_of_mem hq)
          exact congrArg (Req.extend poolLen row' q.2) (update_of_ne hne _ _)

def Req.retract (r : Req) : Req :=
  { r with
    reqPoolIdx := none
    isRetracted := true
    kvAllocatedLen := 0
    kvCommittedLen := 0
    decodeBatchIdx := 0 }

private theorem treats_releaseReq (i : Nat) : Treats (releaseReq · i) i Req.retract := by
  intro s
  refine ⟨s.freeSlots ++ (s.reqs i).reqPoolIdx.toList, ?_, fun h => h.release ?_ fun j hj => ?_⟩
  · simp [releaseReq, releaseKvCache, Req.retract]
  · rw [update_self]
    rfl
  · rw [update_of_ne hj]

theorem retract_eq (s : State) (hnodup : s.running.Nodup) (keep : Nat) : ∃ reqs freeSlots,
    s.retract keep =
        { s with reqs := reqs, freeSlots := freeSlots, running := s.unfinished.take keep } ∧
      (Rows s.reqs s.freeSlots → Rows reqs freeSlots) ∧
      (∀ i ∈ s.unfinished.take keep, reqs i = s.reqs i) ∧
      ∀ i, reqs i = s.reqs i ∨ (reqs i).reqPoolIdx = none := by
  obtain ⟨free, hfold, hrows⟩ := foldl_treats (fun i => treats_releaseReq i)
    (s.unfinished.drop keep).reverse s
  have hsplit : (s.unfinished.take keep ++ s.unfinished.drop keep).Nodup := by
    rw [List.take_append_drop]
    exact hnodup.filter _
  obtain ⟨-, hdrop, hdisj⟩ := List.nodup_append'.mp hsplit
  refine ⟨_, free, ?_, hrows, fun i hi => ?_, fun i => ?_⟩
  · unfold State.retract
    rw [hfold]
  · refine updateEach_notMem _ _ (fun hmem => ?_) _
    exact hdisj hi (by simpa using hmem)
  · by_cases hi : i ∈ (s.unfinished.drop keep).reverse
    · refine .inr ?_
      rw [updateEach_mem (fun i => i) _ (by simpa using hdrop) hi]
      rfl
    · exact .inl (updateEach_notMem _ _ (by simpa using hi) _)

end SpecDecode.Overlap
