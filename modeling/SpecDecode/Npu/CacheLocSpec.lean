import SpecDecode.Npu.CacheLoc
import SpecDecode.MemCache.AllocExtendSpec

/-!
# The AscendC cache location kernels against the Triton kernels

The rows of the cores are the rows of the batch, each once (`coreRows_cover`), and the Triton
kernels store the jobs of all rows one after another (`assignReqToTokenPoolFunc_eq`). The rules
for workers that write windows back then say when the cores leave the same pool.
-/

namespace SpecDecode.Npu

open Buffer MemCache WriteBack

namespace CacheLocArgs

variable {a : CacheLocArgs}

/-- The requests have rows of their own, and their slots are inside of them. -/
structure Valid (a : CacheLocArgs) : Prop where
  ordered : ∀ i, i < a.batchSize → a.startOffset i ≤ a.endOffset i
  inside : ∀ i, i < a.batchSize → a.endOffset i ≤ a.poolLen
  distinct : ∀ i k, i < a.batchSize → k < a.batchSize →
    a.reqPoolIndices i = a.reqPoolIndices k → i = k

theorem outOffset_eq {bsUpper pid : Nat} (h : pid ≤ bsUpper) :
    a.outOffset bsUpper pid = offset a.step pid := sum_lanes a.step h

theorem getCacheIdx_eq {rowIdx last : Nat} (h : last ≤ rowIdx) :
    a.getCacheIdx rowIdx last (offset a.step last) = offset a.step rowIdx := by
  obtain ⟨d, rfl⟩ := Nat.exists_eq_add_of_le h
  rw [getCacheIdx, Nat.add_sub_cancel_left, offset, offset, List.range_add, List.map_append,
    List.sum_append, List.range'_eq_map_range]

theorem offset_le {bound : Nat} (n : Nat) (h : ∀ i, i < n → a.step i ≤ bound) :
    offset a.step n ≤ n * bound := by
  induction n with
  | zero => exact Nat.zero_le _
  | succ n ih =>
      have hlast := h n (Nat.lt_succ_self n)
      have hrest := ih fun i hi => h i (Nat.lt_succ_of_lt hi)
      rw [offset_succ, Nat.succ_mul]
      omega

theorem le_alinInt32Count (n : Nat) : n ≤ alinInt32Count n := by
  rw [alinInt32Count]
  omega

variable (a) in
def assignJob (outCacheLoc : Nat → Int) (i : Nat) : Job Int :=
  ⟨a.poolOffset i, a.step i, fun j => outCacheLoc (offset a.step i + j)⟩

variable (a) in
def updateJob (tokenPool : Nat → Int) (i : Nat) : Job Int :=
  ⟨offset a.step i, a.step i, fun j => tokenPool (a.poolOffset i + j)⟩

theorem blockedStore_all (m : Nat → Int) (base len : Nat) (f : Nat → Int) :
    blockedStore m base ((len + 31) / 32) 32 len f = fill m base len f := by
  rw [blockedStore_eq, Nat.min_eq_right (by omega)]

theorem assignReqToTokenPoolFunc_eq (outCacheLoc reqToToken : Nat → Int) :
    a.assignReqToTokenPoolFunc outCacheLoc reqToToken =
      storeAll ((List.range a.batchSize).map (a.assignJob outCacheLoc)) reqToToken := by
  rw [assignReqToTokenPoolFunc, storeAll, List.foldl_map]
  refine List.foldl_ext _ _ _ fun m i hi => ?_
  have hle : i ≤ nextPowerOf2 a.batchSize :=
    Nat.le_trans (List.mem_range.mp hi).le (ExtendArgs.le_nextPowerOf2 _)
  simp only [assignReqToTokenPool, outOffset_eq hle, blockedStore_all]
  rfl

theorem assignExtendCacheLocsFunc_eq (reqToToken outCacheLoc : Nat → Int) :
    a.assignExtendCacheLocsFunc reqToToken outCacheLoc =
      storeAll ((List.range a.batchSize).map (a.updateJob reqToToken)) outCacheLoc := by
  rw [assignExtendCacheLocsFunc, storeAll, List.foldl_map]
  refine List.foldl_ext _ _ _ fun m i hi => ?_
  have hle : i ≤ nextPowerOf2 a.batchSize :=
    Nat.le_trans (List.mem_range.mp hi).le (ExtendArgs.le_nextPowerOf2 _)
  simp only [assignExtendCacheLocs, outOffset_eq hle, blockedStore_all]
  rfl

theorem Valid.disjoint (h : a.Valid) (outCacheLoc : Nat → Int) {i k : Nat} (hi : i < a.batchSize)
    (hk : k < a.batchSize) (hne : i ≠ k) :
    WriteBack.Disjoint (a.assignJob outCacheLoc i) (a.assignJob outCacheLoc k) := by
  rintro x ⟨hlo, hhi⟩ ⟨hlo', hhi'⟩
  have hreq : a.reqPoolIndices i ≠ a.reqPoolIndices k := fun heq => hne (h.distinct i k hi hk heq)
  simp only [assignJob, poolOffset, step] at hlo hhi hlo' hhi'
  have hstart := h.ordered i hi
  have hend := h.inside i hi
  have hstart' := h.ordered k hk
  have hend' := h.inside k hk
  obtain ⟨t, rfl⟩ := Nat.exists_eq_add_of_le
    (show a.reqPoolIndices k * a.poolLen ≤ x by omega)
  have hout := window_outside (n := a.poolLen) (i := t) (by omega) hreq
  omega

section Rows

variable {t : TilingData} {cores : Nat}

theorem rowOffset_succ (t : TilingData) (core : Nat) :
    t.rowOffset (core + 1) = t.rowOffset core + t.rowNum core := by
  rw [TilingData.rowOffset, TilingData.rowOffset, TilingData.rowNum, Nat.mul_succ]
  by_cases hlt : core < t.tailNum
  · rw [if_pos hlt, if_pos hlt]
    split <;> omega
  · rw [if_neg hlt, if_neg hlt, if_neg (by omega)]
    omega

theorem rowOffset_mono (t : TilingData) {core core' : Nat} (h : core ≤ core') :
    t.rowOffset core ≤ t.rowOffset core' := by
  induction h with
  | refl => exact Nat.le_refl _
  | step _ ih => exact Nat.le_trans ih (rowOffset_succ t _ ▸ Nat.le_add_right _ _)

theorem mem_coreRows {core i : Nat} :
    i ∈ t.coreRows core ↔ t.rowOffset core ≤ i ∧ i < t.rowOffset (core + 1) := by
  rw [TilingData.coreRows, List.mem_range'_1, rowOffset_succ]

theorem coreRows_disjoint {core core' i : Nat} (hne : core ≠ core') (h : i ∈ t.coreRows core) :
    i ∉ t.coreRows core' := by
  intro h'
  rw [mem_coreRows] at h h'
  rcases Nat.lt_or_gt_of_ne hne with hlt | hgt
  · have : t.rowOffset (core + 1) ≤ t.rowOffset core' := rowOffset_mono t hlt
    omega
  · have : t.rowOffset (core' + 1) ≤ t.rowOffset core := rowOffset_mono t hgt
    omega

end Rows

section Launch

variable {cores ubSize : Nat} {t : TilingData}

theorem rowOffset_last (hcores : 0 < cores) : (a.tiling cores).rowOffset cores = a.batchSize := by
  have hmod := Nat.mod_lt a.batchSize hcores
  rw [TilingData.rowOffset, tiling]
  dsimp only
  rw [if_neg (by omega), Nat.mul_comm]
  exact Nat.div_add_mod _ _

theorem lt_batchSize (hcores : 0 < cores) {core i : Nat} (hcore : core < cores)
    (hi : i ∈ (a.tiling cores).coreRows core) : i < a.batchSize := by
  have hlast := rowOffset_last (a := a) hcores
  have hmono := rowOffset_mono (a.tiling cores) (show core + 1 ≤ cores from hcore)
  have hrow := (mem_coreRows.mp hi).2
  omega

theorem exists_core (hcores : 0 < cores) {i : Nat} (hi : i < a.batchSize) :
    ∃ core, core < cores ∧ i ∈ (a.tiling cores).coreRows core := by
  have hfind : ∀ n, i < (a.tiling cores).rowOffset n →
      ∃ core, core < n ∧ i ∈ (a.tiling cores).coreRows core := by
    intro n
    induction n with
    | zero =>
        intro h0
        rw [TilingData.rowOffset, Nat.mul_zero, Nat.zero_add] at h0
        split at h0 <;> omega
    | succ n ih =>
        intro hlt
        rcases Nat.lt_or_ge i ((a.tiling cores).rowOffset n) with hlow | hhigh
        · obtain ⟨core, hcore, hmem⟩ := ih hlow
          exact ⟨core, Nat.lt_succ_of_lt hcore, hmem⟩
        · exact ⟨n, Nat.lt_succ_self n, mem_coreRows.mpr ⟨hhigh, hlt⟩⟩
  exact hfind _ (by rwa [rowOffset_last hcores])

theorem coreJobs_eq_some {outCacheLoc : Nat → Int} {first n last : Nat} {js : List (Job Int)}
    (hlast : last ≤ first)
    (h : a.coreJobs t outCacheLoc (List.range' first n) last (offset a.step last) = some js) :
    js = (List.range' first n).map (a.assignJob outCacheLoc) := by
  induction n generalizing first last js with
  | zero => exact (Option.some.inj h).symm
  | succ n ih =>
      rw [List.range'_succ, coreJobs, getCacheIdx_eq hlast] at h
      split at h
      · obtain ⟨js', hjs', rfl⟩ := Option.map_eq_some_iff.mp h
        rw [ih (Nat.le_succ first) hjs', List.range'_succ, List.map_cons]
        rfl
      · cases h

/-- The rows whose loops stay inside of the local tensors. -/
theorem coreJobs_isSome {outCacheLoc : Nat → Int} {first n last : Nat} (hlast : last ≤ first)
    (hrows : ∀ i, first ≤ i → i < first + n → a.InBounds t i (offset a.step i)) :
    (a.coreJobs t outCacheLoc (List.range' first n) last (offset a.step last)).isSome := by
  induction n generalizing first last with
  | zero => rfl
  | succ n ih =>
      rw [List.range'_succ, coreJobs, getCacheIdx_eq hlast,
        if_pos (hrows first (Nat.le_refl _) (by omega)), Option.isSome_map]
      exact ih (Nat.le_succ first) fun i hlo hhi => hrows i (by omega) (by omega)

/-- With at most `MAX_STEP` slots for every request all loops are inside. -/
theorem inBounds (hstep : ∀ i, i < a.batchSize → a.step i ≤ maxStep) {i : Nat}
    (hi : i < a.batchSize) : a.InBounds (a.tiling cores) i (offset a.step i) := by
  have hmul : (i + 1) * maxStep ≤ a.batchSize * maxStep := Nat.mul_le_mul_right maxStep hi
  have hsum := offset_le (i + 1) fun k hk => hstep k (by omega)
  have halign := le_alinInt32Count (a.batchSize * maxStep)
  rw [offset_succ] at hsum
  refine ⟨Nat.le_trans (hstep i hi) (le_alinInt32Count maxStep), .inr ?_⟩
  rw [tiling]
  dsimp only
  omega

variable (a cores) in
def launchJobs (outCacheLoc : Nat → Int) (core : Nat) : List (Job Int) :=
  if core < cores then ((a.tiling cores).coreRows core).map (a.assignJob outCacheLoc) else []

theorem mem_launchJobs {outCacheLoc : Nat → Int} {core : Nat} {j : Job Int} :
    j ∈ a.launchJobs cores outCacheLoc core ↔
      core < cores ∧ ∃ i ∈ (a.tiling cores).coreRows core, a.assignJob outCacheLoc i = j := by
  rw [launchJobs]
  split
  · next h => simp [h]
  · next h => simp [h]

/-- A launch that stays inside of the local tensors runs the jobs of the rows. -/
theorem cacheLocAssign_eq_some {outCacheLoc tokenPool : Nat → Int} {schedule : List Nat}
    {s : State Int} (h : a.cacheLocAssign cores ubSize outCacheLoc schedule tokenPool = some s) :
    s = run maxStep schedule (start (a.launchJobs cores outCacheLoc) tokenPool) := by
  rw [cacheLocAssign, Option.bind_eq_some_iff] at h
  obtain ⟨t, ht, h⟩ := h
  rw [getTiling] at ht
  split at ht
  · cases ht
  · obtain rfl := Option.some.inj ht
    dsimp only at h
    split at h
    · next hall =>
        rw [← Option.some.inj h]
        congr 2
        funext core
        rw [launchJobs]
        by_cases hcore : core < cores
        · obtain ⟨js, hjs⟩ := Option.isSome_iff_exists.mp (hall core hcore)
          rw [if_pos hcore, if_pos (show core < (a.tiling cores).vcoreNum from hcore), hjs,
            Option.getD_some]
          exact coreJobs_eq_some (Nat.zero_le _) hjs
        · rw [if_neg hcore, if_neg (show ¬ core < (a.tiling cores).vcoreNum from hcore)]
    · cases h

theorem cacheLocAssign_runs (hcores : 0 < cores) (hub : a.ubBufferSizeToUse ≤ ubSize)
    (hstep : ∀ i, i < a.batchSize → a.step i ≤ maxStep) (outCacheLoc tokenPool : Nat → Int)
    (schedule : List Nat) :
    ∃ s, a.cacheLocAssign cores ubSize outCacheLoc schedule tokenPool = some s := by
  rw [cacheLocAssign, getTiling, if_neg (Nat.not_lt.mpr hub), Option.bind_some]
  dsimp only
  rw [if_pos]
  · exact ⟨_, rfl⟩
  · intro core hcore
    refine coreJobs_isSome (Nat.zero_le _) fun i hlo hhi => inBounds hstep ?_
    exact lt_batchSize hcores hcore (List.mem_range'_1.mpr ⟨hlo, hhi⟩)

end Launch

section Update

variable {t : TilingData}

private theorem updateRows_eq {tokenPool : Nat → Int} {first n last : Nat} (hlast : last ≤ first)
    (hrows : ∀ i, first ≤ i → i < first + n → a.InBounds t i (offset a.step i))
    (ubCacheLoc : Nat → Int) :
    a.updateRows t tokenPool (List.range' first n) last (offset a.step last) ubCacheLoc =
      some (storeAll ((List.range' first n).map (a.updateJob tokenPool)) ubCacheLoc) := by
  induction n generalizing first last ubCacheLoc with
  | zero => rfl
  | succ n ih =>
      rw [List.range'_succ, updateRows, getCacheIdx_eq hlast,
        if_pos (hrows first (Nat.le_refl _) (by omega)),
        ih (Nat.le_succ first) fun i hlo hhi => hrows i (by omega) (by omega)]
      rfl

/-- With at most `MAX_STEP` slots for every request the slots are read as Triton reads them. -/
theorem cacheLocUpdate_eq {ubSize : Nat} (hub : a.ubBufferSizeToUse ≤ ubSize)
    (hstep : ∀ i, i < a.batchSize → a.step i ≤ maxStep) (tokenPool outCacheLoc : Nat → Int) :
    a.cacheLocUpdate ubSize tokenPool outCacheLoc =
      some (a.assignExtendCacheLocsFunc tokenPool outCacheLoc) := by
  have hnum : (a.tiling 1).rowNum 0 = a.batchSize := by
    rw [TilingData.rowNum, tiling]
    dsimp only
    rw [Nat.mod_one, if_neg (Nat.lt_irrefl 0), Nat.div_one]
  have hoffset : (a.tiling 1).rowOffset 0 = 0 := by
    rw [TilingData.rowOffset, tiling]
    dsimp only
    rw [Nat.mod_one, if_neg (Nat.lt_irrefl 0), Nat.mul_zero]
  rw [cacheLocUpdate, getTiling, if_neg (Nat.not_lt.mpr hub), Option.bind_some, hnum,
    TilingData.coreRows, hnum, hoffset, assignExtendCacheLocsFunc_eq]
  split
  · next h0 =>
      rw [h0]
      rfl
  · have hread : a.updateRows (a.tiling 1) tokenPool (List.range' 0 a.batchSize) 0 0 outCacheLoc =
        some (storeAll ((List.range' 0 a.batchSize).map (a.updateJob tokenPool)) outCacheLoc) :=
      updateRows_eq (Nat.le_refl 0)
        (fun i _ hi => inBounds hstep ((Nat.zero_add a.batchSize).subst hi)) outCacheLoc
    rw [hread, Option.map_some, ← List.range_eq_range']
    congr 1
    funext x
    rw [fill_apply, Nat.sub_zero]
    split
    · rfl
    · next hx =>
        refine (storeAll_outside (fun j hj hcovers => ?_) outCacheLoc).symm
        obtain ⟨i, hi, rfl⟩ := List.mem_map.mp hj
        have hlt : i < a.batchSize := List.mem_range.mp hi
        have hsum : offset a.step (i + 1) ≤ (i + 1) * maxStep :=
          offset_le (i + 1) fun k hk => hstep k (by omega)
        have hmul : (i + 1) * maxStep ≤ a.batchSize * maxStep :=
          Nat.mul_le_mul_right maxStep hlt
        have hhi : x < offset a.step i + a.step i := hcovers.2
        have hsize : ¬ x < a.batchSize * maxStep := fun hlt => hx ⟨Nat.zero_le x, by
          rw [Nat.zero_add]
          exact hlt⟩
        rw [offset_succ] at hsum
        omega

end Update

section Devices

variable {cores ubSize : Nat}

variable (a) in
/-- The entries that request `i` writes back behind its own reach into those of request `k`. -/
def Overruns (i k : Nat) : Prop :=
  ∃ x, a.poolOffset i + a.step i ≤ x ∧ x < a.poolOffset i + maxStep ∧
    a.poolOffset k ≤ x ∧ x < a.poolOffset k + a.step k

theorem compatible (h : a.Valid) (hcores : 0 < cores)
    (hstep : ∀ i, i < a.batchSize → a.step i ≤ maxStep)
    (hrace : ∀ core core', core < cores → core' < cores → core ≠ core' →
      ∀ i ∈ (a.tiling cores).coreRows core, ∀ k ∈ (a.tiling cores).coreRows core',
        ¬ a.Overruns i k) (outCacheLoc : Nat → Int) :
    Compatible maxStep (a.launchJobs cores outCacheLoc) where
  fits core j hj := by
    obtain ⟨hcore, i, hi, rfl⟩ := mem_launchJobs.mp hj
    exact hstep i (lt_batchSize hcores hcore hi)
  disjoint core := by
    rw [launchJobs]
    split
    · next hcore =>
        rw [List.pairwise_map]
        refine List.Pairwise.imp_of_mem (fun {i k} hi hk hne => ?_)
          (List.nodup_range' 1)
        exact h.disjoint outCacheLoc (lt_batchSize hcores hcore hi)
          (lt_batchSize hcores hcore hk) hne
    · exact List.Pairwise.nil
  apart core core' hne j hj j' hj' := by
    obtain ⟨hcore, i, hi, rfl⟩ := mem_launchJobs.mp hj
    obtain ⟨hcore', k, hk, rfl⟩ := mem_launchJobs.mp hj'
    exact h.disjoint outCacheLoc (lt_batchSize hcores hcore hi) (lt_batchSize hcores hcore' hk)
      fun heq => coreRows_disjoint hne hi (heq ▸ hk)
  behind core core' hne j hj j' hj' x htail hcovers := by
    obtain ⟨hcore, i, hi, rfl⟩ := mem_launchJobs.mp hj
    obtain ⟨hcore', k, hk, rfl⟩ := mem_launchJobs.mp hj'
    exact hrace core core' hcore hcore' hne i hi k hk
      ⟨x, htail.1, htail.2, hcovers.1, hcovers.2⟩

theorem Valid.pairwise (h : a.Valid) (outCacheLoc : Nat → Int) :
    ((List.range a.batchSize).map (a.assignJob outCacheLoc)).Pairwise WriteBack.Disjoint := by
  rw [List.pairwise_map]
  refine List.nodup_range.imp_of_mem fun hi hk hne => ?_
  exact h.disjoint outCacheLoc (List.mem_range.mp hi) (List.mem_range.mp hk) hne

/-- Triton stores the slots of a request in its entries of the pool. -/
theorem assignReqToTokenPoolFunc_covers (h : a.Valid) {outCacheLoc : Nat → Int} {i x : Nat}
    (hi : i < a.batchSize) (hx : (a.assignJob outCacheLoc i).Covers x) (tokenPool : Nat → Int) :
    a.assignReqToTokenPoolFunc outCacheLoc tokenPool x =
      outCacheLoc (offset a.step i + (x - a.poolOffset i)) := by
  rw [assignReqToTokenPoolFunc_eq]
  exact storeAll_covers (h.pairwise outCacheLoc)
    (List.mem_map.mpr ⟨i, List.mem_range.mpr hi, rfl⟩) hx tokenPool

/-- No matter how the cores interleave, the pool ends up as Triton leaves it. -/
theorem cacheLocAssign_done (h : a.Valid) (hcores : 0 < cores)
    (hstep : ∀ i, i < a.batchSize → a.step i ≤ maxStep)
    (hrace : ∀ core core', core < cores → core' < cores → core ≠ core' →
      ∀ i ∈ (a.tiling cores).coreRows core, ∀ k ∈ (a.tiling cores).coreRows core',
        ¬ a.Overruns i k) {outCacheLoc tokenPool : Nat → Int} {schedule : List Nat}
    (hdone : Done (run maxStep schedule (start (a.launchJobs cores outCacheLoc) tokenPool))) :
    (run maxStep schedule (start (a.launchJobs cores outCacheLoc) tokenPool)).mem =
      a.assignReqToTokenPoolFunc outCacheLoc tokenPool := by
  obtain ⟨hstored, hkept⟩ := run_done (compatible h hcores hstep hrace outCacheLoc) schedule hdone
  funext x
  by_cases hx : ∃ i, i < a.batchSize ∧ (a.assignJob outCacheLoc i).Covers x
  · obtain ⟨i, hi, hcovers⟩ := hx
    obtain ⟨core, hcore, hmem⟩ := exists_core hcores hi
    rw [assignReqToTokenPoolFunc_covers h hi hcovers]
    exact hstored core _ (mem_launchJobs.mpr ⟨hcore, i, hmem, rfl⟩) x hcovers
  · rw [assignReqToTokenPoolFunc_eq, storeAll_outside]
    · refine hkept x fun core j hj hcovers => ?_
      obtain ⟨hcore, i, hi, rfl⟩ := mem_launchJobs.mp hj
      exact hx ⟨i, lt_batchSize hcores hcore hi, hcovers⟩
    · intro j hj hcovers
      obtain ⟨i, hi, rfl⟩ := List.mem_map.mp hj
      exact hx ⟨i, List.mem_range.mp hi, hcovers⟩

theorem launchJobs_idle (outCacheLoc : Nat → Int) {core : Nat} (hcore : cores ≤ core) :
    a.launchJobs cores outCacheLoc core = [] := if_neg (by omega)

/-- A request of more than `MAX_STEP` slots keeps the old entry behind them. -/
theorem exists_cut (h : a.Valid) (hcores : 0 < cores) {i : Nat} (hi : i < a.batchSize)
    (hlong : maxStep < a.step i) (outCacheLoc tokenPool : Nat → Int) :
    ∃ schedule, Done (run maxStep schedule (start (a.launchJobs cores outCacheLoc) tokenPool)) ∧
      (run maxStep schedule (start (a.launchJobs cores outCacheLoc) tokenPool)).mem
        (a.poolOffset i + maxStep) = tokenPool (a.poolOffset i + maxStep) := by
  obtain ⟨schedule, hdone⟩ := exists_done maxStep cores
    (s := start (a.launchJobs cores outCacheLoc) tokenPool) (fun _ => rfl)
    fun core hcore => launchJobs_idle outCacheLoc hcore
  refine ⟨schedule, hdone, run_cut (fun core j hj hreach => ?_) schedule⟩
  obtain ⟨hcore, k, hk, rfl⟩ := mem_launchJobs.mp hj
  by_cases hik : i = k
  · subst hik
    have hlt : a.poolOffset i + maxStep < a.poolOffset i + min (a.step i) maxStep := hreach.2
    omega
  · refine h.disjoint outCacheLoc hi (lt_batchSize hcores hcore hk) hik _
      ⟨Nat.le_add_right _ _, Nat.add_lt_add_left hlong _⟩ hreach.covers

private theorem exists_overrun (h : a.Valid) (hcores : 0 < cores) {core core' : Nat}
    (hcore : core < cores)
    (hcore' : core' < cores) (hne : core ≠ core') {i k x : Nat}
    (hi : i ∈ (a.tiling cores).coreRows core) (hk : k ∈ (a.tiling cores).coreRows core')
    (outCacheLoc tokenPool : Nat → Int) (htail : (a.assignJob outCacheLoc i).Tail maxStep x)
    (hcovers : (a.assignJob outCacheLoc k).Covers x) :
    ∃ schedule, Done (run maxStep schedule (start (a.launchJobs cores outCacheLoc) tokenPool)) ∧
      (run maxStep schedule (start (a.launchJobs cores outCacheLoc) tokenPool)).mem x =
        tokenPool x := by
  refine exists_lost_store (fun _ hidle => launchJobs_idle outCacheLoc hidle) hne
    (mem_launchJobs.mpr ⟨hcore, i, hi, rfl⟩) htail fun c hc j hj hcovers' => ?_
  obtain ⟨hlt, r, hr, rfl⟩ := mem_launchJobs.mp hj
  exact h.disjoint outCacheLoc (lt_batchSize hcores hlt hr) (lt_batchSize hcores hcore' hk)
    (fun heq => coreRows_disjoint hc hr (heq ▸ hk)) x hcovers' hcovers

/-- The NPU operations agree with the Triton kernels, on all tables and in all orders of the
cores, exactly if no request has more than `MAX_STEP` slots and no core writes back over the
entries that another core assigns. -/
theorem cacheLoc_agree_iff (a : CacheLocArgs) {cores ubSize : Nat} (hcores : 1 ≤ cores)
    (hub : a.ubBufferSizeToUse ≤ ubSize) (h : a.Valid) :
    ((∀ outCacheLoc tokenPool schedule, ∃ s,
        a.cacheLocAssign cores ubSize outCacheLoc schedule tokenPool = some s ∧
          (Done s → s.mem = a.assignReqToTokenPoolFunc outCacheLoc tokenPool)) ∧
      ∀ tokenPool outCacheLoc, a.cacheLocUpdate ubSize tokenPool outCacheLoc =
        some (a.assignExtendCacheLocsFunc tokenPool outCacheLoc)) ↔
      (∀ i, i < a.batchSize → a.step i ≤ maxStep) ∧
        ∀ core core', core < cores → core' < cores → core ≠ core' →
          ∀ i ∈ (a.tiling cores).coreRows core, ∀ k ∈ (a.tiling cores).coreRows core',
            ¬ a.Overruns i k := by
  constructor
  · rintro ⟨hassign, -⟩
    -- On a pool of zeros all slots are one, so a lost slot shows.
    have hone : ∀ schedule x i,
        Done (run maxStep schedule (start (a.launchJobs cores fun _ => 1) fun _ => 0)) →
        i < a.batchSize → (a.assignJob (fun _ => 1) i).Covers x →
        (run maxStep schedule (start (a.launchJobs cores fun _ => 1) fun _ => 0)).mem x = 1 := by
      intro schedule x i hdone hi hcovers
      obtain ⟨s, hrun, hs⟩ := hassign (fun _ => 1) (fun _ => 0) schedule
      obtain rfl := cacheLocAssign_eq_some hrun
      rw [hs hdone, assignReqToTokenPoolFunc_covers h hi hcovers]
    constructor
    · intro i hi
      by_contra hlong
      rw [Nat.not_le] at hlong
      obtain ⟨schedule, hdone, hcell⟩ := exists_cut h hcores hi hlong (fun _ => 1) fun _ => 0
      have hnew := hone schedule (a.poolOffset i + maxStep) i hdone hi
        ⟨Nat.le_add_right _ _, Nat.add_lt_add_left hlong _⟩
      exact absurd (hnew.symm.trans hcell) one_ne_zero
    · rintro core core' hcore hcore' hne i hi k hk ⟨x, hlo, hhi, hlo', hhi'⟩
      obtain ⟨schedule, hdone, hcell⟩ := exists_overrun h hcores hcore hcore' hne hi hk
        (fun _ => 1) (fun _ => 0) ⟨hlo, hhi⟩ ⟨hlo', hhi'⟩
      rw [hone schedule x k hdone (lt_batchSize hcores hcore' hk) ⟨hlo', hhi'⟩] at hcell
      exact absurd hcell one_ne_zero
  · rintro ⟨hstep, hrace⟩
    refine ⟨fun outCacheLoc tokenPool schedule => ?_, fun tokenPool outCacheLoc =>
      cacheLocUpdate_eq hub hstep tokenPool outCacheLoc⟩
    obtain ⟨s, hrun⟩ := cacheLocAssign_runs hcores hub hstep outCacheLoc tokenPool schedule
    refine ⟨s, hrun, fun hdone => ?_⟩
    obtain rfl := cacheLocAssign_eq_some hrun
    exact cacheLocAssign_done h hcores hstep hrace hdone

/-- Two requests with three and five slots. -/
def threeFive : CacheLocArgs where
  reqPoolIndices := fun i => i
  startOffset := fun _ => 4
  endOffset := fun i => if i = 0 then 7 else 9
  batchSize := 2
  poolLen := 16

theorem cacheLoc_agree_threeFive :
    (∀ outCacheLoc tokenPool schedule, ∃ s,
      threeFive.cacheLocAssign 2 192000 outCacheLoc schedule tokenPool = some s ∧
        (Done s → s.mem = threeFive.assignReqToTokenPoolFunc outCacheLoc tokenPool)) ∧
    ∀ tokenPool outCacheLoc, threeFive.cacheLocUpdate 192000 tokenPool outCacheLoc =
      some (threeFive.assignExtendCacheLocsFunc tokenPool outCacheLoc) := by
  refine (cacheLoc_agree_iff threeFive (by decide) (by decide)
    ⟨by decide, by decide, fun i k _ _ heq => heq⟩).mpr ⟨by decide, ?_⟩
  rintro core core' - - hne i hi k hk ⟨x, hlo, hhi, hlo', hhi'⟩
  have hik : i ≠ k := fun heq => coreRows_disjoint hne hi (heq ▸ hk)
  simp only [poolOffset, step, threeFive, maxStep] at hlo hhi hlo' hhi'
  split at hlo <;> split at hhi' <;> omega

/-- A request with six slots. -/
def six : CacheLocArgs where
  reqPoolIndices := fun i => i
  startOffset := fun _ => 4
  endOffset := fun _ => 10
  batchSize := 1
  poolLen := 16

/-- Its last slot does not reach the pool. -/
theorem cacheLoc_disagree_six :
    ∃ s, six.cacheLocAssign 1 192000 (fun j => 10 + j) [0, 0] (fun _ => 0) = some s ∧ Done s ∧
      s.mem 9 = 0 ∧ six.assignReqToTokenPoolFunc (fun j => 10 + j) (fun _ => 0) 9 = 15 := by
  refine ⟨_, rfl, fun w => ?_, rfl, rfl⟩
  match w with
  | 0 => rfl
  | w + 1 => rfl

end Devices

end CacheLocArgs

end SpecDecode.Npu
