import SpecDecode.MemCache.AllocExtend

/-!
# What extend allocation returns

Every implementation writes the slots of one request after the other, into parts of the
output that do not overlap. So the order of the programs does not matter, and the four
outputs are the same. The number of new pages is stored by the AscendC kernel only, by the
task of the last request.
-/

namespace SpecDecode.MemCache

open Buffer

namespace ExtendArgs

variable {a : ExtendArgs}

section Windows

variable {f : ExtendReq → Nat} {i i' k k' : Nat}

@[simp] theorem before_zero : a.before f 0 = 0 := rfl

theorem before_inj (hi : i < a.reqs.length) (hi' : i' < a.reqs.length) (hk : k < f (a.req i))
    (hk' : k' < f (a.req i')) (h : a.before f i + k = a.before f i' + k') : i = i' ∧ k = k' := by
  have hsucc := before_succ (f := f) hi
  have hsucc' := before_succ (f := f) hi'
  rcases Nat.lt_trichotomy i i' with hlt | rfl | hlt
  · have hmono := before_mono (a := a) (f := f) (Nat.succ_le_of_lt hlt)
    rw [Nat.succ_eq_add_one] at hmono
    omega
  · exact ⟨rfl, by omega⟩
  · have hmono := before_mono (a := a) (f := f) (Nat.succ_le_of_lt hlt)
    rw [Nat.succ_eq_add_one] at hmono
    omega

theorem exists_before {n x : Nat} (hn : n ≤ a.reqs.length) (hx : x < a.before f n) :
    ∃ i k, i < n ∧ k < f (a.req i) ∧ x = a.before f i + k := by
  induction n with
  | zero =>
      rw [before_zero] at hx
      omega
  | succ n ih =>
      by_cases hlt : x < a.before f n
      · obtain ⟨i, k, hi, hk, heq⟩ := ih (by omega) hlt
        exact ⟨i, k, by omega, hk, heq⟩
      · rw [before_succ (by omega)] at hx
        exact ⟨n, x - a.before f n, by omega, by omega, by omega⟩

end Windows

section Batch

variable {tasks : List Nat} {i j : Nat}

theorem writeFrom_other {i' : Nat} (hi : i < a.reqs.length) (hi' : i' < a.reqs.length)
    (hj : j < (a.req i).extendLen) (hne : i' ≠ i) (lastLoc : Int) (out : Nat → Int) :
    a.writeFrom lastLoc out i' (a.before (·.extendLen) i + j) =
      out (a.before (·.extendLen) i + j) := by
  refine fill_outside ?_
  by_contra hin
  have hsame : a.before (·.extendLen) i' + (a.before (·.extendLen) i + j -
      a.before (·.extendLen) i') = a.before (·.extendLen) i + j := by omega
  exact hne (before_inj hi' hi (by omega) hj hsame).1

section

variable (htasks : ∀ t ∈ tasks, t < a.reqs.length)

include htasks

private theorem foldl_writeFrom_notMem (hi : i < a.reqs.length)
    (hj : j < (a.req i).extendLen) (hmem : i ∉ tasks) (last : Nat → Int) (out : Nat → Int) :
    tasks.foldl (fun out t => a.writeFrom (last t) out t) out (a.before (·.extendLen) i + j) =
      out (a.before (·.extendLen) i + j) := by
  induction tasks generalizing out with
  | nil => rfl
  | cons t tasks ih =>
      rw [List.mem_cons, not_or] at hmem
      rw [List.foldl_cons, ih (fun t' ht' => htasks t' (List.mem_cons_of_mem _ ht')) hmem.2]
      exact writeFrom_other hi (htasks t List.mem_cons_self) hj (Ne.symm hmem.1) _ out

theorem foldl_writeFrom_mem (hmem : i ∈ tasks)
    (hj : j < (a.req i).extendLen) (last : Nat → Int) (out : Nat → Int) :
    tasks.foldl (fun out t => a.writeFrom (last t) out t) out (a.before (·.extendLen) i + j) =
      a.slotFrom (last i) i j := by
  induction tasks generalizing out with
  | nil => cases hmem
  | cons t tasks ih =>
      have htasks' : ∀ t' ∈ tasks, t' < a.reqs.length :=
        fun t' ht' => htasks t' (List.mem_cons_of_mem _ ht')
      rw [List.foldl_cons]
      by_cases hlater : i ∈ tasks
      · exact ih htasks' hlater _
      · obtain rfl : i = t := (List.mem_cons.mp hmem).resolve_right hlater
        rw [foldl_writeFrom_notMem htasks' (htasks i List.mem_cons_self) hj hlater]
        exact fill_inside hj

theorem foldl_writeReq_mem (hmem : i ∈ tasks) (hj : j < (a.req i).extendLen) (out : Nat → Int) :
    tasks.foldl a.writeReq out (a.before (·.extendLen) i + j) = a.slot i j :=
  foldl_writeFrom_mem htasks hmem hj (fun t => (a.req t).lastLoc) out

theorem foldl_writeReq_outside {x : Nat}
    (hx : a.before (·.extendLen) a.reqs.length ≤ x) (out : Nat → Int) :
    tasks.foldl a.writeReq out x = out x := by
  induction tasks generalizing out with
  | nil => rfl
  | cons t tasks ih =>
      have ht := htasks t List.mem_cons_self
      have hmono := before_mono (a := a) (f := (·.extendLen)) (Nat.succ_le_of_lt ht)
      rw [Nat.succ_eq_add_one, before_succ ht] at hmono
      rw [List.foldl_cons, ih (fun t' ht' => htasks t' (List.mem_cons_of_mem _ ht'))]
      exact fill_outside (Or.inr (by omega))

end

theorem foldl_writeReq_eq (htasks : ∀ t, t ∈ tasks ↔ t < a.reqs.length) (out : Nat → Int) :
    tasks.foldl a.writeReq out = (List.range a.reqs.length).foldl a.writeReq out := by
  have hlt : ∀ t ∈ tasks, t < a.reqs.length := fun t ht => (htasks t).mp ht
  have hrange : ∀ t ∈ List.range a.reqs.length, t < a.reqs.length := fun t => List.mem_range.mp
  funext x
  by_cases hx : x < a.before (·.extendLen) a.reqs.length
  · obtain ⟨i, j, hi, hj, rfl⟩ := exists_before (Nat.le_refl _) hx
    rw [foldl_writeReq_mem hlt ((htasks i).mpr hi) hj,
      foldl_writeReq_mem hrange (List.mem_range.mpr hi) hj]
  · rw [foldl_writeReq_outside hlt (by omega), foldl_writeReq_outside hrange (by omega)]

end Batch

/-- A batch that the allocator is called with: the last slot of a prefix is where its last
token is, and a page that is only used in part belongs to one request. -/
structure Valid (a : ExtendArgs) : Prop where
  pageSize_pos : 0 < a.pageSize
  le : ∀ i, i < a.reqs.length → (a.req i).prefixLen ≤ (a.req i).seqLen
  enough : a.getNumNewPages ≤ a.freePages.length
  free_nodup : a.freePages.Nodup
  lastLoc : ∀ i, i < a.reqs.length → 0 < (a.req i).prefixLen → ∃ page : Nat,
    (a.req i).lastLoc = (page * a.pageSize + ((a.req i).prefixLen - 1) % a.pageSize : Nat)
  tail_inj : ∀ i, i < a.reqs.length → ∀ i', i' < a.reqs.length →
    (a.req i).prefixLen % a.pageSize ≠ 0 → (a.req i').prefixLen % a.pageSize ≠ 0 →
    (a.req i).lastLoc / a.pageSize = (a.req i').lastLoc / a.pageSize → i = i'
  tail_used : ∀ i, i < a.reqs.length → (a.req i).prefixLen % a.pageSize ≠ 0 →
    ∀ page ∈ a.freePages, (a.req i).lastLoc / a.pageSize ≠ page

theorem le_nextPowerOf2 (n : Nat) : n ≤ nextPowerOf2 n := by
  rw [nextPowerOf2]
  split
  · have hlt := Nat.lt_size_self (n - 1)
    omega
  · omega

theorem mem_tasks_iff {cores : Nat} (hcores : 0 < cores) (t : Nat) :
    t ∈ (List.range (min cores a.reqs.length)).flatMap
      (a.coreTasks (min cores a.reqs.length)) ↔ t < a.reqs.length := by
  rw [List.mem_flatMap]
  constructor
  · rintro ⟨core, hcore, ht⟩
    obtain ⟨k, hk, rfl⟩ := List.mem_map.mp ht
    have hblock := List.mem_range.mp hcore
    have hlt := (lt_numPages_iff (by omega)).mp (List.mem_range.mp hk)
    omega
  · intro ht
    have hblock : 0 < min cores a.reqs.length := by omega
    have hdiv := Nat.div_add_mod t (min cores a.reqs.length)
    rw [Nat.mul_comm] at hdiv
    refine ⟨t % min cores a.reqs.length, List.mem_range.mpr (Nat.mod_lt _ hblock), ?_⟩
    refine List.mem_map.mpr ⟨t / min cores a.reqs.length, ?_, by omega⟩
    rw [List.mem_range, lt_numPages_iff hblock]
    omega

section Implementations

variable (h : a.Valid)

include h

theorem allocExtendNaive_eq (out : Nat → Int) :
    a.allocExtendNaive out = (List.range a.reqs.length).foldl a.writeReq out := by
  refine List.foldl_ext _ _ _ fun m i hi => ?_
  have hi := List.mem_range.mp hi
  exact naiveRound_eq h.pageSize_pos hi (h.le i hi) m h.enough

theorem allocExtendKernel_eq (out : Nat → Int) :
    a.allocExtendKernel out = (List.range a.reqs.length).foldl a.writeReq out := by
  refine List.foldl_ext _ _ _ fun m i hi => ?_
  have hi := List.mem_range.mp hi
  exact tritonProgram_eq h.pageSize_pos hi (h.le i hi) m (le_nextPowerOf2 _)
    (le_numPages_mul (by decide) _)

theorem npuAllocExtendKernel_eq (out : Nat → Int) :
    a.npuAllocExtendKernel out = (List.range a.reqs.length).foldl a.writeReq out := by
  refine List.foldl_ext _ _ _ fun m i hi => ?_
  have hi := List.mem_range.mp hi
  refine tritonProgram_eq h.pageSize_pos hi (h.le i hi) m (le_nextPowerOf2 _) ?_
  calc (a.req i).numPart2 a.pageSize
      ≤ (a.req i).extendLen := (a.req i).numPart2_le h.pageSize_pos
    _ ≤ a.before (·.extendLen) (i + 1) := by
        rw [before_succ hi]
        exact Nat.le_add_left _ _
    _ ≤ (a.reqs.map (·.extendLen)).sum := Nat.le_trans (before_mono hi) before_length.le
    _ ≤ nextPowerOf2 (a.reqs.map (·.extendLen)).sum := le_nextPowerOf2 _
    _ ≤ _ := le_numPages_mul (by decide) _

end Implementations

def taskBytes (a : ExtendArgs) (t : Nat) : Nat :=
  bytesAligned (a.req t).extendLen + bytesAligned (a.before (·.numNewPages a.pageSize) (t + 1))

/-- The bytes that a core has given out before its `k`-th task. -/
def bytesGiven (a : ExtendArgs) (blockNum core k : Nat) : Nat :=
  a.totalSizeAligned * 3 + ((List.range k).map fun k => a.taskBytes (core + k * blockNum)).sum

/-- A task finds the inputs in local memory, and room and buffers for the rest. -/
def TaskFits (a : ExtendArgs) (dev : AscendDevice) (maxAddr curBufSize t : Nat) : Prop :=
  a.totalSizeAligned * 17 ≤ dev.ubSize ∧ maxAddr + a.taskBytes t ≤ dev.ubSize ∧
    curBufSize + 2 ≤ dev.maxBufs

/-- Where a task finds its `last_loc`, in cells behind the first free page in local memory; `none`
if no page is copied there. -/
def overwritten (a : ExtendArgs) (maxAddr t : Nat) : Option Nat :=
  let freePages := (maxAddr + bytesAligned (a.req t).extendLen) / 8
  let place := a.totalSizeAligned * 2 + t
  if freePages ≤ place ∧
      place < freePages + bytesAligned (a.before (·.numNewPages a.pageSize) (t + 1)) / 8 then
    some (place - freePages)
  else none

def readLastLoc (a : ExtendArgs) (pad : Nat → Int) (maxAddr t : Nat) : Int :=
  match a.overwritten maxAddr t with
  | some k => if k < a.before (·.numNewPages a.pageSize) (t + 1) then a.freePage k else pad k
  | none => (a.req t).lastLoc

def storeTask (a : ExtendArgs) (lastLoc : Int) (s : (Nat → Int) × Int) (t : Nat) :
    (Nat → Int) × Int :=
  (a.writeFrom lastLoc s.1 t,
    if t = a.reqs.length - 1 ∧ (a.req t).EndsInside a.pageSize then (a.getNumNewPages : Int)
    else s.2)

/-- What a task of a launch on `blockNum` cores reads as `last_loc`. -/
def launchRead (a : ExtendArgs) (blockNum : Nat) (pad : Nat → Nat → Int) (t : Nat) : Int :=
  a.readLastLoc (pad t) (a.bytesGiven blockNum (t % blockNum) (t / blockNum)) t

/-- A task of a launch on `blockNum` cores fits, behind those that its core has done before. -/
def FitsAt (a : ExtendArgs) (dev : AscendDevice) (blockNum t : Nat) : Prop :=
  a.TaskFits dev (a.bytesGiven blockNum (t % blockNum) (t / blockNum)) (1 + 2 * (t / blockNum)) t

instance (a : ExtendArgs) (dev : AscendDevice) (blockNum t : Nat) :
    Decidable (a.FitsAt dev blockNum t) := by
  unfold FitsAt TaskFits
  infer_instance

/-- Every task of the launch fits. -/
def Fits (a : ExtendArgs) (dev : AscendDevice) : Prop :=
  ∀ t, t < a.reqs.length → a.FitsAt dev (min dev.maxAivCore a.reqs.length) t

instance (a : ExtendArgs) (dev : AscendDevice) : Decidable (a.Fits dev) := by
  unfold Fits
  infer_instance

/-- No task that goes on on an old page finds something else than its `last_loc`. -/
def KeepsLastLoc (a : ExtendArgs) (dev : AscendDevice) : Prop :=
  let blockDim := min dev.maxAivCore a.reqs.length
  ∀ t, t < a.reqs.length → 0 < (a.req t).numPart1 a.pageSize →
    ∀ k ∈ a.overwritten (a.bytesGiven blockDim (t % blockDim) (t / blockDim)) t,
      k < a.before (·.numNewPages a.pageSize) (t + 1) ∧ (a.freePage k : Int) = (a.req t).lastLoc

instance (a : ExtendArgs) (dev : AscendDevice) : Decidable (a.KeepsLastLoc dev) := by
  unfold KeepsLastLoc
  infer_instance

section Task

variable {dev : AscendDevice} {i : Nat}

theorem le_bytesAligned (n : Nat) : n * 8 ≤ bytesAligned n := le_numPages_mul (by decide) _

/-- A number that was copied in, and a cell that was not copied to. -/
theorem dataCopyPad_of_fits {dst n : Nat} (h : dst * 8 + bytesAligned n ≤ dev.ubSize)
    (pad src ub : Nat → Int) : ∃ ub', dev.dataCopyPad pad dst n src ub = some ub' ∧
      (∀ k, k < n → ub' (dst + k) = src k) ∧
      (∀ x, dst ≤ x → x < dst + bytesAligned n / 8 →
        ub' x = if x - dst < n then src (x - dst) else pad (x - dst)) ∧
      ∀ x, x < dst ∨ dst + bytesAligned n / 8 ≤ x → ub' x = ub x := by
  have hlen := le_bytesAligned n
  refine ⟨_, if_pos h, fun k hk => ?_, fun x hlo hhi => ?_, fun x hx => fill_outside hx⟩
  · rw [fill_inside (by omega), if_pos hk]
  · rw [fill_apply, if_pos ⟨hlo, hhi⟩]

theorem copyIn_of_fits (h : a.totalSizeAligned * 17 ≤ dev.ubSize) (pad ub : Nat → Int) :
    ∃ ub', a.copyIn dev pad ub = some ub' ∧ ∀ i, i < a.reqs.length →
    a.localReq ub' i = a.req i := by
  have hlen : a.reqs.length * 8 ≤ a.totalSizeAligned := le_bytesAligned _
  have hbytes : bytesAligned a.reqs.length = a.totalSizeAligned := rfl
  have hroom₁ : 0 * 8 + bytesAligned a.reqs.length ≤ dev.ubSize := by omega
  have hroom₂ : a.totalSizeAligned * 8 + bytesAligned a.reqs.length ≤ dev.ubSize := by omega
  have hroom₃ : a.totalSizeAligned * 2 * 8 + bytesAligned a.reqs.length ≤ dev.ubSize := by omega
  obtain ⟨ub₁, hcopy₁, hpre, -, -⟩ :=
    dataCopyPad_of_fits hroom₁ pad (fun i => (a.req i).prefixLen) ub
  obtain ⟨ub₂, hcopy₂, hseq, -, hkept₂⟩ :=
    dataCopyPad_of_fits hroom₂ pad (fun i => (a.req i).seqLen) ub₁
  obtain ⟨ub₃, hcopy₃, hlast, -, hkept₃⟩ :=
    dataCopyPad_of_fits hroom₃ pad (fun i => (a.req i).lastLoc) ub₂
  refine ⟨ub₃, by rw [copyIn, hcopy₁, Option.bind_some, hcopy₂, Option.bind_some, hcopy₃],
    fun i hi => ?_⟩
  have hfirst := hpre i hi
  rw [Nat.zero_add] at hfirst
  rw [localReq, hlast i hi, hkept₃ _ (by omega), hkept₃ _ (by omega), hseq i hi,
    hkept₂ _ (by omega), hfirst, Int.toNat_natCast, Int.toNat_natCast]

theorem copyIn_eq_none (h : ¬ a.totalSizeAligned * 17 ≤ dev.ubSize) (pad ub : Nat → Int) :
    a.copyIn dev pad ub = none := by
  have hbytes : bytesAligned a.reqs.length = a.totalSizeAligned := rfl
  unfold copyIn AscendDevice.dataCopyPad
  rw [hbytes]
  split
  · rw [Option.bind_some]
    split
    · rw [Option.bind_some, if_neg (by omega)]
    · rfl
  · rfl

/-- What stands at the place of `last_loc` once the free pages are copied in. -/
private theorem dataCopyPad_lastLoc {maxAddr : Nat} {pad ub ub' : Nat → Int}
    (hlast : ub (a.totalSizeAligned * 2 + i) = (a.req i).lastLoc)
    (hcopy : dev.dataCopyPad pad ((maxAddr + bytesAligned (a.req i).extendLen) / 8)
      (a.before (·.numNewPages a.pageSize) (i + 1)) (fun k => a.freePage k) ub = some ub') :
    ub' (a.totalSizeAligned * 2 + i) = a.readLastLoc pad maxAddr i := by
  obtain ⟨-, hub'⟩ := Option.ite_none_right_eq_some.mp hcopy
  obtain rfl := Option.some.inj hub'
  rw [fill_apply, readLastLoc, overwritten]
  simp only
  split
  · rfl
  · exact hlast

theorem compute_of_fits (hps : 0 < a.pageSize) (hi : i < a.reqs.length)
    (hle : (a.req i).prefixLen ≤ (a.req i).seqLen) {c : AscendCore}
    (hub : ∀ i, i < a.reqs.length → a.localReq c.ub i = a.req i)
    (hfits : a.TaskFits dev c.maxAddr c.curBufSize i) (pad : Nat → Int) (values : Int) :
    ∃ ub, a.compute dev pad i c values = some (c.maxAddr / 8,
        ⟨ub, c.maxAddr + a.taskBytes i, c.curBufSize + 2⟩,
        if i = a.reqs.length - 1 ∧ (a.req i).EndsInside a.pageSize then (a.getNumNewPages : Int)
        else values) ∧
      ∀ j, j < (a.req i).extendLen →
        ub (c.maxAddr / 8 + j) = a.slotFrom (a.readLastLoc pad c.maxAddr i) i j := by
  obtain ⟨-, hroom, hbufs⟩ := hfits
  rw [taskBytes] at hroom
  have hlen := le_bytesAligned (a.req i).extendLen
  have hbuf₁ : c.maxAddr + bytesAligned (a.req i).extendLen ≤ dev.ubSize ∧
      c.curBufSize < dev.maxBufs := ⟨by omega, by omega⟩
  have hbuf₂ : c.maxAddr + bytesAligned (a.req i).extendLen +
      bytesAligned (a.before (·.numNewPages a.pageSize) (i + 1)) ≤ dev.ubSize ∧
      c.curBufSize + 1 < dev.maxBufs := ⟨by omega, by omega⟩
  have hdma : (c.maxAddr + bytesAligned (a.req i).extendLen) / 8 * 8 +
      bytesAligned (a.before (·.numNewPages a.pageSize) (i + 1)) ≤ dev.ubSize := by omega
  obtain ⟨ub, hcopy, hfree, -, -⟩ := dataCopyPad_of_fits hdma pad (fun k => a.freePage k) c.ub
  have hlast := dataCopyPad_lastLoc (congrArg ExtendReq.lastLoc (hub i hi)) hcopy
  unfold compute AscendDevice.initBuffer
  simp only [taskSums_eq hub hi, hub i hi]
  rw [if_pos hbuf₁, Option.bind_some]
  simp only
  rw [if_pos hbuf₂, Option.bind_some]
  simp only
  rw [hcopy, Option.map_some, computeSlots_eq hps hi hle values (by omega) hfree, hlast, taskBytes,
    ← Nat.add_assoc]
  exact ⟨_, rfl, fun j hj => fill_inside hj⟩

theorem compute_eq_none {c : AscendCore} (hi : i < a.reqs.length)
    (hub : ∀ i, i < a.reqs.length → a.localReq c.ub i = a.req i)
    (hfits : ¬ (c.maxAddr + a.taskBytes i ≤ dev.ubSize ∧ c.curBufSize + 2 ≤ dev.maxBufs))
    (pad : Nat → Int) (values : Int) : a.compute dev pad i c values = none := by
  rw [taskBytes] at hfits
  unfold compute AscendDevice.initBuffer
  simp only [taskSums_eq hub hi, hub i hi]
  split
  · rw [Option.bind_some]
    simp only
    rw [if_neg (by omega)]
    rfl
  · rfl

variable {pad : Nat → Nat → Int} {s : AscendCore × (Nat → Int) × Int}

theorem ascendTask_of_fits (h : a.Valid) (hi : i < a.reqs.length)
    (hfits : a.TaskFits dev s.1.maxAddr s.1.curBufSize i) (pad : Nat → Nat → Int) :
    ∃ ub, a.ascendTask dev pad s i = some (⟨ub, s.1.maxAddr + a.taskBytes i, s.1.curBufSize + 2⟩,
      a.storeTask (a.readLastLoc (pad i) s.1.maxAddr i) s.2 i) := by
  obtain ⟨ub, hcopy, hub⟩ := copyIn_of_fits hfits.1 (pad i) s.1.ub
  obtain ⟨ub', hcompute, hslots⟩ := compute_of_fits (c := { s.1 with ub := ub }) h.pageSize_pos hi
    (h.le i hi) hub hfits (pad i) s.2.2
  have hstart : a.before (·.extendLen) (i + 1) - (a.req i).extendLen = a.before (·.extendLen) i :=
    Nat.sub_eq_of_eq_add (before_succ hi)
  refine ⟨ub', ?_⟩
  rw [ascendTask, hcopy, Option.bind_some, hcompute, Option.map_some, storeTask, writeFrom]
  simp only [taskSums_eq hub hi, hub i hi, hstart]
  rw [fill_congr hslots]

theorem ascendTask_eq_none (hi : i < a.reqs.length)
    (hfits : ¬ a.TaskFits dev s.1.maxAddr s.1.curBufSize i) : a.ascendTask dev pad s i = none := by
  rw [ascendTask]
  by_cases hinputs : a.totalSizeAligned * 17 ≤ dev.ubSize
  · obtain ⟨ub, hcopy, hub⟩ := copyIn_of_fits hinputs (pad i) s.1.ub
    rw [hcopy, Option.bind_some, compute_eq_none (c := { s.1 with ub := ub }) hi hub
      fun hc => hfits ⟨hinputs, hc⟩]
    rfl
  · rw [copyIn_eq_none hinputs]
    rfl

section Core

variable {blockNum core : Nat} (h : a.Valid)

include h

theorem foldlM_ascendTask {n : Nat} (hn : ∀ k, k < n → core + k * blockNum < a.reqs.length)
    (hfits : ∀ k, k < n →
      a.TaskFits dev (a.bytesGiven blockNum core k) (1 + 2 * k) (core + k * blockNum))
    (ub : Nat → Int) (s : (Nat → Int) × Int) :
    ∃ ub', ((List.range n).map (core + · * blockNum)).foldlM (a.ascendTask dev pad)
        (⟨ub, a.totalSizeAligned * 3, 1⟩, s) =
      some (⟨ub', a.bytesGiven blockNum core n, 1 + 2 * n⟩,
        (List.range n).foldl (fun s k => a.storeTask (a.readLastLoc (pad (core + k * blockNum))
          (a.bytesGiven blockNum core k) (core + k * blockNum)) s (core + k * blockNum)) s) := by
  induction n with
  | zero => exact ⟨ub, rfl⟩
  | succ n ih =>
      obtain ⟨ub', hrun⟩ := ih (fun k hk => hn k (Nat.lt_succ_of_lt hk))
        fun k hk => hfits k (Nat.lt_succ_of_lt hk)
      have hbytes : a.bytesGiven blockNum core n + a.taskBytes (core + n * blockNum) =
          a.bytesGiven blockNum core (n + 1) := by
        simp [bytesGiven, List.range_succ, Nat.add_assoc]
      rw [List.range_succ, List.map_append, List.foldlM_append, hrun, List.foldl_append]
      obtain ⟨ub'', htask⟩ := ascendTask_of_fits (s := (⟨ub', a.bytesGiven blockNum core n,
        1 + 2 * n⟩, _)) h (hn n (Nat.lt_succ_self n)) (hfits n (Nat.lt_succ_self n)) pad
      refine ⟨ub'', ?_⟩
      rw [Option.bind_eq_bind, Option.bind_some, List.map_singleton, List.foldlM_cons,
        htask, hbytes]
      rfl

theorem foldlM_ascendTask_eq_none {n : Nat}
    (hn : ∀ k, k < n → core + k * blockNum < a.reqs.length) (hnot : ∃ k, k < n ∧
      ¬ a.TaskFits dev (a.bytesGiven blockNum core k) (1 + 2 * k) (core + k * blockNum))
    (ub : Nat → Int) (s : (Nat → Int) × Int) :
    ((List.range n).map (core + · * blockNum)).foldlM (a.ascendTask dev pad)
      (⟨ub, a.totalSizeAligned * 3, 1⟩, s) = none := by
  induction n with
  | zero => exact absurd hnot (by simp)
  | succ n ih =>
      have hn' : ∀ k, k < n → core + k * blockNum < a.reqs.length :=
        fun k hk => hn k (Nat.lt_succ_of_lt hk)
      rw [List.range_succ, List.map_append, List.foldlM_append]
      by_cases hbefore : ∀ k, k < n →
          a.TaskFits dev (a.bytesGiven blockNum core k) (1 + 2 * k) (core + k * blockNum)
      · obtain ⟨k, hk, hfits⟩ := hnot
        obtain rfl : k = n := by
          by_contra hne
          exact hfits (hbefore k (by omega))
        obtain ⟨ub', hrun⟩ := foldlM_ascendTask h hn' hbefore ub s
        rw [hrun, Option.bind_eq_bind, Option.bind_some, List.map_singleton, List.foldlM_cons,
          ascendTask_eq_none (hn k (Nat.lt_succ_self k)) hfits]
        rfl
      · simp only [not_forall, exists_prop] at hbefore
        rw [ih hn' hbefore]
        rfl

theorem ascendProcess_eq (hcore : core < blockNum) (hle : blockNum ≤ a.reqs.length)
    (ub : Nat → Int) (s : (Nat → Int) × Int) :
    a.ascendProcess dev pad ub (a.coreTasks blockNum core) s =
      if ∀ t ∈ a.coreTasks blockNum core, a.FitsAt dev blockNum t then
        some ((a.coreTasks blockNum core).foldl
          (fun s t => a.storeTask (a.launchRead blockNum pad t) s t) s)
      else none := by
  have hpos : 0 < blockNum := Nat.zero_lt_of_lt hcore
  have hdiv : ∀ k, (core + k * blockNum) / blockNum = k := fun k => by
    rw [Nat.add_mul_div_right _ _ hpos, Nat.div_eq_of_lt hcore, Nat.zero_add]
  have hmod : ∀ k, (core + k * blockNum) % blockNum = core := fun k => by
    rw [Nat.add_mul_mod_self_right, Nat.mod_eq_of_lt hcore]
  have hn : ∀ k, k < numPages blockNum (a.reqs.length - core) →
      core + k * blockNum < a.reqs.length := fun k hk => by
    have hlt := (lt_numPages_iff hpos).mp hk
    omega
  have hfirst : 0 < numPages blockNum (a.reqs.length - core) :=
    (lt_numPages_iff hpos).mpr (by omega)
  have hiff : (∀ t ∈ a.coreTasks blockNum core, a.FitsAt dev blockNum t) ↔
      ∀ k, k < numPages blockNum (a.reqs.length - core) →
        a.TaskFits dev (a.bytesGiven blockNum core k) (1 + 2 * k) (core + k * blockNum) := by
    simp only [coreTasks, List.forall_mem_map, List.mem_range, FitsAt, hdiv, hmod]
  simp only [ascendProcess, AscendDevice.initBuffer, Nat.zero_add]
  by_cases hfits : ∀ k, k < numPages blockNum (a.reqs.length - core) →
      a.TaskFits dev (a.bytesGiven blockNum core k) (1 + 2 * k) (core + k * blockNum)
  · obtain ⟨hinputs, -, hbufs⟩ := hfits 0 hfirst
    obtain ⟨ub', hrun⟩ := foldlM_ascendTask h hn hfits ub s
    rw [if_pos (hiff.mpr hfits), if_pos ⟨by omega, by omega⟩, Option.bind_some]
    simp only [coreTasks, List.foldl_map, launchRead, hdiv, hmod]
    rw [hrun]
    rfl
  · rw [if_neg fun hc => hfits (hiff.mp hc)]
    simp only [not_forall, exists_prop] at hfits
    split
    · rw [Option.bind_some, coreTasks]
      simp only
      rw [foldlM_ascendTask_eq_none h hn hfits]
      rfl
    · rfl

end Core

/-- The launch: the tasks of all cores, if each of them fits. -/
theorem ascendAllocExtend_eq (h : a.Valid) (hcores : 0 < dev.maxAivCore) (ub : Nat → Nat → Int)
    (out : Nat → Int) (values : Int) : a.ascendAllocExtend dev pad ub out values =
      if a.Fits dev then
        some (((List.range (min dev.maxAivCore a.reqs.length)).flatMap
          (a.coreTasks (min dev.maxAivCore a.reqs.length))).foldl (fun s t =>
            a.storeTask (a.launchRead (min dev.maxAivCore a.reqs.length) pad t) s t) (out, values))
      else none := by
  have hrun : ∀ (blockNum : Nat), blockNum ≤ a.reqs.length → ∀ (cores : List Nat)
      (s : (Nat → Int) × Int), (∀ core ∈ cores, core < blockNum) →
      cores.foldlM (fun s core =>
        a.ascendProcess dev pad (ub core) (a.coreTasks blockNum core) s) s =
      if ∀ t ∈ cores.flatMap (a.coreTasks blockNum), a.FitsAt dev blockNum t then
        some ((cores.flatMap (a.coreTasks blockNum)).foldl
          (fun s t => a.storeTask (a.launchRead blockNum pad t) s t) s)
      else none := by
    intro blockNum hle cores
    induction cores with
    | nil => exact fun s _ => (if_pos nofun).symm
    | cons core cores ih =>
        intro s hlt
        rw [List.foldlM_cons, ascendProcess_eq h (hlt core List.mem_cons_self) hle]
        simp only [List.flatMap_cons, List.forall_mem_append, List.foldl_append]
        by_cases hfits : ∀ t ∈ a.coreTasks blockNum core, a.FitsAt dev blockNum t
        · rw [if_pos hfits, Option.bind_eq_bind, Option.bind_some,
            ih _ fun core' hcore' => hlt core' (List.mem_cons_of_mem _ hcore')]
          exact if_congr (and_iff_right hfits).symm rfl rfl
        · rw [if_neg hfits, if_neg fun hc => hfits hc.1]
          rfl
  unfold ascendAllocExtend
  simp only
  rw [hrun _ (Nat.min_le_right _ _) _ _ fun core => List.mem_range.mp]
  exact if_congr (forall_congr' fun t => by rw [mem_tasks_iff hcores]) rfl rfl

theorem foldl_storeTask_fst (tasks : List Nat) (last : Nat → Int) (s : (Nat → Int) × Int) :
    (tasks.foldl (fun s t => a.storeTask (last t) s t) s).1 =
      tasks.foldl (fun out t => a.writeFrom (last t) out t) s.1 := by
  induction tasks generalizing s with
  | nil => rfl
  | cons t tasks ih => exact ih _

theorem foldl_storeTask_snd (tasks : List Nat) (last : Nat → Int) (s : (Nat → Int) × Int) :
    (tasks.foldl (fun s t => a.storeTask (last t) s t) s).2 =
      if a.reqs.length - 1 ∈ tasks ∧ (a.req (a.reqs.length - 1)).EndsInside a.pageSize then
        (a.getNumNewPages : Int)
      else s.2 := by
  induction tasks generalizing s with
  | nil => rfl
  | cons t tasks ih =>
      rw [List.foldl_cons, ih, storeTask]
      simp only
      by_cases hlater : a.reqs.length - 1 ∈ tasks ∧
          (a.req (a.reqs.length - 1)).EndsInside a.pageSize
      · rw [if_pos hlater, if_pos ⟨List.mem_cons_of_mem _ hlater.1, hlater.2⟩]
      · rw [if_neg hlater]
        by_cases hnow : t = a.reqs.length - 1 ∧ (a.req t).EndsInside a.pageSize
        · rw [if_pos hnow, if_pos ⟨hnow.1 ▸ List.mem_cons_self, hnow.1 ▸ hnow.2⟩]
        · rw [if_neg hnow, if_neg]
          rintro ⟨hmem, hends⟩
          rcases List.mem_cons.mp hmem with heq | htail
          · exact hnow ⟨heq.symm, heq ▸ hends⟩
          · exact hlater ⟨htail, hends⟩

theorem readLastLoc_eq {pad : Nat → Int} {maxAddr : Nat} (h : ∀ k ∈ a.overwritten maxAddr i,
    k < a.before (·.numNewPages a.pageSize) (i + 1) ∧ (a.freePage k : Int) = (a.req i).lastLoc) :
    a.readLastLoc pad maxAddr i = (a.req i).lastLoc := by
  rw [readLastLoc]
  split
  · next k hk =>
      obtain ⟨hlt, heq⟩ := h k hk
      rw [if_pos hlt, heq]
  · rfl

theorem overwritten_of_readLastLoc {maxAddr : Nat}
    (h : a.readLastLoc (fun _ => (a.req i).lastLoc + 1) maxAddr i = (a.req i).lastLoc) :
    ∀ k ∈ a.overwritten maxAddr i, k < a.before (·.numNewPages a.pageSize) (i + 1) ∧
      (a.freePage k : Int) = (a.req i).lastLoc := by
  intro k hk
  rw [readLastLoc, Option.mem_def.mp hk] at h
  simp only at h
  split at h
  · next hlt => exact ⟨hlt, h⟩
  · omega

/-- A request without part 1 does not use its `last_loc`. -/
theorem writeFrom_eq {last : Int} (hlast : 0 < (a.req i).numPart1 a.pageSize →
    last = (a.req i).lastLoc) (out : Nat → Int) : a.writeFrom last out i = a.writeReq out i := by
  refine fill_congr fun j hj => ?_
  have hnum1 : (a.req i).numPart1 a.pageSize =
    min (a.req i).seqLen (numPages a.pageSize (a.req i).prefixLen * a.pageSize) -
      (a.req i).prefixLen := rfl
  rw [ExtendReq.extendLen] at hj
  unfold slotFrom
  simp only
  split
  · rw [hlast (by omega)]
  · rfl

theorem ascendAllocExtend_of_fits (h : a.Valid) (hcores : 0 < dev.maxAivCore) (hfits : a.Fits dev)
    (pad ub : Nat → Nat → Int) (out : Nat → Int) (values : Int) :
    ∃ tasks : List Nat, (∀ t, t ∈ tasks ↔ t < a.reqs.length) ∧
    a.ascendAllocExtend dev pad ub out values =
      some (tasks.foldl (fun out t =>
          a.writeFrom (a.launchRead (min dev.maxAivCore a.reqs.length) pad t) out t) out,
        if a.reqs ≠ [] ∧ (a.req (a.reqs.length - 1)).EndsInside a.pageSize then
          (a.getNumNewPages : Int) else values) := by
  have hlast : a.reqs.length - 1 < a.reqs.length ↔ a.reqs ≠ [] := by
    rw [← List.length_pos_iff]
    omega
  refine ⟨_, mem_tasks_iff hcores, ?_⟩
  rw [ascendAllocExtend_eq h hcores, if_pos hfits]
  refine congrArg some (Prod.ext (foldl_storeTask_fst _ _ _) ?_)
  rw [foldl_storeTask_snd]
  simp only [mem_tasks_iff hcores, hlast]

end Task

theorem old_token {ps n t : Nat} (hps : 0 < ps) (hle : n ≤ t) (hlt : t < numPages ps n * ps) :
    n % ps ≠ 0 ∧ t / ps = n / ps ∧ t % ps = (n - 1) % ps + 1 + (t - n) := by
  have hdiv := Nat.div_add_mod n ps
  have hmod := Nat.mod_lt n hps
  rw [Nat.mul_comm] at hdiv
  rw [numPages_eq hps] at hlt
  have hmore : n / ps * ps ≠ n := fun hfull => by
    rw [if_pos hfull] at hlt
    omega
  rw [if_neg hmore, Nat.add_mul, Nat.one_mul] at hlt
  obtain ⟨hquot, hrest⟩ := mul_add_div_mod hps (n / ps) (t - n / ps * ps)
  obtain ⟨-, hrest'⟩ := mul_add_div_mod hps (n / ps) (n - 1 - n / ps * ps)
  rw [Nat.add_sub_cancel' (by omega)] at hquot hrest hrest'
  have hzero : (t - n / ps * ps) / ps = 0 := Nat.div_eq_of_lt (by omega)
  have hself : (t - n / ps * ps) % ps = t - n / ps * ps := Nat.mod_eq_of_lt (by omega)
  have hself' : (n - 1 - n / ps * ps) % ps = n - 1 - n / ps * ps := Nat.mod_eq_of_lt (by omega)
  exact ⟨by omega, by omega, by omega⟩

/-- The page of the `j`-th new token of request `i`. -/
def page (a : ExtendArgs) (i j : Nat) : Int :=
  let r := a.req i
  if r.prefixLen + j < numPages a.pageSize r.prefixLen * a.pageSize then r.lastLoc / a.pageSize
  else a.freePage (a.before (·.numNewPages a.pageSize) i +
    ((r.prefixLen + j) / a.pageSize - numPages a.pageSize r.prefixLen))

theorem page_congr (h : a.Valid) {i j j' : Nat}
    (heq : ((a.req i).prefixLen + j) / a.pageSize = ((a.req i).prefixLen + j') / a.pageSize) :
    a.page i j = a.page i j' := by
  have hold : ∀ t, t < numPages a.pageSize (a.req i).prefixLen * a.pageSize ↔
      t / a.pageSize < numPages a.pageSize (a.req i).prefixLen :=
    fun t => (Nat.div_lt_iff_lt_mul h.pageSize_pos).symm
  simp only [page, hold, heq]

section Slots

variable (h : a.Valid) {i j : Nat} (hi : i < a.reqs.length) (hj : j < (a.req i).extendLen)

include h hi

theorem slot_eq_page (j : Nat) : a.slot i j = a.page i j * a.pageSize +
    (((a.req i).prefixLen + j) % a.pageSize : Nat) := by
  unfold slot slotFrom page
  by_cases hold : (a.req i).prefixLen + j < numPages a.pageSize (a.req i).prefixLen * a.pageSize
  · obtain ⟨hmod, -, hoff⟩ := old_token h.pageSize_pos (Nat.le_add_right _ _) hold
    obtain ⟨q, hq⟩ := h.lastLoc i hi (Nat.pos_of_ne_zero fun h0 => hmod (by rw [h0, Nat.zero_mod]))
    have hpage : (a.req i).lastLoc / a.pageSize = q := by
      rw [hq]
      norm_cast
      rw [(mul_add_div_mod h.pageSize_pos _ _).1, Nat.div_eq_of_lt (Nat.mod_lt _ h.pageSize_pos),
        Nat.add_zero]
    simp only [if_pos hold]
    rw [hpage, hoff, hq]
    push_cast
    omega
  · simp only [if_neg hold]
    push_cast
    rfl

theorem slot_div_mod (j : Nat) : a.slot i j / a.pageSize = a.page i j ∧
    a.slot i j % a.pageSize = (((a.req i).prefixLen + j) % a.pageSize : Nat) := by
  have hps : (0 : Int) < a.pageSize := Int.natCast_pos.mpr h.pageSize_pos
  have hlt : ((((a.req i).prefixLen + j) % a.pageSize : Nat) : Int) < a.pageSize :=
    Int.ofNat_lt.mpr (Nat.mod_lt _ h.pageSize_pos)
  rw [slot_eq_page h hi, Int.add_comm]
  constructor
  · rw [Int.add_mul_ediv_right _ _ hps.ne', Int.ediv_eq_zero_of_lt (Int.natCast_nonneg _) hlt,
      Int.zero_add]
  · rw [Int.add_mul_emod_self_right, Int.emod_eq_of_lt (Int.natCast_nonneg _) hlt]

include hj

omit hi in
theorem newPage_lt
    (hnew : ¬ (a.req i).prefixLen + j < numPages a.pageSize (a.req i).prefixLen * a.pageSize) :
    ((a.req i).prefixLen + j) / a.pageSize - numPages a.pageSize (a.req i).prefixLen <
      (a.req i).numNewPages a.pageSize := by
  rw [ExtendReq.extendLen] at hj
  have hlt : ((a.req i).prefixLen + j) / a.pageSize < numPages a.pageSize (a.req i).seqLen :=
    div_lt_numPages h.pageSize_pos (by omega)
  have hle : numPages a.pageSize (a.req i).prefixLen ≤ ((a.req i).prefixLen + j) / a.pageSize :=
    (Nat.le_div_iff_mul_le h.pageSize_pos).mpr (by omega)
  rw [ExtendReq.numNewPages]
  omega

theorem newPage_index
    (hnew : ¬ (a.req i).prefixLen + j < numPages a.pageSize (a.req i).prefixLen * a.pageSize) :
    a.before (·.numNewPages a.pageSize) i +
      (((a.req i).prefixLen + j) / a.pageSize - numPages a.pageSize (a.req i).prefixLen) <
        a.getNumNewPages := by
  have hlt := newPage_lt h hj hnew
  have hle : a.before (·.numNewPages a.pageSize) (i + 1) ≤ a.getNumNewPages :=
    Nat.le_trans (before_mono hi) before_length.le
  rw [before_succ hi] at hle
  omega

/-- The page of a token is its own request's last page or a free page. -/
theorem page_cases :
    ((a.req i).prefixLen % a.pageSize ≠ 0 ∧ a.page i j = (a.req i).lastLoc / a.pageSize ∧
      ((a.req i).prefixLen + j) / a.pageSize = (a.req i).prefixLen / a.pageSize) ∨
    ∃ k, k < (a.req i).numNewPages a.pageSize ∧
      a.before (·.numNewPages a.pageSize) i + k < a.getNumNewPages ∧
      a.page i j = a.freePage (a.before (·.numNewPages a.pageSize) i + k) ∧
      ((a.req i).prefixLen + j) / a.pageSize = numPages a.pageSize (a.req i).prefixLen + k := by
  by_cases hold : (a.req i).prefixLen + j < numPages a.pageSize (a.req i).prefixLen * a.pageSize
  · obtain ⟨hmod, hquot, -⟩ := old_token h.pageSize_pos (Nat.le_add_right _ _) hold
    exact Or.inl ⟨hmod, if_pos hold, hquot⟩
  · have hle : numPages a.pageSize (a.req i).prefixLen ≤ ((a.req i).prefixLen + j) / a.pageSize :=
      (Nat.le_div_iff_mul_le h.pageSize_pos).mpr (by omega)
    exact Or.inr ⟨_, newPage_lt h hj hold, newPage_index h hi hj hold, if_neg hold, by omega⟩

omit hi hj in
theorem freePage_mem {k : Nat} (hk : k < a.getNumNewPages) : a.freePage k ∈ a.freePages := by
  have hk' := Nat.lt_of_lt_of_le hk h.enough
  rw [freePage, List.getD_eq_getElem _ _ hk']
  exact List.getElem_mem hk'

omit hi hj in
private theorem freePage_inj {k k' : Nat} (hk : k < a.getNumNewPages) (hk' : k' < a.getNumNewPages)
    (heq : a.freePage k = a.freePage k') : k = k' := by
  have hlt := Nat.lt_of_lt_of_le hk h.enough
  have hlt' := Nat.lt_of_lt_of_le hk' h.enough
  rw [freePage, freePage, List.getD_eq_getElem _ _ hlt, List.getD_eq_getElem _ _ hlt'] at heq
  exact (h.free_nodup.getElem_inj_iff).mp heq

theorem page_inj {i' j' : Nat} (hi' : i' < a.reqs.length) (hj' : j' < (a.req i').extendLen)
    (heq : a.page i j = a.page i' j') : i = i' ∧
      ((a.req i).prefixLen + j) / a.pageSize = ((a.req i').prefixLen + j') / a.pageSize := by
  rcases page_cases h hi hj with ⟨hmod, hpage, hquot⟩ | ⟨k, hk, hidx, hpage, hquot⟩
  · rcases page_cases h hi' hj' with ⟨hmod', hpage', hquot'⟩ | ⟨k', hk', hidx', hpage', hquot'⟩
    · obtain rfl := h.tail_inj i hi i' hi' hmod hmod' (by rw [← hpage, heq, hpage'])
      exact ⟨rfl, by rw [hquot, hquot']⟩
    · exact absurd (by rw [← hpage, heq, hpage']) (h.tail_used i hi hmod _ (freePage_mem h hidx'))
  · rcases page_cases h hi' hj' with ⟨hmod', hpage', hquot'⟩ | ⟨k', hk', hidx', hpage', hquot'⟩
    · exact absurd (by rw [← hpage', ← heq, hpage])
        (h.tail_used i' hi' hmod' _ (freePage_mem h hidx))
    · rw [hpage, hpage', Int.ofNat_inj] at heq
      obtain ⟨rfl, rfl⟩ := before_inj hi hi' hk hk' (freePage_inj h hidx hidx' heq)
      exact ⟨rfl, by rw [hquot, hquot']⟩

theorem slot_inj {i' j' : Nat} (hi' : i' < a.reqs.length) (hj' : j' < (a.req i').extendLen)
    (heq : a.slot i j = a.slot i' j') : i = i' ∧ j = j' := by
  have hpage : a.page i j = a.page i' j' := by
    rw [← (slot_div_mod h hi j).1, ← (slot_div_mod h hi' j').1, heq]
  have hoff : ((a.req i).prefixLen + j) % a.pageSize = ((a.req i').prefixLen + j') %
      a.pageSize := by
    rw [← Int.ofNat_inj, ← (slot_div_mod h hi j).2, ← (slot_div_mod h hi' j').2, heq]
  obtain ⟨rfl, hquot⟩ := page_inj h hi hj hi' hj' hpage
  have hdiv := Nat.div_add_mod ((a.req i).prefixLen + j) a.pageSize
  have hdiv' := Nat.div_add_mod ((a.req i).prefixLen + j') a.pageSize
  rw [hquot, hoff] at hdiv
  exact ⟨rfl, by omega⟩

end Slots

/-- The new tokens are on the first free pages, and on all of them. -/
theorem mem_take_iff (h : a.Valid) (p : Nat) : p ∈ a.freePages.take a.getNumNewPages ↔
    ∃ i j, i < a.reqs.length ∧ j < (a.req i).extendLen ∧
      numPages a.pageSize (a.req i).prefixLen * a.pageSize ≤ (a.req i).prefixLen + j ∧
      a.page i j = p := by
  have hps := h.pageSize_pos
  constructor
  · intro hp
    obtain ⟨x, hx, rfl⟩ := List.getElem_of_mem hp
    rw [List.length_take, Nat.min_eq_left h.enough] at hx
    have hx' := Nat.lt_of_lt_of_le hx h.enough
    obtain ⟨i, k, hi, hk, rfl⟩ := exists_before (a := a) (f := (·.numNewPages a.pageSize))
      (Nat.le_refl _) (by rwa [before_length])
    -- the first token of the page
    rw [ExtendReq.numNewPages] at hk
    have hstart : (numPages a.pageSize (a.req i).prefixLen + k) * a.pageSize < (a.req i).seqLen :=
      (lt_numPages_iff hps).mp (by omega)
    have hmul := Nat.add_mul (numPages a.pageSize (a.req i).prefixLen) k a.pageSize
    have hceil := le_numPages_mul hps (a.req i).prefixLen
    have htoken : (a.req i).prefixLen +
      ((numPages a.pageSize (a.req i).prefixLen + k) * a.pageSize -
        (a.req i).prefixLen) = (numPages a.pageSize (a.req i).prefixLen + k) * a.pageSize := by
      omega
    refine ⟨i, (numPages a.pageSize (a.req i).prefixLen + k) * a.pageSize - (a.req i).prefixLen, hi,
      by rw [ExtendReq.extendLen]; omega, by omega, ?_⟩
    rw [page, htoken, if_neg (by omega), Nat.mul_div_cancel _ hps, Nat.add_sub_cancel_left,
      freePage, List.getElem_take, List.getD_eq_getElem _ _ hx']
  · rintro ⟨i, j, hi, hj, hnew, hpage⟩
    have hidx := newPage_index h hi hj (Nat.not_lt.mpr hnew)
    have hlt := Nat.lt_of_lt_of_le hidx h.enough
    rw [page, if_neg (Nat.not_lt.mpr hnew), Int.ofNat_inj, freePage,
      List.getD_eq_getElem _ _ hlt] at hpage
    rw [← hpage, List.mem_take_iff_getElem]
    exact ⟨_, Nat.lt_min.mpr ⟨hidx, hlt⟩, rfl⟩

/-- What is expected of the implementations on a batch. -/
structure Meets (a : ExtendArgs) (dev : AscendDevice) : Prop where
  triton : ∀ out, a.allocExtendKernel out = a.allocExtendNaive out
  npu : ∀ out, a.npuAllocExtendKernel out = a.allocExtendNaive out
  ascend : ∀ pad ub out values,
    (a.ascendAllocExtend dev pad ub out values).map Prod.fst = some (a.allocExtendNaive out)
  /-- The rest of the last page, then new pages in their order. -/
  slots : ∀ out i j, i < a.reqs.length → j < (a.req i).extendLen →
    a.allocExtendNaive out (a.before (·.extendLen) i + j) = a.slot i j
  offset : ∀ out i j, i < a.reqs.length → j < (a.req i).extendLen →
    a.allocExtendNaive out (a.before (·.extendLen) i + j) % a.pageSize =
      (((a.req i).prefixLen + j) % a.pageSize : Nat)
  distinct : ∀ out x y, x < (a.reqs.map (·.extendLen)).sum → y < (a.reqs.map (·.extendLen)).sum →
    a.allocExtendNaive out x = a.allocExtendNaive out y → x = y
  /-- The pages behind the prefixes' last pages. -/
  pages : ∀ out (p : Nat), p ∈ a.freePages.take a.getNumNewPages ↔
    ∃ i j, i < a.reqs.length ∧ j < (a.req i).extendLen ∧
      numPages a.pageSize (a.req i).prefixLen * a.pageSize ≤ (a.req i).prefixLen + j ∧
      a.allocExtendNaive out (a.before (·.extendLen) i + j) / a.pageSize = p
  reported : ∀ pad ub out values,
    (a.ascendAllocExtend dev pad ub out values).map Prod.snd = some (a.getNumNewPages : Int)

theorem allocExtendNaive_apply (h : a.Valid) (out : Nat → Int) {i j : Nat} (hi : i < a.reqs.length)
    (hj : j < (a.req i).extendLen) :
    a.allocExtendNaive out (a.before (·.extendLen) i + j) = a.slot i j := by
  rw [allocExtendNaive_eq h]
  exact foldl_writeReq_mem (fun t => List.mem_range.mp) (List.mem_range.mpr hi) hj out

theorem allocExtendNaive_inj (h : a.Valid) (out : Nat → Int) {x y : Nat}
    (hx : x < (a.reqs.map (·.extendLen)).sum) (hy : y < (a.reqs.map (·.extendLen)).sum)
    (heq : a.allocExtendNaive out x = a.allocExtendNaive out y) : x = y := by
  rw [← before_length] at hx hy
  obtain ⟨i, j, hi, hj, rfl⟩ := exists_before (Nat.le_refl _) hx
  obtain ⟨i', j', hi', hj', rfl⟩ := exists_before (Nat.le_refl _) hy
  rw [allocExtendNaive_apply h out hi hj, allocExtendNaive_apply h out hi' hj'] at heq
  obtain ⟨rfl, rfl⟩ := slot_inj h hi hj hi' hj' heq
  rfl

theorem allocExtend_pages (h : a.Valid) (out : Nat → Int) (p : Nat) :
    p ∈ a.freePages.take a.getNumNewPages ↔
      ∃ i j, i < a.reqs.length ∧ j < (a.req i).extendLen ∧
        numPages a.pageSize (a.req i).prefixLen * a.pageSize ≤ (a.req i).prefixLen + j ∧
        a.allocExtendNaive out (a.before (·.extendLen) i + j) / a.pageSize = p := by
  rw [mem_take_iff h]
  refine exists_congr fun i => exists_congr fun j => and_congr_right fun hi =>
    and_congr_right fun hj => and_congr_right fun _ => ?_
  rw [allocExtendNaive_apply h out hi hj, (slot_div_mod h hi j).1]

section Ascend

variable (h : a.Valid) {dev : AscendDevice} (hcores : 0 < dev.maxAivCore)

include h hcores

/-- The AscendC kernel returns the slots exactly if its tasks fit and find their `last_loc`. -/
theorem ascend_iff : (∀ pad ub out values,
      (a.ascendAllocExtend dev pad ub out values).map Prod.fst = some (a.allocExtendNaive out)) ↔
    a.Fits dev ∧ a.KeepsLastLoc dev := by
  constructor
  · intro hascend
    have hfits : a.Fits dev := by
      by_contra hnot
      have hnone := hascend (fun _ _ => 0) (fun _ _ => 0) (fun _ => 0) 0
      rw [ascendAllocExtend_eq h hcores, if_neg hnot] at hnone
      cases hnone
    refine ⟨hfits, fun t ht hpart1 => overwritten_of_readLastLoc ?_⟩
    obtain ⟨tasks, htasks, hrun⟩ := ascendAllocExtend_of_fits h hcores hfits
      (fun _ _ => (a.req t).lastLoc + 1) (fun _ _ => 0) (fun _ => 0) 0
    have hout := hascend (fun _ _ => (a.req t).lastLoc + 1) (fun _ _ => 0) (fun _ => 0) 0
    have hlen : 0 < (a.req t).extendLen := by
      have hnum1 : (a.req t).numPart1 a.pageSize =
        min (a.req t).seqLen (numPages a.pageSize (a.req t).prefixLen * a.pageSize) -
          (a.req t).prefixLen := rfl
      rw [ExtendReq.extendLen]
      omega
    rw [hrun] at hout
    -- the first slot of the request
    have hslot := congrFun (Option.some.inj hout) (a.before (·.extendLen) t + 0)
    simp only at hslot
    rw [foldl_writeFrom_mem (fun t => (htasks t).mp) ((htasks t).mpr ht) hlen,
      allocExtendNaive_apply h _ ht hlen, slot_part1 hpart1, slot, slot_part1 hpart1,
      launchRead] at hslot
    omega
  · rintro ⟨hfits, hkeeps⟩ pad ub out values
    obtain ⟨tasks, htasks, hrun⟩ := ascendAllocExtend_of_fits h hcores hfits pad ub out values
    rw [hrun, Option.map_some, allocExtendNaive_eq h, ← foldl_writeReq_eq htasks]
    refine congrArg some (List.foldl_ext _ _ _ fun m t ht => writeFrom_eq (fun hpart1 => ?_) m)
    exact readLastLoc_eq (hkeeps t ((htasks t).mp ht) hpart1)

/-- Where its tasks fit, it reports the number of new pages exactly if the last request has a
part 3. -/
theorem reported_iff (hfits : a.Fits dev) : (∀ pad ub out values,
      (a.ascendAllocExtend dev pad ub out values).map Prod.snd = some (a.getNumNewPages : Int)) ↔
    a.reqs ≠ [] ∧ (a.req (a.reqs.length - 1)).EndsInside a.pageSize := by
  constructor
  · intro hreport
    by_contra hnot
    have hsum := hreport (fun _ _ => 0) (fun _ _ => 0) (fun _ => 0) (a.getNumNewPages + 1)
    obtain ⟨tasks, -, hrun⟩ := ascendAllocExtend_of_fits h hcores hfits (fun _ _ => 0)
      (fun _ _ => 0) (fun _ => 0) (a.getNumNewPages + 1)
    rw [hrun, Option.map_some, if_neg hnot] at hsum
    have hval := Option.some.inj hsum
    omega
  · intro hends pad ub out values
    obtain ⟨tasks, -, hrun⟩ := ascendAllocExtend_of_fits h hcores hfits pad ub out values
    rw [hrun, Option.map_some, if_pos hends]

end Ascend

/-- A request in the middle of a page and a new one, of which the second ends inside of a
page. -/
def insideBatch : ExtendArgs := ⟨4, [⟨5, 9, 12⟩, ⟨0, 6, -1⟩], [8, 2, 5, 7]⟩

theorem insideBatch_valid : insideBatch.Valid where
  pageSize_pos := by decide
  le := by decide
  enough := by decide
  free_nodup := by decide
  lastLoc := by
    intro i hi hpos
    match i, hi with
    | 0, _ => exact ⟨3, by decide⟩
    | 1, _ => exact absurd hpos (by decide)
  tail_inj := by decide
  tail_used := by decide

/-- Forty cores with 192 KiB. -/
def fortyCores : AscendDevice := ⟨40, 196608, 64⟩

/-- The twelve pages of one request are copied over its `last_loc`, which is 12. -/
def longBatch : ExtendArgs := ⟨4, [⟨1, 49, 12⟩], List.range' 20 14⟩

example : (longBatch.ascendAllocExtend fortyCores (fun _ _ => 0) (fun _ _ => 0) (fun _ => 0) 0).map
    (fun s => (List.range 4).map s.1) = some [25, 26, 27, 80] := by decide +kernel

/-- The last request ends with a whole page. -/
def borderBatch : ExtendArgs := ⟨4, [⟨0, 4, -1⟩], [8, 2]⟩

private theorem borderBatch_valid : borderBatch.Valid where
  pageSize_pos := by decide
  le := by decide
  enough := by decide
  free_nodup := by decide
  lastLoc := by
    intro i hi hpos
    match i, hi with
    | 0, _ => exact absurd hpos (by decide)
  tail_inj := by decide
  tail_used := by decide

end ExtendArgs

end SpecDecode.MemCache
