import SpecDecode.Eagle.FreeRejectedSpec
import SpecDecode.Eagle.VerifyCompact

/-!
# The compaction is exact

Every kernel is a launch of programs that store their runs one after the other, so its result
does not depend on the order of the programs: the runs are found at the sums of the lengths
before them, and no other cell is touched. Only `fill_new_verified_id` may read another token: it
steps over `num_draft_tokens` entries for a request, and a row has one for each step and the bonus.
-/

namespace SpecDecode.Eagle

open Function Buffer MemCache

theorem maskedSum_eq {lanes pid : Nat} (h : pid ≤ lanes) (f : Nat → Nat) :
    maskedSum lanes pid f = offset f pid := sum_lanes f h

def acceptedSlots (acceptIndex outCacheLoc : Nat → Int) (size : Nat) : List Int :=
  (((List.range size).map acceptIndex).filter (· ≠ -1)).map fun src => outCacheLoc src.toNat

/-- How many cells program `pid` stores. -/
def acceptedLen (acceptIndex : Nat → Int) (pid : Nat) : Nat := if acceptIndex pid ≠ -1 then 1 else 0

theorem acceptedSlots_eq_runs (acceptIndex outCacheLoc : Nat → Int) (size : Nat) :
    acceptedSlots acceptIndex outCacheLoc size =
      (List.range size).flatMap fun pid => (List.range (acceptedLen acceptIndex pid)).map
        fun _ => outCacheLoc (acceptIndex pid).toNat := by
  unfold acceptedSlots
  induction size with
  | zero => rfl
  | succ n ih =>
      rw [List.range_succ, List.flatMap_append, ← ih]
      by_cases hsrc : acceptIndex n = -1 <;> simp [acceptedLen, hsrc]

section Accepted

variable {acceptIndex : Nat → Int} (outCacheLoc : Nat → Int) {size : Nat}
  (hpad : ∀ x, x < size → -1 ≤ acceptIndex x)

include hpad

theorem fillAcceptedOutCacheLoc_eq {pid : Nat} (hpid : pid < size) (m : Nat → Int) :
    fillAcceptedOutCacheLoc acceptIndex outCacheLoc (nextPowerOf2 size) m pid =
      fill m (offset (acceptedLen acceptIndex) pid) (acceptedLen acceptIndex pid) fun _ =>
        outCacheLoc (acceptIndex pid).toNat := by
  have hdst : ((List.range (nextPowerOf2 size)).map fun lane =>
      if (if lane < pid then acceptIndex lane else -1) ≠ -1 then 1 else 0).sum =
        offset (acceptedLen acceptIndex) pid := by
    rw [← sum_lanes _ (Nat.le_trans (Nat.le_of_lt hpid) (ExtendArgs.le_nextPowerOf2 size))]
    refine congrArg List.sum (List.map_congr_left fun lane _ => ?_)
    unfold acceptedLen
    by_cases hlane : lane < pid
    · rw [if_pos hlane, if_pos hlane]
    · rw [if_neg hlane, if_neg hlane, if_neg (by simp)]
  have hge := hpad pid hpid
  simp only [fillAcceptedOutCacheLoc]
  rw [hdst]
  unfold acceptedLen
  by_cases hsrc : acceptIndex pid = -1
  · rw [if_neg (by omega), if_neg (by simpa using hsrc), fill_zero]
  · rw [if_pos (by omega), if_pos hsrc, fill_succ, fill_zero, Nat.add_zero]

theorem acceptedOutCacheLoc_front {order : List Nat} (horder : order.Perm (List.range size))
    (m : Nat → Int) : WritesFront m (acceptedOutCacheLoc acceptIndex outCacheLoc size order m)
      (acceptedSlots acceptIndex outCacheLoc size) := by
  have hlaunch : acceptedOutCacheLoc acceptIndex outCacheLoc size order m =
      order.foldl (fun m pid => fill m (offset (acceptedLen acceptIndex) pid)
        (acceptedLen acceptIndex pid) fun _ => outCacheLoc (acceptIndex pid).toNat) m := by
    refine List.foldl_ext _ _ _ fun m pid hmem => ?_
    exact fillAcceptedOutCacheLoc_eq outCacheLoc hpad
      (List.mem_range.mp (horder.mem_iff.mp hmem)) m
  rw [hlaunch, acceptedSlots_eq_runs]
  exact writesFront_windows horder _ m

end Accepted

namespace AcceptedBatch

variable (b : AcceptedBatch)

theorem acceptLens_pos {i : Nat} (hi : i < b.bs) : 0 < b.acceptLens i :=
  List.length_pos_of_ne_nil (b.accepted_ne_nil i hi)

theorem numAcceptedDrafts_succ {i : Nat} (hi : i < b.bs) :
    b.numAcceptedDrafts i + 1 = b.acceptLens i :=
  Nat.sub_add_cancel (b.acceptLens_pos hi)

theorem length_acceptRow {i : Nat} (hi : i < b.bs) :
    (b.acceptRow i).length = b.speculativeNumSteps + 1 := by
  have hle := b.accepted_le_steps i hi
  simp only [acceptRow, acceptLens, List.length_append, List.length_map, List.length_replicate]
  omega

theorem acceptIndex_row {i k : Nat} (hk : k < b.speculativeNumSteps + 1) :
    b.acceptIndex (i * (b.speculativeNumSteps + 1) + k) = (b.acceptRow i).getD k (-1) :=
  ofRows_apply _ _ hk

theorem map_acceptIndex : (List.range (b.bs * (b.speculativeNumSteps + 1))).map b.acceptIndex =
    (List.range b.bs).flatMap b.acceptRow := by
  rw [← map_range_mul]
  refine List.flatMap_congr fun i hi => ?_
  have hlength := b.length_acceptRow (List.mem_range.mp hi)
  refine List.ext_getElem (by simp [hlength]) fun k hk hk' => ?_
  rw [List.getElem_map, List.getElem_range, b.acceptIndex_row (by omega),
    List.getD_eq_getElem _ _ hk']

private theorem filter_acceptRow (i : Nat) :
    (b.acceptRow i).filter (· ≠ -1) = (b.accepted i).map Int.ofNat := by
  unfold acceptRow
  rw [List.filter_append, List.filter_eq_self.mpr, List.filter_eq_nil_iff.mpr, List.append_nil]
  · intro idx hidx
    simp [List.eq_of_mem_replicate hidx]
  · intro idx hidx
    obtain ⟨a, -, rfl⟩ := List.mem_map.mp hidx
    simp only [Int.ofNat_eq_natCast, decide_eq_true_eq]
    omega

theorem filter_acceptIndex :
    ((List.range (b.bs * (b.speculativeNumSteps + 1))).map b.acceptIndex).filter (· ≠ -1) =
      (List.range b.bs).flatMap fun i => (b.accepted i).map Int.ofNat := by
  rw [map_acceptIndex, List.filter_flatMap]
  exact List.flatMap_congr fun i _ => b.filter_acceptRow i

theorem acceptedSlots_eq (outCacheLoc : Nat → Int) :
    acceptedSlots b.acceptIndex outCacheLoc (b.bs * (b.speculativeNumSteps + 1)) =
      (List.range b.bs).flatMap fun i => (b.accepted i).map outCacheLoc := by
  unfold acceptedSlots
  rw [filter_acceptIndex, List.map_flatMap]
  refine List.flatMap_congr fun i _ => ?_
  rw [List.map_map]
  rfl

def lastAccepted (i : Nat) : Nat := (b.accepted i).getLastD 0

theorem getElem?_last {i : Nat} (hi : i < b.bs) :
    (b.accepted i)[b.acceptLens i - 1]? = some (b.lastAccepted i) := by
  rw [lastAccepted, List.getLastD_eq_getLast?, acceptLens, ← List.getLast?_eq_getElem?,
    List.getLast?_eq_getLast_of_ne_nil (b.accepted_ne_nil i hi), Option.getD_some]

private theorem verifiedId_eq (predict : List Int) : b.verifiedId predict =
    (List.range b.bs).flatMap fun i => (b.accepted i).map fun a : Nat => gather predict a := by
  unfold verifiedId
  rw [filter_acceptIndex, List.map_flatMap]
  refine List.flatMap_congr fun i _ => ?_
  rw [List.map_map]
  rfl

theorem verifiedId_last (predict : List Int) {i : Nat} (hi : i < b.bs) :
    (b.verifiedId predict).getD (offset b.acceptLens i + (b.acceptLens i - 1)) 0 =
      gather predict (b.lastAccepted i) := by
  have hlens : b.acceptLens = fun i =>
      ((b.accepted i).map fun a : Nat => gather predict a).length := by
    funext i
    rw [List.length_map, acceptLens]
  have hlast := getElem?_runs (fun i => (b.accepted i).map fun a : Nat => gather predict a) hi
    (k := b.acceptLens i - 1)
    (by rw [List.length_map]; exact Nat.sub_lt (b.acceptLens_pos hi) Nat.one_pos)
  rw [← hlens, List.getElem?_map, b.getElem?_last hi, Option.map_some] at hlast
  rw [verifiedId_eq, List.getD_eq_getElem?_getD, hlast, Option.getD_some]

/-- A program whose row begins where it takes it to begin reads the token it needs. -/
theorem allVerifiedId_last (predict : List Int) (beyond : Nat → Int) {i : Nat} (hi : i < b.bs)
    (hcell : b.draftTokenNum * i = (b.speculativeNumSteps + 1) * i) :
    b.allVerifiedId predict beyond (b.draftTokenNum * i + b.acceptLens i - 1) =
      gather predict (b.lastAccepted i) := by
  have hpos := b.acceptLens_pos hi
  have hle : b.acceptLens i ≤ b.speculativeNumSteps + 1 := b.accepted_le_steps i hi
  have hrow := Nat.mul_le_mul_right (b.speculativeNumSteps + 1) (Nat.succ_le_of_lt hi)
  rw [Nat.succ_mul] at hrow
  have hcell' : b.draftTokenNum * i + b.acceptLens i - 1 =
      i * (b.speculativeNumSteps + 1) + (b.acceptLens i - 1) := by
    rw [hcell, Nat.mul_comm]
    omega
  have hlast : (b.acceptRow i)[b.acceptLens i - 1]? = some (b.lastAccepted i : Int) := by
    rw [acceptRow, List.getElem?_append_left (by rw [List.length_map, ← acceptLens]; omega),
      List.getElem?_map, b.getElem?_last hi]
    rfl
  rw [allVerifiedId, hcell', if_pos (by omega), b.acceptIndex_row (by omega),
    List.getD_eq_getElem?_getD, hlast, Option.getD_some]

/-- What the draft model reads: the positions of every request's accepted tokens at its own
offset, and its last token in its own cell. -/
structure Extended (predict : List Int) (s s' : (Nat → Int) × (Nat → Int)) : Prop where
  positions : ∀ i, i < b.bs → ∀ k, k < b.acceptLens i →
    s'.1 (offset b.acceptLens i + k) = (b.seqLens i : Int) - b.acceptLens i + k
  positions_kept : ∀ x, offset b.acceptLens b.bs ≤ x → s'.1 x = s.1 x
  lastToken : ∀ i, i < b.bs → s'.2 i = gather predict (b.lastAccepted i)
  lastToken_kept : ∀ x, b.bs ≤ x → s'.2 x = s.2 x

def storeExtended (predict : List Int) (s : (Nat → Int) × (Nat → Int)) (pid : Nat) :
    (Nat → Int) × (Nat → Int) :=
  (fill s.1 (offset b.acceptLens pid) (b.acceptLens pid) fun o =>
      (b.seqLens pid : Int) - b.acceptLens pid + o,
    update s.2 pid (gather predict (b.lastAccepted pid)))

theorem extendProgram_eq (predict : List Int) {pid : Nat} (hpid : pid < b.bs)
    (s : (Nat → Int) × (Nat → Int)) :
    b.extendProgram predict s pid = b.storeExtended predict s pid := by
  have hupper := ExtendArgs.le_nextPowerOf2 (max (b.speculativeNumSteps + 1) b.bs)
  have hsteps := Nat.le_max_left (b.speculativeNumSteps + 1) b.bs
  have hbs := Nat.le_max_right (b.speculativeNumSteps + 1) b.bs
  have hle : b.acceptLens pid ≤ b.speculativeNumSteps + 1 := b.accepted_le_steps pid hpid
  simp only [extendProgram, createExtendAfterDecodeSpecInfo, storeExtended]
  rw [maskedSum_eq (by omega), maskedStore_eq, Nat.min_eq_right (by omega),
    b.verifiedId_last predict hpid]

theorem extendProgram_frame (predict : List Int) {pid : Nat} (hpid : pid < b.bs)
    (s : (Nat → Int) × (Nat → Int)) :
    (∀ x, x < offset b.acceptLens pid ∨ offset b.acceptLens (pid + 1) ≤ x →
        (b.extendProgram predict s pid).1 x = s.1 x) ∧
      ∀ i, i ≠ pid → (b.extendProgram predict s pid).2 i = s.2 i := by
  rw [b.extendProgram_eq predict hpid, offset_succ]
  exact ⟨fun x hx => fill_outside hx, fun i hi => update_of_ne hi _ _⟩

theorem foldl_storeExtended (predict : List Int) (order : List Nat)
    (s : (Nat → Int) × (Nat → Int)) : order.foldl (b.storeExtended predict) s =
      (order.foldl (fun m i => fill m (offset b.acceptLens i) (b.acceptLens i) fun o =>
          (b.seqLens i : Int) - b.acceptLens i + o) s.1,
        order.foldl (fun m i => update m i (gather predict (b.lastAccepted i))) s.2) := by
  induction order generalizing s with
  | nil => rfl
  | cons i order ih => rw [List.foldl_cons, ih]; rfl

section Launches

variable {b} {order : List Nat} (horder : order.Perm (List.range b.bs))

include horder

theorem extendAfterDecode_extended (predict : List Int) (s : (Nat → Int) × (Nat → Int)) :
    b.Extended predict s (b.extendAfterDecode predict order s) := by
  have hlaunch : b.extendAfterDecode predict order s = order.foldl (b.storeExtended predict) s :=
    List.foldl_ext _ _ _ fun s pid hmem =>
      b.extendProgram_eq predict (List.mem_range.mp (horder.mem_iff.mp hmem)) s
  rw [hlaunch, foldl_storeExtended]
  have hids := writesFront_cells horder s.2 fun i => gather predict (b.lastAccepted i)
  exact {
    positions := fun i hi k hk => foldl_windows_apply horder _ s.1 hi hk
    positions_kept := fun x hx => foldl_windows_outside horder _ s.1 hx
    lastToken := fun i hi => hids.apply_map hi
    lastToken_kept := fun x hx => hids.kept x (by simpa using hx) }

theorem newVerifiedId_cells (predict : List Int) (beyond m : Nat → Int) :
    WritesFront m (b.newVerifiedId predict beyond order m) ((List.range b.bs).map fun i =>
      b.allVerifiedId predict beyond (b.draftTokenNum * i + b.acceptLens i - 1)) :=
  writesFront_cells horder m _

end Launches

def unfinishedLens (finished : Nat → Bool) (i : Nat) : Nat :=
  if finished i then 0 else b.acceptLens i

theorem createNumAcceptedDraftsFilter_apply (finished : Nat → Bool) {i : Nat} (hi : i < b.bs) :
    (createNumAcceptedDraftsFilter b.numAcceptedDrafts (b.unfinishedIndex finished) b.seqLens).1 i =
      b.unfinishedLens finished i := by
  have heach : (createNumAcceptedDraftsFilter b.numAcceptedDrafts (b.unfinishedIndex finished)
      b.seqLens).1 = updateEach id (fun i _ => b.numAcceptedDrafts i + 1)
        (b.unfinishedIndex finished) fun _ => 0 := rfl
  rw [heach, unfinishedLens]
  by_cases hfin : finished i = true
  · rw [if_pos hfin]
    refine updateEach_notMem id _ ?_ _
    simp [unfinishedIndex, hfin]
  · have hnodup : ((b.unfinishedIndex finished).map id).Nodup := by
      rw [List.map_id]
      exact List.nodup_range.filter _
    have hmem : i ∈ b.unfinishedIndex finished := by
      simp [unfinishedIndex, hi, hfin]
    rw [if_neg hfin, ← b.numAcceptedDrafts_succ hi]
    exact updateEach_mem id _ hnodup hmem _

theorem offset_numAcceptedDrafts {bid : Nat} (hbid : bid ≤ b.bs) :
    offset b.numAcceptedDrafts bid + bid = offset b.acceptLens bid := by
  induction bid with
  | zero => rfl
  | succ n ih =>
      have hn := b.numAcceptedDrafts_succ (Nat.lt_of_succ_le hbid)
      rw [offset_succ, offset_succ, ← ih (Nat.le_of_succ_le hbid), ← hn]
      omega

theorem offset_congr {f g : Nat → Nat} {n : Nat} (h : ∀ i, i < n → f i = g i) :
    offset f n = offset g n :=
  congrArg List.sum (List.map_congr_left fun i hi => h i (List.mem_range.mp hi))

def unfinishedSlots (tgtCacheLoc : Nat → Int) (finished : Nat → Bool) : List Int :=
  (b.unfinishedIndex finished).flatMap fun i =>
    (List.range (b.acceptLens i)).map fun k => tgtCacheLoc (offset b.acceptLens i + k)

theorem unfinishedSlots_eq_runs (tgtCacheLoc : Nat → Int) (finished : Nat → Bool) :
    b.unfinishedSlots tgtCacheLoc finished = (List.range b.bs).flatMap fun i =>
      (List.range (b.unfinishedLens finished i)).map fun k =>
        tgtCacheLoc (offset b.acceptLens i + k) := by
  unfold unfinishedSlots unfinishedIndex
  induction List.range b.bs with
  | nil => rfl
  | cons i l ih =>
      rw [List.flatMap_cons, ← ih, List.filter_cons, unfinishedLens]
      cases finished i <;> simp

theorem filterFinishedCacheLocKernel_eq (tgtCacheLoc : Nat → Int) (finished : Nat → Bool)
    {bid : Nat} (hbid : bid < b.bs) (m : Nat → Int) :
    filterFinishedCacheLocKernel tgtCacheLoc b.numAcceptedDrafts
      (createNumAcceptedDraftsFilter b.numAcceptedDrafts (b.unfinishedIndex finished) b.seqLens).1
      (nextPowerOf2 b.bs) (nextPowerOf2 b.draftTokenNum) m bid =
        fill m (offset (b.unfinishedLens finished) bid) (b.unfinishedLens finished bid) fun k =>
          tgtCacheLoc (offset b.acceptLens bid + k) := by
  have hbs : bid ≤ nextPowerOf2 b.bs :=
    Nat.le_trans (Nat.le_of_lt hbid) (ExtendArgs.le_nextPowerOf2 b.bs)
  have hlen : b.unfinishedLens finished bid ≤ nextPowerOf2 b.draftTokenNum := by
    refine Nat.le_trans ?_ (Nat.le_trans (b.accepted_le_drafts bid hbid)
      (ExtendArgs.le_nextPowerOf2 b.draftTokenNum))
    unfold unfinishedLens
    split
    · exact Nat.zero_le _
    · exact Nat.le_refl _
  simp only [filterFinishedCacheLocKernel]
  rw [maskedSum_eq hbs, maskedSum_eq hbs, maskedStore_eq,
    b.createNumAcceptedDraftsFilter_apply finished hbid, Nat.min_eq_right hlen,
    b.offset_numAcceptedDrafts (Nat.le_of_lt hbid), offset_congr fun i hi =>
      b.createNumAcceptedDraftsFilter_apply finished (Nat.lt_trans hi hbid)]

/-- The slots of the unfinished requests stand at the front, each once and in order. -/
theorem filterFinished_front (tgtCacheLoc : Nat → Int) (finished : Nat → Bool) {order : List Nat}
    (horder : order.Perm (List.range b.bs)) (m : Nat → Int) :
    WritesFront m (b.filterFinished tgtCacheLoc finished order m)
      (b.unfinishedSlots tgtCacheLoc finished) := by
  have hlaunch : b.filterFinished tgtCacheLoc finished order m =
      order.foldl (fun m i => fill m (offset (b.unfinishedLens finished) i)
        (b.unfinishedLens finished i) fun k => tgtCacheLoc (offset b.acceptLens i + k)) m :=
    List.foldl_ext _ _ _ fun m bid hmem => b.filterFinishedCacheLocKernel_eq tgtCacheLoc finished
      (List.mem_range.mp (horder.mem_iff.mp hmem)) m
  rw [hlaunch, unfinishedSlots_eq_runs]
  exact writesFront_windows horder _ m

/-- The kernels of one batch, in whatever order their programs run: the accepted slots and those of
the unfinished requests stand at the front, and every request has its positions and its last token
at its own place. -/
structure Compacts : Prop where
  accepted : ∀ (acceptIndex outCacheLoc : Nat → Int) (size : Nat) (order : List Nat),
    (∀ x, x < size → -1 ≤ acceptIndex x) → order.Perm (List.range size) →
    ∀ m, WritesFront m (acceptedOutCacheLoc acceptIndex outCacheLoc size order m)
      (acceptedSlots acceptIndex outCacheLoc size)
  acceptedSlots : ∀ outCacheLoc, acceptedSlots b.acceptIndex outCacheLoc
      (b.bs * (b.speculativeNumSteps + 1)) =
    (List.range b.bs).flatMap fun i => (b.accepted i).map outCacheLoc
  unfinished : ∀ tgtCacheLoc finished (order : List Nat), order.Perm (List.range b.bs) →
    ∀ m, WritesFront m (b.filterFinished tgtCacheLoc finished order m)
      (b.unfinishedSlots tgtCacheLoc finished)
  extended : ∀ predict (order : List Nat), order.Perm (List.range b.bs) →
    ∀ s, b.Extended predict s (b.extendAfterDecode predict order s)
  untouched : ∀ predict pid, pid < b.bs → ∀ s,
    (∀ x, x < offset b.acceptLens pid ∨ offset b.acceptLens (pid + 1) ≤ x →
      (b.extendProgram predict s pid).1 x = s.1 x) ∧
    ∀ i, i ≠ pid → (b.extendProgram predict s pid).2 i = s.2 i

theorem compacts : b.Compacts where
  accepted _ outCacheLoc _ _ hpad hslots := acceptedOutCacheLoc_front outCacheLoc hpad hslots
  acceptedSlots := b.acceptedSlots_eq
  unfinished tgtCacheLoc finished _ horder := b.filterFinished_front tgtCacheLoc finished horder
  extended predict _ horder := extendAfterDecode_extended horder predict
  untouched predict _ hpid := b.extendProgram_frame predict hpid

/-- Also `fill_new_verified_id` gives every request its last accepted token. -/
structure CompactsExactly : Prop extends Compacts b where
  newVerifiedId : ∀ predict beyond (order : List Nat), predict.length = b.bs * b.draftTokenNum →
    order.Perm (List.range b.bs) → ∀ m, WritesFront m (b.newVerifiedId predict beyond order m)
      ((List.range b.bs).map fun i => gather predict (b.lastAccepted i))

/-- Every request accepts its bonus token only. -/
def bonusOnly (n k d : Nat) (hd : 0 < d) : AcceptedBatch where
  bs := n
  speculativeNumSteps := k
  draftTokenNum := d
  seqLens _ := 1
  accepted i := [i * d]
  accepted_ne_nil _ _ := List.cons_ne_nil _ _
  accepted_le_steps _ _ := Nat.succ_le_succ (Nat.zero_le k)
  accepted_le_drafts _ _ := hd
  accepted_row i _ a ha := by
    rw [List.mem_singleton.mp ha, Nat.succ_mul]
    exact ⟨Nat.le_refl _, Nat.lt_add_of_pos_right hd⟩

section Misread

variable {n k d : Nat} (hd : 0 < d) (hn : 1 < n)

/-- Tokens of which only the one at the root of the second request is not `0`. -/
def marked (n d : Nat) : List Int := (List.range (n * d)).map fun x => if x = d then 1 else 0

theorem gather_marked {x : Nat} (hx : x < n * d) :
    gather (marked n d) x = if x = d then 1 else 0 := by
  rw [gather, if_neg (by omega), Int.toNat_natCast, List.getD_eq_getElem _ _ (by simpa [marked])]
  simp [marked]

include hd hn

private theorem gather_marked_padding (hone : ¬ (n = 2 ∧ d = 1)) :
    gather (marked n d) (-1) = 0 := by
  have hmul := Nat.mul_le_mul_right d hn
  have hne : n * d - 1 ≠ d := by
    intro heq
    rcases Nat.lt_or_ge n 3 with hlt | hge
    · obtain rfl : n = 2 := by omega
      omega
    · have hthree := Nat.mul_le_mul_right d hge
      omega
  have hlast := gather_marked (n := n) (d := d) (x := n * d - 1) (by omega)
  rw [if_neg hne, gather, if_neg (by omega), Int.toNat_natCast] at hlast
  rw [gather, if_pos (by decide)]
  simpa [marked] using hlast

/-- In rows of the wrong length, the cell of the second request holds padding, the token of another
request, or nothing. -/
theorem bonusOnly_read (hstride : d ≠ k + 1) (hone : ¬ (n = 2 ∧ d = 1)) :
    (bonusOnly n k d hd).allVerifiedId (marked n d) (fun _ => 0) d = 0 := by
  rw [allVerifiedId]
  split
  · next hin =>
      have hin : d < n * (k + 1) := hin
      have hdiv := Nat.div_add_mod d (k + 1)
      have hmod := Nat.mod_lt d (Nat.succ_pos k)
      have hquot : d / (k + 1) < n := (Nat.div_lt_iff_lt_mul (Nat.succ_pos k)).mpr hin
      have hcell := (bonusOnly n k d hd).acceptIndex_row (i := d / (k + 1)) hmod
      change (bonusOnly n k d hd).acceptIndex (d / (k + 1) * (k + 1) + d % (k + 1)) = _ at hcell
      rw [Nat.div_add_mod'] at hcell
      rw [hcell]
      have hrow : ∀ q, (bonusOnly n k d hd).acceptRow q =
          ((q * d : Nat) : Int) :: List.replicate k (-1) := fun _ => rfl
      rw [hrow]
      generalize d / (k + 1) = q at hdiv hquot
      cases hr : d % (k + 1) with
      | succ r =>
          rw [hr] at hmod
          rw [List.getD_cons_succ, List.getD_replicate _ (by omega)]
          exact gather_marked_padding hd hn hone
      | zero =>
          have hne : q * d ≠ d := fun heq => by
            obtain rfl : q = 1 := Nat.eq_of_mul_eq_mul_right hd (by omega)
            omega
          rw [List.getD_cons_zero, gather_marked (Nat.mul_lt_mul_of_pos_right hquot hd),
            if_neg hne]
  · rfl

theorem bonusOnly_misread (hstride : d ≠ k + 1) (hone : ¬ (n = 2 ∧ d = 1)) :
    ¬ (bonusOnly n k d hd).CompactsExactly := by
  intro h
  have hperm : (List.range n).Perm (List.range (bonusOnly n k d hd).bs) := .refl _
  have hcells := (newVerifiedId_cells hperm (marked n d) (fun _ => 0) fun _ => 0).apply_map hn
  have hright := (h.newVerifiedId (marked n d) (fun _ => 0) _ (by simp [marked, bonusOnly])
    hperm fun _ => 0).apply_map hn
  have hread : (bonusOnly n k d hd).draftTokenNum * 1 + (bonusOnly n k d hd).acceptLens 1 - 1 = d :=
    Nat.mul_one d
  have hlast : (bonusOnly n k d hd).lastAccepted 1 = d := Nat.one_mul d
  have hmul := Nat.mul_le_mul_right d hn
  rw [hright, hlast, hread, bonusOnly_read hd hn hstride hone, gather_marked (by omega),
    if_pos rfl] at hcells
  exact absurd hcells one_ne_zero

end Misread

/-- With rows of one entry the second of two requests reads padding, which names the last token and
so its own. -/
theorem allVerifiedId_single (h : b.bs = 2 ∧ b.draftTokenNum = 1)
    (hstride : b.draftTokenNum ≠ b.speculativeNumSteps + 1) {predict : List Int}
    (hlength : predict.length = b.bs * b.draftTokenNum) (beyond : Nat → Int) {i : Nat}
    (hi : i < b.bs) : b.allVerifiedId predict beyond (b.draftTokenNum * i + b.acceptLens i - 1) =
      gather predict (b.lastAccepted i) := by
  have hlens : ∀ j, j < b.bs → b.acceptLens j = 1 := fun j hj => by
    have hle : b.acceptLens j ≤ b.draftTokenNum := b.accepted_le_drafts j hj
    have hpos := b.acceptLens_pos hj
    omega
  rw [h.1] at hi
  obtain rfl | rfl : i = 0 ∨ i = 1 := by omega
  · exact b.allVerifiedId_last predict beyond (by omega) rfl
  · have hlast : b.lastAccepted 1 = 1 := by
      have hrow := b.accepted_row 1 (by omega) _
        (List.mem_of_getElem? (b.getElem?_last (i := 1) (by omega)))
      omega
    have hpad : b.acceptIndex 1 = -1 := by
      have hcell := b.acceptIndex_row (i := 0) (k := 1) (by omega)
      rw [Nat.zero_mul, Nat.zero_add] at hcell
      rw [hcell, acceptRow, List.getD_append_right _ _ _ _ (by
          rw [List.length_map]
          exact Nat.le_of_eq (hlens 0 (by omega))), hlens 0 (by omega)]
      have hlen : (b.accepted 0).length = 1 := hlens 0 (by omega)
      exact List.getD_replicate _ (by rw [List.length_map]; omega)
    have hin : 1 * 1 + 1 - 1 < b.bs * (b.speculativeNumSteps + 1) := by
      rw [h.1]
      omega
    rw [hlens 1 (by omega), hlast, h.2, allVerifiedId, if_pos hin, hpad, gather,
      if_pos (by decide), hlength, h.1, h.2]
    rfl

/-- In every batch of `n` requests the kernels are exact if and only if `fill_new_verified_id` steps
from row to row: there is one request, or the rows of `accept_index` are as long as those of the
draft tree. The other kernels are exact in every batch. -/
theorem compactsExactly_iff {n k d : Nat} (hd : 0 < d) :
    (∀ b : AcceptedBatch, b.Compacts) ∧
    ((∀ b : AcceptedBatch, b.bs = n → b.speculativeNumSteps = k → b.draftTokenNum = d →
      b.CompactsExactly) ↔ n ≤ 1 ∨ d = k + 1 ∨ n = 2 ∧ d = 1) := by
  refine ⟨compacts, fun h => ?_, fun h b hbs hk hdraft => ⟨b.compacts, ?_⟩⟩
  · by_contra hnot
    obtain ⟨hn, hstride, hone⟩ : 1 < n ∧ d ≠ k + 1 ∧ ¬ (n = 2 ∧ d = 1) := by
      simpa only [not_or, not_le] using hnot
    exact bonusOnly_misread hd hn hstride hone (h (bonusOnly n k d hd) rfl rfl rfl)
  · intro predict beyond order hlength horder m
    have hread : ∀ i, i < b.bs → b.allVerifiedId predict beyond
        (b.draftTokenNum * i + b.acceptLens i - 1) = gather predict (b.lastAccepted i) := by
      intro i hi
      by_cases hstride : b.draftTokenNum = b.speculativeNumSteps + 1
      · exact b.allVerifiedId_last predict beyond hi (by rw [hstride])
      · rcases h with hn | heq | hone
        · obtain rfl : i = 0 := by omega
          exact b.allVerifiedId_last predict beyond hi rfl
        · exact absurd (by rw [hdraft, heq, hk]) hstride
        · exact b.allVerifiedId_single ⟨hbs.trans hone.1, hdraft.trans hone.2⟩ hstride
            hlength beyond hi
    have hcells := newVerifiedId_cells horder predict beyond m
    rwa [List.map_congr_left fun i hi => hread i (List.mem_range.mp hi)] at hcells

/-- Two requests, of which one accepted a draft. -/
def twoAccepted : AcceptedBatch where
  bs := 2
  speculativeNumSteps := 1
  draftTokenNum := 2
  seqLens := fun i => 10 + i
  accepted := fun i => if i = 0 then [0, 1] else [2]
  accepted_ne_nil := by decide
  accepted_le_steps := by decide
  accepted_le_drafts := by decide
  accepted_row := by decide

theorem compactsExactly_two : twoAccepted.CompactsExactly :=
  (compactsExactly_iff (by decide)).2.mpr (.inr (.inl rfl)) twoAccepted rfl rfl rfl

/-- The parameters that are chosen for a Llama model: the second request gets token `15`, the one
that the padding names, and not its token `8`. -/
theorem not_compactsExactly_llama : let b := bonusOnly 2 5 8 (by decide)
    let predict := (List.range 16).map Int.ofNat
    b.newVerifiedId predict (fun _ => 0) [0, 1] (fun _ => 0) 1 = 15 ∧
      gather predict (b.lastAccepted 1) = 8 ∧ ¬ b.CompactsExactly :=
  ⟨by decide +kernel, by decide, bonusOnly_misread (by decide) (by decide) (by decide) (by decide)⟩

end AcceptedBatch

end SpecDecode.Eagle
