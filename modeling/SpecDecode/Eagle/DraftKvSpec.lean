import SpecDecode.Eagle.DraftKv
import SpecDecode.MemCache.AllocExtendSpec

/-!
# The layout of the draft slots

The slots of all branches are copied into the rows of their requests. What a program copies from
`out_cache_loc` and what it moves to the front of it are windows of the tensor, one for each
request; the windows of what is copied start behind those of what is moved.
-/

namespace SpecDecode.Eagle

open Buffer MemCache

namespace DraftArgs

variable {a : DraftArgs}

/-- The requests have rows of their own with room for their new slots. -/
structure Valid (a : DraftArgs) : Prop where
  pageSize : 0 < a.pageSize
  topk : 0 < a.topk
  steps : 0 < a.speculativeNumSteps
  numSeqs : 0 < a.numSeqs
  distinct : ∀ r r', r < a.numSeqs → r' < a.numSeqs → a.reqPoolIndices r = a.reqPoolIndices r' →
    r = r'
  inside : ∀ r, r < a.numSeqs → a.seqLens r + a.copyLen r ≤ a.poolLen

def branchWidth (a : DraftArgs) (r : Nat) : Nat := a.numNewPagesPerTopk r * a.pageSize

/-- Where the slots of a request start in `out_cache_loc`. -/
def outStart (a : DraftArgs) (r : Nat) : Nat := offset a.copyLen r

def keptLen (a : DraftArgs) : Nat := a.topk * a.speculativeNumSteps

/-- The place of token `k` of branch `b` among the slots of a request. -/
def place (a : DraftArgs) (r b k : Nat) : Nat :=
  if a.LargePages then b * a.branchWidth r + k else b * a.speculativeNumSteps + k

section Offsets

variable (h : a.Valid) {r b k : Nat}

include h

omit h in
theorem seqLens_eq (r : Nat) : a.seqLens r / a.pageSize * a.pageSize + a.lastPageLen r =
    a.seqLens r := by
  rw [lastPageLen, Nat.mul_comm]
  exact Nat.div_add_mod _ _

theorem lastPageLen_lt (r : Nat) : a.lastPageLen r < a.pageSize := Nat.mod_lt _ h.pageSize

theorem lastPageLen_add_le (r : Nat) : a.lastPageLen r + a.speculativeNumSteps ≤ a.branchWidth r :=
  le_numPages_mul h.pageSize _

private theorem extendLen_eq (r : Nat) :
    a.extendLen r + a.lastPageLen r = a.topk * a.branchWidth r := by
  have hseq := seqLens_eq (a := a) r
  have hwidth := lastPageLen_add_le h r
  have hle := Nat.mul_le_mul_right (a.branchWidth r) h.topk
  have hmul : a.numNewPagesPerTopk r * (a.pageSize * a.topk) = a.topk * a.branchWidth r := by
    rw [branchWidth, ← Nat.mul_assoc, Nat.mul_comm]
  rw [extendLen, hmul]
  omega

theorem copyLen_large (hlarge : a.LargePages) (r : Nat) :
    a.copyLen r + a.lastPageLen r = a.topk * a.branchWidth r := by
  rw [copyLen, if_pos hlarge]
  exact extendLen_eq h r

omit h in
theorem copyLen_small (hsmall : ¬ a.LargePages) (r : Nat) : a.copyLen r = a.keptLen :=
  if_neg hsmall

theorem keptLen_le (r : Nat) : a.keptLen ≤ a.copyLen r := by
  by_cases hlarge : a.LargePages
  · have hcopy := copyLen_large h hlarge r
    have hwidth := Nat.mul_le_mul_left a.topk (lastPageLen_add_le h r)
    have hlast := Nat.mul_le_mul_right (a.lastPageLen r) h.topk
    rw [Nat.mul_add] at hwidth
    rw [keptLen]
    omega
  · rw [copyLen_small hlarge]

theorem place_lt (hb : b < a.topk) (hk : k < a.speculativeNumSteps) :
    a.place r b k < a.copyLen r := by
  by_cases hlarge : a.LargePages
  · have hcopy := copyLen_large h hlarge r
    have hwidth := lastPageLen_add_le h r
    have hmul := Nat.mul_le_mul_right (a.branchWidth r) (Nat.succ_le_of_lt hb)
    rw [Nat.succ_mul] at hmul
    rw [place, if_pos hlarge]
    omega
  · have hmul := Nat.mul_le_mul_right a.speculativeNumSteps (Nat.succ_le_of_lt hb)
    rw [Nat.succ_mul] at hmul
    rw [place, if_neg hlarge, copyLen_small hlarge, keptLen]
    omega

theorem place_inj {b' k' : Nat} (hk : k < a.speculativeNumSteps) (hk' : k' < a.speculativeNumSteps)
    (heq : a.place r b k = a.place r b' k') : b = b' ∧ k = k' := by
  have hwidth := lastPageLen_add_le h r
  have hinj : ∀ w, a.speculativeNumSteps ≤ w → b * w + k = b' * w + k' → b = b' ∧ k = k' := by
    intro w hw heq
    have hb : b = b' := by
      by_contra hne
      have hout := window_outside (show k < w by omega) (Ne.symm hne)
      omega
    subst hb
    exact ⟨rfl, by omega⟩
  unfold place at heq
  split at heq
  · exact hinj _ (by omega) heq
  · exact hinj _ (Nat.le_refl _) heq

omit h in
theorem outCachePtr_eq (hr : r < a.numSeqs) : a.outCachePtr r = a.outStart r := by
  unfold outCachePtr outStart
  split
  · next hlarge =>
      have hle := Nat.le_trans (Nat.le_of_lt hr) (ExtendArgs.le_nextPowerOf2 a.numSeqs)
      have hcopy : a.copyLen = a.extendLen := funext fun _ => if_pos hlarge
      rw [laneSum, sum_lanes _ hle, hcopy]
  · next hsmall =>
      have hcopy : a.copyLen = fun _ => a.keptLen := funext (copyLen_small hsmall)
      rw [hcopy, offset, List.map_const', List.length_range, List.sum_replicate_nat, keptLen,
        Nat.mul_assoc]

theorem tokenPool_disjoint {r' : Nat} (hr : r < a.numSeqs) (hr' : r' < a.numSeqs) (hne : r ≠ r') :
    a.tokenPool r + a.poolLen ≤ a.tokenPool r' ∨ a.tokenPool r' + a.poolLen ≤ a.tokenPool r := by
  have hidx : a.reqPoolIndices r ≠ a.reqPoolIndices r' :=
    fun heq => hne (h.distinct r r' hr hr' heq)
  rcases Nat.lt_or_gt_of_ne hidx with hlt | hlt
  · left
    have hmul := Nat.mul_le_mul_right a.poolLen (Nat.succ_le_of_lt hlt)
    rwa [Nat.succ_mul] at hmul
  · right
    have hmul := Nat.mul_le_mul_right a.poolLen (Nat.succ_le_of_lt hlt)
    rwa [Nat.succ_mul] at hmul

end Offsets

def keptSlots (a : DraftArgs) (out : Nat → Int) (r x : Nat) : Int :=
  out (a.outStart r +
    a.place r (x / a.speculativeNumSteps) (x % a.speculativeNumSteps))

/-- The slots of the last page, for every further branch. -/
def sources (a : DraftArgs) (table : Nat → Int) (r x : Nat) : Int :=
  table (a.tokenPool r + (a.seqLens r - a.lastPageLen r) + x % a.lastPageLen r)

def targets (a : DraftArgs) (out : Nat → Int) (r x : Nat) : Int :=
  out (a.outStart r + ((x / a.lastPageLen r + 1) * a.branchWidth r - a.lastPageLen r +
    x % a.lastPageLen r))

/-- Where the sources of a request start. -/
def sourceStart (a : DraftArgs) (r : Nat) : Nat := (a.topk - 1) * offset a.lastPageLen r

def sourceLen (a : DraftArgs) (r : Nat) : Nat := (a.topk - 1) * a.lastPageLen r

theorem foldl_outCacheLoc (g : (Nat → Int) → (Nat → Int) → Nat → Nat → Int) (l : List Nat)
    (s : DraftBuffers) :
    l.foldl (fun s b => { s with outCacheLoc := g s.reqToToken s.outCacheLoc b }) s =
      { s with outCacheLoc := l.foldl (g s.reqToToken) s.outCacheLoc } := by
  induction l generalizing s with
  | nil => rfl
  | cons b l ih => exact ih _

theorem foldl_duplicates (f g : (Nat → Int) → (Nat → Int) → Nat → Nat → Int) (l : List Nat)
    (s : DraftBuffers) :
    l.foldl (fun s b => { s with
      sourceCacheLoc := f s.reqToToken s.sourceCacheLoc b
      targetCacheLoc := g s.reqToToken s.targetCacheLoc b }) s =
      { s with
        sourceCacheLoc := l.foldl (f s.reqToToken) s.sourceCacheLoc
        targetCacheLoc := l.foldl (g s.reqToToken) s.targetCacheLoc } := by
  induction l generalizing s with
  | nil => rfl
  | cons b l ih => exact ih _

section Program

variable (h : a.Valid) {r : Nat} (hr : r < a.numSeqs) (s : DraftBuffers)

include hr in
theorem copySlots_eq : a.copySlots r s = { s with
    reqToToken := fill s.reqToToken (a.tokenPool r + a.seqLens r) (a.copyLen r) fun j =>
      s.outCacheLoc (a.outStart r + j) } := by
  have hblocks : min (numPages 128 (a.copyLen r) * 128) (a.copyLen r) = a.copyLen r :=
    Nat.min_eq_right (le_numPages_mul (by decide) _)
  rw [copySlots, blockedStore_eq, hblocks, outCachePtr_eq hr]

include h in
theorem removeUsedSlots_eq : a.removeUsedSlots r s = { s with
    outCacheLoc := fill s.outCacheLoc (r * a.keptLen) a.keptLen fun x =>
      s.reqToToken (a.tokenPool r + a.seqLens r + (x / a.speculativeNumSteps * a.branchWidth r +
        x % a.speculativeNumSteps)) } := by
  have hlanes : min (nextPowerOf2 (a.speculativeNumSteps + a.pageSize))
      (a.speculativeNumSteps + a.lastPageLen r) - a.lastPageLen r = a.speculativeNumSteps := by
    have hle := ExtendArgs.le_nextPowerOf2 (a.speculativeNumSteps + a.pageSize)
    have hlast := lastPageLen_lt h r
    omega
  refine (foldl_outCacheLoc (fun table out b => windowStore out
    (r * a.speculativeNumSteps * a.topk + b * a.speculativeNumSteps)
    (nextPowerOf2 (a.speculativeNumSteps + a.pageSize)) (a.lastPageLen r)
    (a.speculativeNumSteps + a.lastPageLen r) fun o => table (a.tokenPool r + a.seqLens r -
      a.lastPageLen r + b * a.numNewPagesPerTopk r * a.pageSize + o)) _ s).trans ?_
  congr 1
  rw [keptLen]
  refine Eq.trans ?_ (fill_rows h.steps s.outCacheLoc
    (r * (a.topk * a.speculativeNumSteps)) a.topk fun b k =>
      s.reqToToken (a.tokenPool r + a.seqLens r + (b * a.branchWidth r + k)))
  refine List.foldl_ext _ _ _ fun out b _ => ?_
  have hseq := seqLens_eq (a := a) r
  rw [windowStore_eq, hlanes]
  congr 1
  · rw [Nat.mul_assoc, Nat.mul_comm a.speculativeNumSteps]
  · funext k
    congr 1
    rw [branchWidth, ← Nat.mul_assoc]
    omega

include h in
theorem duplicateSlots_eq : a.duplicateSlots r s = { s with
    sourceCacheLoc := fill s.sourceCacheLoc (a.sourceStart r) (a.sourceLen r)
      (a.sources s.reqToToken r)
    targetCacheLoc := fill s.targetCacheLoc (a.sourceStart r) (a.sourceLen r) fun x =>
      s.reqToToken (a.tokenPool r + (a.seqLens r - a.lastPageLen r) +
        (x / a.lastPageLen r + 1) * a.branchWidth r + x % a.lastPageLen r) } := by
  have hseq := seqLens_eq (a := a) r
  have hlast := lastPageLen_lt h r
  have hcumsum : a.lastPageLensCumsum r - a.lastPageLen r = offset a.lastPageLen r := by
    have hsucc := offset_succ a.lastPageLen r
    rw [lastPageLensCumsum, ← offset]
    omega
  have hmask : min a.pageSize (a.lastPageLen r) = a.lastPageLen r := Nat.min_eq_right hlast.le
  have hrows : ∀ (m : Nat → Int) (f : Nat → Nat → Int),
      (List.range' 1 (a.topk - 1)).foldl (fun m topkId => maskedStore m
        ((a.topk - 1) * (a.lastPageLensCumsum r - a.lastPageLen r) +
          (topkId - 1) * a.lastPageLen r) a.pageSize (a.lastPageLen r) (f topkId)) m =
      fill m (a.sourceStart r) (a.sourceLen r) fun x =>
        f (x / a.lastPageLen r + 1) (x % a.lastPageLen r) := by
    intro m f
    rw [hcumsum, ← sourceStart, List.range'_eq_map_range, List.foldl_map]
    rcases Nat.eq_zero_or_pos (a.lastPageLen r) with hzero | hpos
    · have hnone : ∀ (l : List Nat) (m : Nat → Int), l.foldl (fun m _ => m) m = m := by
        intro l m
        induction l with
        | nil => rfl
        | cons _ l ih => exact ih
      simp only [maskedStore_eq, sourceLen, hzero, Nat.mul_zero, Nat.min_zero, fill_zero, hnone]
    · rw [sourceLen]
      refine Eq.trans ?_ (fill_rows hpos m (a.sourceStart r) (a.topk - 1) fun k => f (k + 1))
      refine List.foldl_ext _ _ _ fun m k _ => ?_
      rw [maskedStore_eq, hmask, Nat.add_sub_cancel_left, Nat.add_comm 1 k]
  refine (foldl_duplicates (fun table m topkId => maskedStore m
      ((a.topk - 1) * (a.lastPageLensCumsum r - a.lastPageLen r) +
        (topkId - 1) * a.lastPageLen r) a.pageSize (a.lastPageLen r) fun o =>
          table (a.tokenPool r + a.seqLens r - a.lastPageLen r + o))
    (fun table m topkId => maskedStore m
      ((a.topk - 1) * (a.lastPageLensCumsum r - a.lastPageLen r) +
        (topkId - 1) * a.lastPageLen r) a.pageSize (a.lastPageLen r) fun o =>
          table (a.tokenPool r + a.seqLens r - a.lastPageLen r +
            topkId * a.numNewPagesPerTopk r * a.pageSize + o)) _ s).trans ?_
  have hbase : a.tokenPool r + a.seqLens r - a.lastPageLen r =
      a.tokenPool r + (a.seqLens r - a.lastPageLen r) := by omega
  congr 1
  · rw [hrows, hbase]
    rfl
  · rw [hrows, hbase]
    simp only [branchWidth, Nat.mul_assoc]

end Program

end DraftArgs

end SpecDecode.Eagle
