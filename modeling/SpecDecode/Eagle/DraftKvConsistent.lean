import SpecDecode.Eagle.DraftKvIndices
import SpecDecode.Eagle.DraftKvLayout

/-!
# The layout is consistent

The draft model writes a token to its slot in `out_cache_loc` and the attention reads it from the
slot that is listed for its branch. With several branches on large pages the first are packed and
the second are spread over pages, so both agree if the slots were moved to the front, which is done
only if there is something to duplicate, or if there is no padding. And a program may move its
slots before another one has copied those that they overwrite.
-/

namespace SpecDecode.Eagle

open Buffer MemCache

namespace DraftArgs

variable {a : DraftArgs}

/-- Slots as the allocator gives them out: every token of a batch has one of its own, at the offset
of the token in its page, tokens of one page have slots on one page, and no slot that a request
already has on its last page is given out. -/
structure Allocated (a : DraftArgs) (s : DraftBuffers) : Prop where
  inj : ∀ r j r' j', r < a.numSeqs → j < a.copyLen r → r' < a.numSeqs → j' < a.copyLen r' →
    s.outCacheLoc (a.outStart r + j) = s.outCacheLoc (a.outStart r' + j') → r = r' ∧ j = j'
  pageOffset : ∀ r j, r < a.numSeqs → j < a.copyLen r →
    s.outCacheLoc (a.outStart r + j) % a.pageSize = ((a.seqLens r + j) % a.pageSize : Nat)
  samePage : ∀ r j j', r < a.numSeqs → j < a.copyLen r → j' < a.copyLen r →
    (a.seqLens r + j) / a.pageSize = (a.seqLens r + j') / a.pageSize →
    s.outCacheLoc (a.outStart r + j) / a.pageSize = s.outCacheLoc (a.outStart r + j') / a.pageSize
  fresh : ∀ r o r' j, r < a.numSeqs → o < a.lastPageLen r → r' < a.numSeqs → j < a.copyLen r' →
    s.reqToToken (a.tokenPool r + (a.seqLens r - a.lastPageLen r + o)) ≠
      s.outCacheLoc (a.outStart r' + j)

section AllocExtend

variable (hpage : a.pageSize ≠ 1) {e : ExtendArgs} (he : e.Valid) (hps : e.pageSize = a.pageSize)
  {s : DraftBuffers} (hreqs : e.reqs = a.extendReqs s.reqToToken) {r : Nat}

include hreqs

theorem length_extendReqs : e.reqs.length = a.numSeqs := by
  rw [hreqs, extendReqs, List.length_map, List.length_range]

include hpage

theorem req_eq (hr : r < a.numSeqs) : (e.req r).prefixLen = a.seqLens r ∧
    (e.req r).extendLen = a.copyLen r ∧ (e.req r).lastLoc = a.getLastLoc s.reqToToken r := by
  have heq : e.req r = ⟨a.seqLens r, if a.topk = 1 then a.seqLens r + a.speculativeNumSteps
      else (a.getLastLocLargePageSizeLargeTopK s.reqToToken).seqLens r,
      a.getLastLoc s.reqToToken r⟩ := by
    rw [ExtendArgs.req, hreqs, extendReqs, List.getD_eq_getElem _ _ (by simpa using hr),
      List.getElem_map, List.getElem_range]
  rw [heq]
  refine ⟨rfl, ?_, rfl⟩
  rw [ExtendReq.extendLen, copyLen]
  dsimp only
  by_cases htopk : a.topk = 1
  · rw [if_pos htopk, if_neg (fun hlarge => hlarge.2 htopk), htopk, Nat.add_sub_cancel_left,
      Nat.one_mul]
  · rw [if_neg htopk, if_pos (show a.LargePages from ⟨hpage, htopk⟩)]
    rfl

theorem before_extendLen (hr : r ≤ a.numSeqs) : e.before (·.extendLen) r = a.outStart r := by
  have hlength := length_extendReqs hreqs
  induction r with
  | zero => rfl
  | succ r ih =>
      have hbefore := ih (Nat.le_of_succ_le hr)
      rw [ExtendArgs.before_succ (by omega), hbefore, (req_eq hpage hreqs hr).2.1, outStart,
        outStart, offset_succ]

include he hps

theorem slot_div_mod (hr : r < a.numSeqs) (j : Nat) : e.slot r j / a.pageSize = e.page r j ∧
    e.slot r j % a.pageSize = ((a.seqLens r + j) % a.pageSize : Nat) := by
  have hlength := length_extendReqs hreqs
  rw [← hps, ← (req_eq hpage hreqs hr).1]
  exact ExtendArgs.slot_div_mod he (by omega) j

/-- A slot on a last page that is laid out in order is not given out: its page is neither free nor
the last page of another request. -/
theorem slot_ne_last (hr : r < a.numSeqs) {o r' j : Nat} (ho : o < a.lastPageLen r)
    (hr' : r' < a.numSeqs) (hj : j < a.copyLen r') :
    a.getLastLoc s.reqToToken r / a.pageSize * a.pageSize + o ≠ e.slot r' j := by
  intro heq
  have hlength := length_extendReqs hreqs
  obtain ⟨hpre, -, hlastLoc⟩ := req_eq hpage hreqs hr
  have hpos := he.pageSize_pos
  rw [hps] at hpos
  have hlast : a.lastPageLen r < a.pageSize := Nat.mod_lt _ hpos
  have hpart : (e.req r).prefixLen % e.pageSize ≠ 0 := by
    rw [hpre, hps]
    exact Nat.ne_zero_of_lt ho
  have hposInt : (0 : Int) < a.pageSize := Int.natCast_pos.mpr hpos
  obtain ⟨hdiv, hmod⟩ := slot_div_mod hpage he hps hreqs hr' j
  rw [Int.add_comm] at heq
  have hquot : e.page r' j = (e.req r).lastLoc / e.pageSize := by
    rw [← hdiv, ← heq, hps, hlastLoc, Int.add_mul_ediv_right _ _ hposInt.ne',
      Int.ediv_eq_zero_of_lt (by omega) (by omega), Int.zero_add]
  have hoff : o = (a.seqLens r' + j) % a.pageSize := by
    rw [← heq, Int.add_mul_emod_self_right, Int.emod_eq_of_lt (by omega) (by omega)] at hmod
    exact_mod_cast hmod
  obtain ⟨hpart', hold, hsame⟩ | ⟨k, -, hk, hnew, -⟩ :=
    ExtendArgs.page_cases he (by omega) ((req_eq hpage hreqs hr').2.1.symm ▸ hj)
  · obtain rfl := he.tail_inj r (by omega) r' (by omega) hpart hpart' (hquot.symm.trans hold)
    rw [hpre, hps] at hsame
    have hdiv := Nat.div_add_mod (a.seqLens r) a.pageSize
    have hdiv' := Nat.div_add_mod (a.seqLens r + j) a.pageSize
    rw [hsame] at hdiv'
    rw [lastPageLen] at ho
    omega
  · exact he.tail_used r (by omega) hpart _ (ExtendArgs.freePage_mem he hk)
      (hquot.symm.trans hnew)

/-- Slots on pages, as `alloc_extend` gives them out for the lengths that the host computes to
requests whose last pages are laid out in order. -/
theorem allocated_of_allocExtend {out : Nat → Int} (hout : s.outCacheLoc = e.allocExtendNaive out)
    (hlaid : ∀ r, r < a.numSeqs → ∀ o, o < a.lastPageLen r →
      s.reqToToken (a.tokenPool r + (a.seqLens r - a.lastPageLen r + o)) =
        a.getLastLoc s.reqToToken r / a.pageSize * a.pageSize + o) : a.Allocated s := by
  have hlength := length_extendReqs hreqs
  have hreq : ∀ r, r < a.numSeqs → (e.req r).prefixLen = a.seqLens r ∧
      (e.req r).extendLen = a.copyLen r ∧ (e.req r).lastLoc = a.getLastLoc s.reqToToken r :=
    fun r hr => req_eq hpage hreqs hr
  have hslot : ∀ r j, r < a.numSeqs → j < a.copyLen r →
      s.outCacheLoc (a.outStart r + j) = e.slot r j := by
    intro r j hr hj
    rw [hout, ← before_extendLen hpage hreqs hr.le]
    exact ExtendArgs.allocExtendNaive_apply he out (by omega) (by rwa [(hreq r hr).2.1])
  refine
    { inj := fun r j r' j' hr hj hr' hj' heq => ?_
      pageOffset := fun r j hr hj => ?_
      samePage := fun r j j' hr hj hj' heq => ?_
      fresh := fun r o r' j hr ho hr' hj => ?_ }
  · rw [hslot r j hr hj, hslot r' j' hr' hj'] at heq
    exact ExtendArgs.slot_inj he (by omega) (by rwa [(hreq r hr).2.1]) (by omega)
      (by rwa [(hreq r' hr').2.1]) heq
  · rw [hslot r j hr hj, (slot_div_mod hpage he hps hreqs hr j).2]
  · rw [hslot r j hr hj, hslot r j' hr hj', (slot_div_mod hpage he hps hreqs hr j).1,
      (slot_div_mod hpage he hps hreqs hr j').1]
    exact ExtendArgs.page_congr he (by rwa [(hreq r hr).1, hps])
  · rw [hlaid r hr o ho, hslot r' j hr' hj]
    exact slot_ne_last hpage he hps hreqs hr ho hr' hj

end AllocExtend

/-- `move_kv_cache`: all slots are read before the first is written. -/
def moveKvCache {β : Type} (cache : Int → β) (n : Nat) (tgtLoc srcLoc : Nat → Int) : Int → β :=
  updateEach tgtLoc (fun x _ => cache (srcLoc x)) (List.range n) cache

/-- The layout after both launches, which started with the tensors `s`. -/
structure Consistent (a : DraftArgs) (s t : DraftBuffers) (k : KvBuffers) : Prop where
  disjoint : ∀ r b j r' b' j', r < a.numSeqs → b < a.topk → j < a.speculativeNumSteps →
    r' < a.numSeqs → b' < a.topk → j' < a.speculativeNumSteps →
    a.newSlot t r b j = a.newSlot t r' b' j' → r = r' ∧ b = b' ∧ j = j'
  pageOffset : ∀ r b, r < a.numSeqs → b < a.topk →
    a.newSlot t r b 0 % a.pageSize = (a.lastPageLen r : Nat)
  /-- The slots of the last page in front of the first new slot of a further branch. -/
  duplicated : ∀ {β : Type} (cache : Int → β) (r b o : Nat), r < a.numSeqs → 0 < b → b < a.topk →
    o < a.lastPageLen r →
    moveKvCache cache a.duplicateCacheLen t.targetCacheLoc t.sourceCacheLoc
      (a.newSlot t r b 0 - a.lastPageLen r + o) =
    cache (s.reqToToken (a.tokenPool r + (a.seqLens r - a.lastPageLen r + o)))
  listed : ∀ i r b, i < a.speculativeNumSteps → r < a.numSeqs → b < a.topk →
    listed k i (r * a.topk + b) =
      ((List.range (a.seqLens r)).map fun x => s.reqToToken (a.tokenPool r + x)) ++
        (List.range (i + 1)).map (a.newSlot t r b)

theorem extendStart_add (r b k : Nat) : a.extendStart r b + k = a.seqLens r + a.place r b k := by
  have hseq := seqLens_eq (a := a) r
  rw [extendStart, place, branchWidth, ← Nat.mul_assoc]
  split
  · omega
  · omega

/-- Every branch starts where the sequence ends inside of its last page. -/
theorem place_mod (r : Nat) {b : Nat} (hb : b < a.topk) :
    (a.seqLens r + a.place r b 0) % a.pageSize = a.lastPageLen r := by
  by_cases hlarge : a.LargePages
  · rw [place, if_pos hlarge, Nat.add_zero, branchWidth, ← Nat.mul_assoc,
      Nat.add_mul_mod_self_right]
    rfl
  · rw [place, if_neg hlarge, Nat.add_zero]
    by_cases hpage : a.pageSize = 1
    · rw [lastPageLen, hpage, Nat.mod_one, Nat.mod_one]
    · have htopk : a.topk = 1 := by
        by_contra hne
        exact hlarge ⟨hpage, hne⟩
      obtain rfl : b = 0 := by omega
      rw [Nat.zero_mul, Nat.add_zero]
      rfl

/-- No padding is left: there is none, or the slots are moved together. -/
def Packed (a : DraftArgs) : Prop :=
  ¬ a.LargePages ∨ a.Compacts ∨
    ((∀ r, r < a.numSeqs → a.lastPageLen r = 0) ∧ a.pageSize ∣ a.speculativeNumSteps)

theorem kept_place (h : a.Valid) {b k : Nat} (hb : b < a.topk) (hk : k < a.speculativeNumSteps) :
    b * a.speculativeNumSteps + k < a.keptLen ∧
      (b * a.speculativeNumSteps + k) / a.speculativeNumSteps = b ∧
      (b * a.speculativeNumSteps + k) % a.speculativeNumSteps = k := by
  obtain ⟨hdiv, hmod⟩ := mul_add_div_mod h.steps b k
  rw [hdiv, hmod, Nat.div_eq_of_lt hk, Nat.mod_eq_of_lt hk]
  have hmul := Nat.mul_le_mul_right a.speculativeNumSteps (Nat.succ_le_of_lt hb)
  rw [Nat.succ_mul] at hmul
  refine ⟨?_, rfl, rfl⟩
  rw [keptLen]
  omega

section Run

variable (h : a.Valid) {s t : DraftBuffers} (ht : a.After s t) {r b k : Nat}
  (hr : r < a.numSeqs) (hb : b < a.topk) (hk : k < a.speculativeNumSteps)

include ht hr hb hk

theorem row_apply : t.reqToToken (a.tokenPool r + a.extendStart r b + k) =
    a.placed s.outCacheLoc r b k := by
  rw [Nat.add_assoc, extendStart_add, ← Nat.add_assoc]
  exact ht.row r b k hr hb hk

omit ht hr hb hk in
/-- Without padding the slots of the batch lie one after the other. -/
theorem outStart_of_packed (hpacked : ∀ r, r < a.numSeqs → a.copyLen r = a.keptLen) {n : Nat}
    (hn : n ≤ a.numSeqs) : a.outStart n = n * a.keptLen := by
  induction n with
  | zero => rw [Nat.zero_mul]; rfl
  | succ n ih =>
      have hstart := ih (Nat.le_of_succ_le hn)
      rw [outStart] at hstart
      rw [outStart, offset_succ, hstart, hpacked n hn, Nat.succ_mul]

omit ht hr hb hk in
theorem newSlot_offset :
    a.newSlot t r b k = t.outCacheLoc (r * a.keptLen + (b * a.speculativeNumSteps + k)) := by
  rw [newSlot, keptLen, Nat.add_mul, Nat.mul_assoc, Nat.add_assoc]

include h in
theorem newSlot_eq (hpacked : a.Packed) :
    a.newSlot t r b k = a.placed s.outCacheLoc r b k := by
  by_cases hc : a.Compacts
  · obtain ⟨hx, hdiv, hmod⟩ := kept_place h hb hk
    rw [newSlot_offset, ht.kept hc r _ hr hx, keptSlots, hdiv, hmod]
    rfl
  · have hwidth : ∀ r, r < a.numSeqs → a.copyLen r = a.keptLen ∧
        ∀ b k, a.place r b k = b * a.speculativeNumSteps + k := by
      intro r hr
      by_cases hlarge : a.LargePages
      · obtain hnot | hpos | ⟨hzero, hdvd⟩ := hpacked
        · exact absurd hlarge hnot
        · exact absurd hpos hc
        · have hcopy := copyLen_large h hlarge r
          obtain ⟨q, hq⟩ := hdvd
          have hwidth : a.branchWidth r = a.speculativeNumSteps := by
            have hpages : (a.pageSize * q + a.pageSize - 1) / a.pageSize = q := by
              rw [Nat.add_sub_assoc h.pageSize, Nat.mul_add_div h.pageSize,
                Nat.div_eq_of_lt (Nat.sub_lt h.pageSize Nat.one_pos), Nat.add_zero]
            rw [branchWidth, numNewPagesPerTopk, hzero r hr, Nat.zero_add, hq, hpages, Nat.mul_comm]
          rw [hzero r hr, hwidth] at hcopy
          refine ⟨hcopy, fun b k => ?_⟩
          rw [place, if_pos hlarge, hwidth]
      · refine ⟨copyLen_small hlarge r, fun b k => ?_⟩
        rw [place, if_neg hlarge]
    rw [newSlot_offset, ht.unmoved hc, placed, (hwidth r hr).2,
      outStart_of_packed (fun r hr => (hwidth r hr).1) hr.le]

end Run

theorem sourceStart_eq (n : Nat) : a.sourceStart n = offset a.sourceLen n := by
  induction n with
  | zero => exact Nat.mul_zero _
  | succ n ih =>
      rw [offset_succ, ← ih, sourceStart, sourceStart, offset_succ, Nat.mul_add]
      rfl

theorem duplicateCacheLen_eq (hc : a.Compacts) : a.duplicateCacheLen = a.sourceStart a.numSeqs := by
  have hboth : 1 < a.pageSize ∧ 1 < a.topk := by
    by_contra hnot
    have hpos := hc.2
    rw [duplicateCacheLen, if_neg hnot] at hpos
    exact Nat.lt_irrefl 0 hpos
  rw [duplicateCacheLen, if_pos hboth, Nat.mul_comm]
  rfl

/-- There is something to duplicate exactly if a last page is used in part. -/
theorem compacts_iff (h : a.Valid) : a.Compacts ↔
    a.LargePages ∧ ∃ r, r < a.numSeqs ∧ a.lastPageLen r ≠ 0 := by
  refine and_congr_right fun hlarge => ?_
  have hboth : 1 < a.pageSize ∧ 1 < a.topk :=
    ⟨Nat.lt_of_le_of_ne h.pageSize (Ne.symm hlarge.1), Nat.lt_of_le_of_ne h.topk (Ne.symm hlarge.2)⟩
  rw [duplicateCacheLen, if_pos hboth, Nat.pos_iff_ne_zero, Nat.mul_ne_zero_iff]
  constructor
  · rintro ⟨hsum, -⟩
    by_contra hnone
    refine hsum (List.sum_eq_zero fun x hx => ?_)
    obtain ⟨r, hr, rfl⟩ := List.mem_map.mp hx
    by_contra hne
    exact hnone ⟨r, List.mem_range.mp hr, hne⟩
  · rintro ⟨r, hr, hne⟩
    refine ⟨fun hsum => hne ?_, Nat.sub_ne_zero_of_lt hboth.2⟩
    exact List.sum_eq_zero_iff_forall_eq_nat.mp hsum _ (List.mem_map_of_mem (List.mem_range.mpr hr))

theorem target_inj (h : a.Valid) (hlarge : a.LargePages) {r x y : Nat} (hx : x < a.sourceLen r)
    (hy : y < a.sourceLen r)
    (heq : (x / a.lastPageLen r + 1) * a.branchWidth r - a.lastPageLen r + x % a.lastPageLen r =
      (y / a.lastPageLen r + 1) * a.branchWidth r - a.lastPageLen r + y % a.lastPageLen r) :
    x = y := by
  have hwidth := lastPageLen_add_le h r
  have hmod := Nat.mod_lt x (lastPageLen_pos hx)
  have hmod' := Nat.mod_lt y (lastPageLen_pos hy)
  have hle := (target_place h hlarge hx).1
  have hle' := (target_place h hlarge hy).1
  have hdiv : x / a.lastPageLen r = y / a.lastPageLen r := by
    by_contra hne
    have hout := window_outside (show x % a.lastPageLen r < a.branchWidth r by omega)
      (show y / a.lastPageLen r + 1 ≠ x / a.lastPageLen r + 1 by omega)
    omega
  rw [hdiv, Nat.add_left_cancel_iff] at heq
  rw [← Nat.div_add_mod x (a.lastPageLen r), ← Nat.div_add_mod y (a.lastPageLen r), hdiv, heq]

theorem nodup_targets (h : a.Valid) (hc : a.Compacts) {s t : DraftBuffers}
    (hout : a.Allocated s) (ht : a.After s t) :
    ((List.range a.duplicateCacheLen).map t.targetCacheLoc).Nodup := by
  refine List.nodup_range.map_on fun x hx y hy heq => ?_
  rw [List.mem_range, duplicateCacheLen_eq hc, sourceStart_eq] at hx hy
  obtain ⟨r, i, hr, hi, rfl⟩ := exists_window hx
  obtain ⟨r', j, hr', hj, rfl⟩ := exists_window hy
  rw [← sourceStart_eq, ← sourceStart_eq, ht.target hc r i hr hi, ht.target hc r' j hr' hj] at heq
  obtain ⟨rfl, hplace⟩ := hout.inj r _ r' _ hr (target_place h hc.1 hi).2 hr'
    (target_place h hc.1 hj).2 heq
  rw [target_inj h hc.1 hi hj hplace]

theorem target_eq (h : a.Valid) (hlarge : a.LargePages) {s : DraftBuffers} (hout : a.Allocated s)
    {r b o : Nat} (hr : r < a.numSeqs) (hb : 0 < b) (hb' : b < a.topk) (ho : o < a.lastPageLen r) :
    s.outCacheLoc (a.outStart r + (b * a.branchWidth r - a.lastPageLen r + o)) =
      a.placed s.outCacheLoc r b 0 - a.lastPageLen r + o := by
  have hseq := seqLens_eq (a := a) r
  have hlast := lastPageLen_lt h r
  have hwidth := lastPageLen_add_le h r
  have hplace := place_lt h (r := r) hb' h.steps
  rw [place, if_pos hlarge, Nat.add_zero] at hplace
  have hge : a.branchWidth r ≤ b * a.branchWidth r := Nat.le_mul_of_pos_left _ hb
  have hpage : ∀ o, a.seqLens r / a.pageSize * a.pageSize + b * a.branchWidth r + o =
      (a.seqLens r / a.pageSize + b * a.numNewPagesPerTopk r) * a.pageSize + o := by
    intro o
    rw [branchWidth, Nat.add_mul, Nat.mul_assoc]
  have htarget : a.seqLens r + (b * a.branchWidth r - a.lastPageLen r + o) =
      (a.seqLens r / a.pageSize + b * a.numNewPagesPerTopk r) * a.pageSize + o := by
    rw [← hpage]
    omega
  have hfirst : a.seqLens r + b * a.branchWidth r =
      (a.seqLens r / a.pageSize + b * a.numNewPagesPerTopk r) * a.pageSize + a.lastPageLen r := by
    rw [← hpage]
    omega
  have hdivmod : ∀ o, o < a.pageSize →
      ((a.seqLens r / a.pageSize + b * a.numNewPagesPerTopk r) * a.pageSize + o) / a.pageSize =
        a.seqLens r / a.pageSize + b * a.numNewPagesPerTopk r ∧
      ((a.seqLens r / a.pageSize + b * a.numNewPagesPerTopk r) * a.pageSize + o) % a.pageSize =
        o := by
    intro o ho
    obtain ⟨hdiv, hmod⟩ := mul_add_div_mod h.pageSize
      (a.seqLens r / a.pageSize + b * a.numNewPagesPerTopk r) o
    rw [hdiv, hmod, Nat.div_eq_of_lt ho, Nat.mod_eq_of_lt ho, Nat.add_zero]
    exact ⟨rfl, rfl⟩
  have hlt : b * a.branchWidth r - a.lastPageLen r + o < a.copyLen r := by omega
  have hsame := hout.samePage r _ _ hr hlt hplace (by
    rw [htarget, hfirst, (hdivmod o (by omega)).1, (hdivmod _ hlast).1])
  have hoff := hout.pageOffset r _ hr hlt
  have hoff' := hout.pageOffset r _ hr hplace
  rw [htarget, (hdivmod o (by omega)).2] at hoff
  rw [hfirst, (hdivmod _ hlast).2] at hoff'
  have hquot := Int.mul_ediv_add_emod (s.outCacheLoc (a.outStart r +
    (b * a.branchWidth r - a.lastPageLen r + o))) a.pageSize
  have hquot' := Int.mul_ediv_add_emod (s.outCacheLoc (a.outStart r + b * a.branchWidth r))
    a.pageSize
  rw [hsame, hoff] at hquot
  rw [hoff'] at hquot'
  rw [placed, place, if_pos hlarge, Nat.add_zero]
  omega

theorem moveKvCache_apply (h : a.Valid) {s t : DraftBuffers} (hout : a.Allocated s)
    (ht : a.After s t) {β : Type} (cache : Int → β) {r b o : Nat} (hr : r < a.numSeqs)
    (hb : 0 < b) (hb' : b < a.topk) (ho : o < a.lastPageLen r) :
    moveKvCache cache a.duplicateCacheLen t.targetCacheLoc t.sourceCacheLoc
      (a.placed s.outCacheLoc r b 0 - a.lastPageLen r + o) =
    cache (s.reqToToken (a.tokenPool r + (a.seqLens r - a.lastPageLen r + o))) := by
  have hpos : 0 < a.lastPageLen r := Nat.zero_lt_of_lt ho
  have hlarge : a.LargePages := by
    refine ⟨fun hone => ?_, by omega⟩
    have hlast := lastPageLen_lt h r
    omega
  have hc : a.Compacts := (compacts_iff h).mpr ⟨hlarge, r, hr, Nat.ne_of_gt hpos⟩
  obtain ⟨b, rfl⟩ := Nat.exists_eq_succ_of_ne_zero (Nat.ne_of_gt hb)
  have hx : b * a.lastPageLen r + o < a.sourceLen r := by
    have hmul := Nat.mul_le_mul_right (a.lastPageLen r) (show b + 1 ≤ a.topk - 1 by omega)
    rw [Nat.succ_mul] at hmul
    rw [sourceLen]
    omega
  obtain ⟨hdiv, hmod⟩ := mul_add_div_mod hpos b o
  rw [Nat.div_eq_of_lt ho, Nat.add_zero] at hdiv
  rw [Nat.mod_eq_of_lt ho] at hmod
  have hmem : a.sourceStart r + (b * a.lastPageLen r + o) ∈ List.range a.duplicateCacheLen := by
    have hle := sourceStart_add_le (a := a) hr
    rw [List.mem_range, duplicateCacheLen_eq hc]
    omega
  have hmove := updateEach_mem t.targetCacheLoc (fun x _ => cache (t.sourceCacheLoc x))
    (nodup_targets h hc hout ht) hmem cache
  rw [ht.target hc r _ hr hx, ht.source hc r _ hr hx, targets, sources, hdiv, hmod,
    target_eq h hlarge hout hr hb hb' ho, Nat.add_assoc] at hmove
  exact hmove

theorem place_ne_target (h : a.Valid) (hlarge : a.LargePages) (r : Nat) {b k b' o : Nat}
    (hk : k < a.speculativeNumSteps) (ho : o < a.lastPageLen r) (hb' : 0 < b') :
    a.place r b k ≠ b' * a.branchWidth r - a.lastPageLen r + o := by
  have hwidth := lastPageLen_add_le h r
  have hge : a.branchWidth r ≤ b' * a.branchWidth r := Nat.le_mul_of_pos_left _ hb'
  rw [place, if_pos hlarge]
  rcases Nat.lt_or_ge b b' with hlt | hle
  · have hmul := Nat.mul_le_mul_right (a.branchWidth r) (Nat.succ_le_of_lt hlt)
    rw [Nat.succ_mul] at hmul
    omega
  · have hmul := Nat.mul_le_mul_right (a.branchWidth r) hle
    omega

section Overwritten

variable (h : a.Valid) {order : List (Nat × DraftPart)} (horder : a.Schedule order)
  {s t : DraftBuffers} (ht : a.Ran order s order t)

include h horder ht

theorem newSlot_row (hc : a.Compacts) {r b k : Nat} (hr : r < a.numSeqs) (hb : b < a.topk)
    (hk : k < a.speculativeNumSteps) :
    a.newSlot t r b k = t.reqToToken (a.tokenPool r + a.seqLens r + a.place r b k) := by
  obtain ⟨hx, hdiv, hmod⟩ := kept_place h hb hk
  rw [newSlot_offset, ht.kept hc r _ ((horder.mem _).mpr hr) hx, hdiv, hmod]

theorem overwritten_row {r q j : Nat} (hr : r < a.numSeqs) (hq : q < a.numSeqs)
    (hbefore : order.idxOf (q, .move) < order.idxOf (r, .copy)) (hj : j < a.copyLen r)
    (hmoves : a.Moves q (a.outStart r + j)) : q ≠ r ∧ ∃ b k, b < a.topk ∧
      k < a.speculativeNumSteps ∧
      t.reqToToken (a.tokenPool r + a.seqLens r + j) = a.newSlot t q b k := by
  refine ⟨fun heq => ?_, ?_⟩
  · subst heq
    exact Nat.lt_asymm hbefore (horder.copies q hq)
  · have hrow := ht.overwritten r q j ((horder.mem _).mpr hr) hr hj hq hbefore hmoves
    obtain ⟨-, hlo, hhi⟩ := hmoves
    obtain ⟨x, hx⟩ := Nat.exists_eq_add_of_le hlo
    have hxlt : x < a.topk * a.speculativeNumSteps := by
      rw [keptLen] at hhi hx
      omega
    refine ⟨x / a.speculativeNumSteps, x % a.speculativeNumSteps,
      (Nat.div_lt_iff_lt_mul h.steps).mpr hxlt, Nat.mod_lt _ h.steps, ?_⟩
    rw [hrow, hx, newSlot_offset, Nat.div_add_mod']

/-- If a used slot is overwritten before it is copied, two branches share a slot or a last page is
not duplicated. -/
theorem undisturbed_of_consistent (hout : a.Allocated s) {k : KvBuffers}
    (hcons : a.Consistent s t k) : a.Undisturbed order := by
  rintro r hr q hq hbefore ⟨j, hj, hused, hmoves⟩
  have hc := hmoves.1
  have hdraft : ∀ r b k, r < a.numSeqs → b < a.topk → k < a.speculativeNumSteps →
      ∀ q, q < a.numSeqs → order.idxOf (q, .move) < order.idxOf (r, .copy) →
        ¬ a.Moves q (a.outStart r + a.place r b k) := by
    intro r b k hr hb hk q hq hbefore hmoves
    obtain ⟨hne, b', k', hb', hk', hslot⟩ :=
      overwritten_row h horder ht hr hq hbefore (place_lt h hb hk) hmoves
    rw [← newSlot_row h horder ht hc hr hb hk] at hslot
    exact hne (hcons.disjoint r b k q b' k' hr hb hk hq hb' hk' hslot).1.symm
  have hplaced : ∀ r b k, r < a.numSeqs → b < a.topk → k < a.speculativeNumSteps →
      a.newSlot t r b k = a.placed s.outCacheLoc r b k := fun r b k hr hb hk => by
    rw [newSlot_row h horder ht hc hr hb hk]
    exact ht.row r _ ((horder.mem _).mpr hr) hr (place_lt h hb hk) (hdraft r b k hr hb hk)
  obtain ⟨b, k, hb, hk, rfl⟩ | ⟨b, o, hb, hb', ho, rfl⟩ := used_cases h hc.1 hj hused
  · exact hdraft r b k hr hb hk q hq hbefore hmoves
  · -- nothing is moved to the slot in front of the branch
    have htarget := target_eq h hc.1 hout hr hb hb' ho
    have hdup := hcons.duplicated id r b o hr hb hb' ho
    rw [hplaced r b 0 hr hb' h.steps, ← htarget] at hdup
    refine hout.fresh r o r _ hr ho hr hj (hdup.symm.trans ?_)
    refine updateEach_notMem t.targetCacheLoc _ (fun hmem => ?_) id
    obtain ⟨x, hx, hvalue⟩ := List.mem_map.mp hmem
    rw [List.mem_range, duplicateCacheLen_eq hc, sourceStart_eq] at hx
    obtain ⟨p, i, hp, hi, rfl⟩ := exists_window hx
    rw [← sourceStart_eq, ht.target hc p i ((horder.mem _).mpr hp) hi] at hvalue
    obtain ⟨-, hlt⟩ := target_place h hc.1 hi
    by_cases hfree : ∃ q, q < a.numSeqs ∧ order.idxOf (q, .move) < order.idxOf (p, .copy) ∧
        a.Moves q (a.outStart p +
          ((i / a.lastPageLen p + 1) * a.branchWidth p - a.lastPageLen p + i % a.lastPageLen p))
    · obtain ⟨q', hq', hbefore', hmoves'⟩ := hfree
      obtain ⟨-, b', k', hb₁, hk₁, hslot⟩ :=
        overwritten_row h horder ht hp hq' hbefore' hlt hmoves'
      rw [hslot, hplaced q' b' k' hq' hb₁ hk₁, placed] at hvalue
      obtain ⟨rfl, hplace⟩ := hout.inj _ _ _ _ hq' (place_lt h hb₁ hk₁) hr hj hvalue
      exact place_ne_target h hc.1 _ hk₁ ho hb hplace
    · have hrow := ht.row p _ ((horder.mem _).mpr hp) hp hlt fun q hq hbefore hmoves =>
        hfree ⟨q, hq, hbefore, hmoves⟩
      rw [hrow] at hvalue
      obtain ⟨rfl, hplace⟩ := hout.inj _ _ _ _ hp hlt hr hj hvalue
      exact hfree ⟨q, hq, hbefore, hplace ▸ hmoves⟩

end Overwritten

theorem packed_iff (h : a.Valid) : a.Packed ↔
    a.pageSize = 1 ∨ a.topk = 1 ∨ (∃ r, r < a.numSeqs ∧ a.lastPageLen r ≠ 0) ∨
      a.pageSize ∣ a.speculativeNumSteps := by
  rw [Packed, compacts_iff h, LargePages, not_and_or, not_not, not_not, or_assoc]
  by_cases hpage : a.pageSize = 1
  · exact iff_of_true (.inl hpage) (.inl hpage)
  by_cases htopk : a.topk = 1
  · exact iff_of_true (.inr (.inl htopk)) (.inr (.inl htopk))
  by_cases hsome : ∃ r, r < a.numSeqs ∧ a.lastPageLen r ≠ 0
  · exact iff_of_true (.inr (.inr (.inl ⟨⟨hpage, htopk⟩, hsome⟩))) (.inr (.inr (.inl hsome)))
  · have hzero : ∀ r, r < a.numSeqs → a.lastPageLen r = 0 := by
      simpa only [not_exists, not_and, not_not] using hsome
    simp only [hpage, htopk, hsome, and_false, false_or, and_iff_right hzero]

section Layout

variable (h : a.Valid) {s t : DraftBuffers} (hout : a.Allocated s) (ht : a.After s t)
  {kvOrder : List (Nat × Nat × Nat)} (hkv : kvOrder.Perm a.programs) {k : KvBuffers}
  (hroom : a.Room k)

include ht hkv hroom

theorem listed_eq {i r b : Nat} (hi : i < a.speculativeNumSteps) (hr : r < a.numSeqs)
    (hb : b < a.topk) : listed (a.launchKv t.reqToToken kvOrder k) i (r * a.topk + b) =
      ((List.range (a.seqLens r)).map fun x => s.reqToToken (a.tokenPool r + x)) ++
        (List.range (i + 1)).map (a.placed s.outCacheLoc r b) := by
  rw [listed_launchKv t.reqToToken hkv hroom hi hr hb]
  congr 1
  · exact List.map_congr_left fun x hx => ht.committed r x hr (List.mem_range.mp hx)
  · refine List.map_congr_left fun x hx => row_apply ht hr hb ?_
    exact Nat.lt_of_lt_of_le (List.mem_range.mp hx) hi

include h hout

/-- Where padding stays, the second branch of the first request is not read where it is written. -/
theorem packed_of_consistent
    (hcons : a.Consistent s t (a.launchKv t.reqToToken kvOrder k)) : a.Packed := by
  rw [packed_iff h]
  by_contra hnot
  obtain ⟨hpage, htopk, hnone, hdvd⟩ : a.pageSize ≠ 1 ∧ a.topk ≠ 1 ∧
      (¬ ∃ r, r < a.numSeqs ∧ a.lastPageLen r ≠ 0) ∧ ¬ a.pageSize ∣ a.speculativeNumSteps := by
    simpa only [not_or] using hnot
  have hlarge : a.LargePages := ⟨hpage, htopk⟩
  have hc : ¬ a.Compacts := fun hc => hnone ((compacts_iff h).mp hc).2
  have hb : 1 < a.topk := Nat.lt_of_le_of_ne h.topk (Ne.symm htopk)
  have hlist := hcons.listed 0 0 1 h.steps h.numSeqs hb
  rw [listed_eq ht hkv hroom h.steps h.numSeqs hb] at hlist
  have hslot : a.placed s.outCacheLoc 0 1 0 = a.newSlot t 0 1 0 :=
    List.map_inj_left.mp (List.append_cancel_left hlist) 0 (List.mem_range.mpr Nat.one_pos)
  have hstart : a.outStart 0 = 0 := rfl
  have hplace := place_lt h (r := 0) hb h.steps
  have hpacked := Nat.lt_of_lt_of_le (show a.speculativeNumSteps < a.keptLen from
    (Nat.lt_mul_iff_one_lt_left h.steps).mpr hb) (keptLen_le h 0)
  rw [newSlot_offset, ht.unmoved hc, placed, Nat.zero_mul, Nat.one_mul, Nat.add_zero,
    ← hstart] at hslot
  have hsteps := (hout.inj 0 _ 0 _ h.numSeqs hplace h.numSeqs hpacked hslot).2
  rw [place, if_pos hlarge, Nat.one_mul, Nat.add_zero, branchWidth] at hsteps
  exact hdvd (hsteps ▸ Nat.dvd_mul_left _ _)

theorem consistent_of_packed (hpacked : a.Packed) :
    a.Consistent s t (a.launchKv t.reqToToken kvOrder k) := by
  have hslot : ∀ r b j, r < a.numSeqs → b < a.topk → j < a.speculativeNumSteps →
      a.newSlot t r b j = a.placed s.outCacheLoc r b j :=
    fun r b j hr hb hj => newSlot_eq h ht hr hb hj hpacked
  refine
    { disjoint := fun r b j r' b' j' hr hb hj hr' hb' hj' heq => ?_
      pageOffset := fun r b hr hb => ?_
      duplicated := fun cache r b o hr hb hb' ho => ?_
      listed := fun i r b hi hr hb => ?_ }
  · rw [hslot r b j hr hb hj, hslot r' b' j' hr' hb' hj'] at heq
    obtain ⟨rfl, hplace⟩ := hout.inj r _ r' _ hr (place_lt h hb hj) hr' (place_lt h hb' hj') heq
    exact ⟨rfl, place_inj h hj hj' hplace⟩
  · rw [hslot r b 0 hr hb h.steps, placed, hout.pageOffset r _ hr (place_lt h hb h.steps)]
    congr 1
    rw [place_mod r hb]
  · rw [hslot r b 0 hr hb' h.steps]
    exact moveKvCache_apply h hout ht cache hr hb hb' ho
  · rw [listed_eq ht hkv hroom hi hr hb]
    congr 1
    refine List.map_congr_left fun x hx => (hslot r b x hr hb ?_).symm
    exact Nat.lt_of_lt_of_le (List.mem_range.mp hx) hi

end Layout

/-- The slots that the free pages give to a batch with the given rows. -/
def pagesFor (a : DraftArgs) (rows : Nat → Int) (freePages : List Nat) : ExtendArgs :=
  ⟨a.pageSize, a.extendReqs rows, freePages⟩

def buffersFor (a : DraftArgs) (rows : Nat → Int) (freePages : List Nat) : DraftBuffers :=
  ⟨rows, (a.pagesFor rows freePages).allocExtendNaive fun _ => 0, fun _ => 0, fun _ => 0⟩

/-- Both requests have one token on their second page. -/
def twoRequests : DraftArgs := ⟨2, 16, 2, 3, 4, fun r => r, fun _ => 5⟩

/-- The pages `1` and `2` in the first row, `3` and `4` in the second. -/
def twoRows (x : Nat) : Int := if x < 16 then 4 + x else (x : Int) - 4

def twoKv : KvBuffers := ⟨fun _ => 0, fun _ => 0, 32, 5⟩

theorem twoPages_valid : (twoRequests.pagesFor twoRows [5, 6]).Valid where
  pageSize_pos := by decide
  le := by decide
  enough := by decide
  free_nodup := by decide
  lastLoc := by
    intro i hi _
    obtain rfl | rfl : i = 0 ∨ i = 1 := by
      have hi : i < 2 := hi
      omega
    · exact ⟨2, by decide⟩
    · exact ⟨4, by decide⟩
  tail_inj := by decide
  tail_used := by decide

def interleaved : List (Nat × DraftPart) := [(1, .copy), (0, .copy), (1, .move), (0, .move)]

private theorem schedule_interleaved : twoRequests.Schedule interleaved where
  nodup := by decide
  mem := by
    rintro ⟨r, part⟩
    have hlt : r < twoRequests.numSeqs ↔ r = 0 ∨ r = 1 := by
      change r < 2 ↔ _
      omega
    cases part <;> simp [interleaved, hlt, or_comm]
  copies := by decide

/-- If the second program moves its slots before the first one copies, the first finds slot `17` of
the second for the last token of its second branch. -/
example :
    let t := twoRequests.launch [(1, .copy), (1, .move), (0, .copy), (0, .move)]
      (twoRequests.buffersFor twoRows [5, 6])
    twoRequests.newSlot t 0 1 2 = 17 ∧ twoRequests.newSlot t 1 0 0 = 17 := by
  decide +kernel

def alignedRequest : DraftArgs := ⟨1, 16, 2, 3, 4, fun _ => 0, fun _ => 4⟩

def alignedBuffers : DraftBuffers := alignedRequest.buffersFor (fun x => 4 + x) [2, 3]

private theorem alignedPages_valid : (alignedRequest.pagesFor (fun x => 4 + x) [2, 3]).Valid where
  pageSize_pos := by decide
  le := by decide
  enough := by decide
  free_nodup := by decide
  lastLoc := by
    intro i hi _
    obtain rfl := Nat.lt_one_iff.mp hi
    exact ⟨1, by decide⟩
  tail_inj := by decide
  tail_used := by decide

end DraftArgs

end SpecDecode.Eagle
