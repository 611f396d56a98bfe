import Mathlib.Data.List.ProdSigma
import SpecDecode.Eagle.DraftKvSpec
import SpecDecode.Lib.Compaction

/-!
# The launch of `generate_draft_decode_kv_indices`

Every program fills a window of its own, and the windows of an iteration lie one after the other
in the order of the branches; so the order in which the programs run does not matter.
-/

namespace SpecDecode.Eagle

open Buffer MemCache

namespace DraftArgs

variable {a : DraftArgs}

/-- The programs of the launch. -/
def programs (a : DraftArgs) : List (Nat × Nat × Nat) :=
  List.range a.speculativeNumSteps ×ˢ (List.range a.numSeqs ×ˢ List.range a.topk)

/-- The launch; the programs run in the given order. -/
def launchKv (a : DraftArgs) (reqToToken : Nat → Int) (order : List (Nat × Nat × Nat))
    (k : KvBuffers) : KvBuffers :=
  order.foldl (a.generateDraftDecodeKvIndices reqToToken a.positions) k

/-- The number of slots that branch `z` of the batch reads in an iteration. -/
def entryLen (a : DraftArgs) (iteration z : Nat) : Nat := a.positions z + (iteration + 1)

/-- The rows of both tensors hold an iteration, and the first entries of `kv_indptr` are zero. -/
structure Room (a : DraftArgs) (k : KvBuffers) : Prop where
  indices : ∀ i, i < a.speculativeNumSteps →
    offset (a.entryLen i) (a.numSeqs * a.topk) ≤ k.kvIndicesStride
  indptr : a.numSeqs * a.topk < k.kvIndptrStride
  zero : ∀ i, i < a.speculativeNumSteps → k.kvIndptr (k.kvIndptrStride * i) = 0

def kvStart (a : DraftArgs) (stride : Nat) (p : Nat × Nat × Nat) : Nat :=
  stride * p.1 + offset (a.entryLen p.1) (p.2.1 * a.topk + p.2.2)

def kvLen (a : DraftArgs) (p : Nat × Nat × Nat) : Nat := a.seqLens p.2.1 + (p.1 + 1)

def kvEntry (a : DraftArgs) (reqToToken : Nat → Int) (p : Nat × Nat × Nat) (x : Nat) : Int :=
  if x < a.seqLens p.2.1 then reqToToken (a.tokenPool p.2.1 + x)
  else reqToToken (a.tokenPool p.2.1 + a.extendStart p.2.1 p.2.2 + (x - a.seqLens p.2.1))

/-- The entry of `kv_indptr` that a program stores, the last one instead of the first. -/
def zid (a : DraftArgs) (p : Nat × Nat × Nat) : Nat :=
  if p.2.1 * a.topk + p.2.2 = 0 then a.numSeqs * a.topk else p.2.1 * a.topk + p.2.2

theorem mem_programs {p : Nat × Nat × Nat} : p ∈ a.programs ↔
    p.1 < a.speculativeNumSteps ∧ p.2.1 < a.numSeqs ∧ p.2.2 < a.topk := by
  obtain ⟨i, r, b⟩ := p
  simp only [programs, List.mem_product, List.mem_range]

theorem nodup_programs : a.programs.Nodup :=
  List.nodup_range.product (List.nodup_range.product List.nodup_range)

theorem positions_eq {r b : Nat} (hb : b < a.topk) :
    a.positions (r * a.topk + b) = a.seqLens r := by
  rw [positions, Nat.mul_comm, Nat.mul_add_div (by omega), Nat.div_eq_of_lt hb, Nat.add_zero]

theorem branch_lt {r b : Nat} (hr : r < a.numSeqs) (hb : b < a.topk) :
    r * a.topk + b < a.numSeqs * a.topk := by
  have hmul := Nat.mul_le_mul_right a.topk (Nat.succ_le_of_lt hr)
  rw [Nat.succ_mul] at hmul
  omega

theorem branch_inj {r b r' b' : Nat} (hb : b < a.topk) (hb' : b' < a.topk)
    (heq : r * a.topk + b = r' * a.topk + b') : r = r' ∧ b = b' := by
  have hr : r = r' := by
    by_contra hne
    have hout := window_outside hb (Ne.symm hne)
    omega
  subst hr
  exact ⟨rfl, by omega⟩

theorem offset_entryLen (i r b : Nat) (hb : b ≤ a.topk) :
    offset (a.entryLen i) (r * a.topk + b) =
      offset a.seqLens r * a.topk + b * a.seqLens r + (r * a.topk + b) * (i + 1) := by
  rw [← offset_const (i + 1), ← offset_div a.seqLens r hb, ← offset_add]
  rfl

section Program

variable (reqToToken : Nat → Int) (k : KvBuffers) {p : Nat × Nat × Nat} (hp : p ∈ a.programs)

include hp

theorem zid_le : a.zid p ≤ a.numSeqs * a.topk := by
  obtain ⟨-, hr, hb⟩ := mem_programs.mp hp
  have hlt := branch_lt hr hb
  unfold zid
  split
  · exact Nat.le_refl _
  · exact hlt.le

theorem generate_eq : a.generateDraftDecodeKvIndices reqToToken a.positions k p = { k with
    kvIndices := fill k.kvIndices (a.kvStart k.kvIndicesStride p) (a.kvLen p)
      (a.kvEntry reqToToken p)
    kvIndptr := Function.update k.kvIndptr (k.kvIndptrStride * p.1 + a.zid p)
      (offset (a.entryLen p.1) (a.zid p)) } := by
  have hzid := zid_le hp
  obtain ⟨i, r, b⟩ := p
  obtain ⟨hi, hr, hb⟩ := mem_programs.mp hp
  have hblocks : min (numPages 128 (a.seqLens r) * 128) (a.seqLens r) = a.seqLens r :=
    Nat.min_eq_right (le_numPages_mul (by decide) _)
  have hlanes : min (nextPowerOf2 a.speculativeNumSteps) (i + 1) = i + 1 :=
    Nat.min_eq_right (Nat.le_trans hi (ExtendArgs.le_nextPowerOf2 _))
  have hseq : laneSum (nextPowerOf2 a.numSeqs) r a.seqLens = offset a.seqLens r :=
    sum_lanes _ (Nat.le_trans hr.le (ExtendArgs.le_nextPowerOf2 _))
  have hpositions : laneSum (nextPowerOf2 (a.topk * a.numSeqs)) (a.zid (i, r, b)) a.positions =
      offset a.positions (a.zid (i, r, b)) := by
    refine sum_lanes _ (Nat.le_trans ?_ (ExtendArgs.le_nextPowerOf2 _))
    rwa [Nat.mul_comm a.topk]
  have hstart : a.kvStart k.kvIndicesStride (i, r, b) = k.kvIndicesStride * i +
      (offset a.seqLens r * a.topk + r * (i + 1) * a.topk + b * (a.seqLens r + (i + 1))) := by
    rw [kvStart, offset_entryLen i r b hb.le]
    generalize i + 1 = iters
    rw [Nat.add_mul, Nat.mul_add b, Nat.mul_right_comm r a.topk]
    dsimp only
    omega
  have hend : offset (a.entryLen i) (a.zid (i, r, b)) =
      offset a.positions (a.zid (i, r, b)) + a.zid (i, r, b) * (i + 1) := by
    rw [← offset_const (i + 1), ← offset_add]
    rfl
  have hfill : fill k.kvIndices (a.kvStart k.kvIndicesStride (i, r, b)) (a.kvLen (i, r, b))
        (a.kvEntry reqToToken (i, r, b)) =
      fill (fill k.kvIndices (a.kvStart k.kvIndicesStride (i, r, b)) (a.seqLens r) fun x =>
        reqToToken (a.tokenPool r + x)) (a.kvStart k.kvIndicesStride (i, r, b) + a.seqLens r)
        (i + 1) fun x => reqToToken (a.tokenPool r + a.extendStart r b + x) := by
    refine (fill_append (fun x hx => ?_) fun x _ => ?_).symm
    · exact if_pos hx
    · rw [kvEntry, if_neg (by dsimp only; omega)]
      dsimp only
      rw [Nat.add_sub_cancel_left]
  rw [hfill, hend, hstart, ← hpositions, ← hseq]
  simp only [generateDraftDecodeKvIndices, blockedStore_eq, maskedStore_eq, hblocks, hlanes]
  rfl

end Program

theorem kvStart_disjoint {k : KvBuffers} (hroom : a.Room k) {p q : Nat × Nat × Nat}
    (hp : p ∈ a.programs) (hq : q ∈ a.programs) (hne : p ≠ q) :
    a.kvStart k.kvIndicesStride p + a.kvLen p ≤ a.kvStart k.kvIndicesStride q ∨
      a.kvStart k.kvIndicesStride q + a.kvLen q ≤ a.kvStart k.kvIndicesStride p := by
  -- iterations have rows of their own, and the branches of an iteration follow one another
  have hlen : ∀ p ∈ a.programs, a.kvLen p = a.entryLen p.1 (p.2.1 * a.topk + p.2.2) := by
    intro p hp
    rw [entryLen, positions_eq (mem_programs.mp hp).2.2]
    rfl
  have hrow : ∀ p ∈ a.programs, ∀ q ∈ a.programs, p.1 < q.1 →
      a.kvStart k.kvIndicesStride p + a.kvLen p ≤ a.kvStart k.kvIndicesStride q := by
    intro p hp q hq hlt
    obtain ⟨hi, hr, hb⟩ := mem_programs.mp hp
    have hfit := hroom.indices p.1 hi
    have hend : offset (a.entryLen p.1) (p.2.1 * a.topk + p.2.2) +
        a.entryLen p.1 (p.2.1 * a.topk + p.2.2) ≤ offset (a.entryLen p.1) (a.numSeqs * a.topk) :=
      offset_add_le (branch_lt hr hb)
    have hmul := Nat.mul_le_mul_left k.kvIndicesStride (Nat.succ_le_of_lt hlt)
    rw [Nat.mul_succ] at hmul
    rw [kvStart, kvStart, hlen p hp]
    omega
  rcases Nat.lt_trichotomy p.1 q.1 with hlt | heq | hgt
  · exact Or.inl (hrow p hp q hq hlt)
  · obtain ⟨-, -, hb⟩ := mem_programs.mp hp
    obtain ⟨-, -, hb'⟩ := mem_programs.mp hq
    have hz : p.2.1 * a.topk + p.2.2 ≠ q.2.1 * a.topk + q.2.2 := by
      intro hz
      obtain ⟨hr, hb⟩ := branch_inj hb hb' hz
      exact hne (Prod.ext heq (Prod.ext hr hb))
    have hdisjoint := offset_disjoint (a.entryLen p.1) hz
    rw [kvStart, kvStart, hlen p hp, hlen q hq, ← heq]
    omega
  · exact Or.inr (hrow q hq p hp hgt)

theorem zid_inj {k : KvBuffers} (hroom : a.Room k) {p q : Nat × Nat × Nat} (hp : p ∈ a.programs)
    (hq : q ∈ a.programs)
    (heq : k.kvIndptrStride * p.1 + a.zid p = k.kvIndptrStride * q.1 + a.zid q) : p = q := by
  have hlt : a.zid p < k.kvIndptrStride := Nat.lt_of_le_of_lt (zid_le hp) hroom.indptr
  have hlt' : a.zid q < k.kvIndptrStride := Nat.lt_of_le_of_lt (zid_le hq) hroom.indptr
  have hi : p.1 = q.1 := by
    by_contra hne
    have hout := window_outside hlt (Ne.symm hne)
    rw [Nat.mul_comm, Nat.mul_comm _ q.1] at heq
    omega
  have hzid : a.zid p = a.zid q := by
    rw [hi] at heq
    exact Nat.add_left_cancel heq
  obtain ⟨-, hr, hb⟩ := mem_programs.mp hp
  obtain ⟨-, hr', hb'⟩ := mem_programs.mp hq
  have hbranch : p.2.1 * a.topk + p.2.2 = q.2.1 * a.topk + q.2.2 := by
    have hbound := branch_lt hr hb
    have hbound' := branch_lt hr' hb'
    unfold zid at hzid
    split at hzid
    · split at hzid
      · omega
      · omega
    · split at hzid
      · omega
      · omega
  obtain ⟨hr, hb⟩ := branch_inj hb hb' hbranch
  exact Prod.ext hi (Prod.ext hr hb)

section Launch

variable (reqToToken : Nat → Int) {order : List (Nat × Nat × Nat)} (horder : order.Perm a.programs)
  {k : KvBuffers}

theorem launchKv_eq (hmem : ∀ p ∈ order, p ∈ a.programs) (k : KvBuffers) :
    a.launchKv reqToToken order k = { k with
      kvIndices := order.foldl (fun m p => fill m (a.kvStart k.kvIndicesStride p) (a.kvLen p)
        (a.kvEntry reqToToken p)) k.kvIndices
      kvIndptr := updateEach (fun p => k.kvIndptrStride * p.1 + a.zid p)
        (fun p _ => offset (a.entryLen p.1) (a.zid p)) order k.kvIndptr } := by
  induction order generalizing k with
  | nil => rfl
  | cons p order ih =>
      have hhead := generate_eq reqToToken k (hmem p List.mem_cons_self)
      exact (congrArg (a.launchKv reqToToken order) hhead).trans
        (ih (fun q hq => hmem q (List.mem_cons_of_mem _ hq)) _)

variable (hroom : a.Room k)

include horder hroom

theorem kvIndices_apply {p : Nat × Nat × Nat} (hp : p ∈ a.programs) {x : Nat} (hx : x < a.kvLen p) :
    (a.launchKv reqToToken order k).kvIndices (a.kvStart k.kvIndicesStride p + x) =
      a.kvEntry reqToToken p x := by
  rw [launchKv_eq reqToToken fun q hq => horder.mem_iff.mp hq]
  exact foldl_fill_apply (fun p hp q hq => kvStart_disjoint hroom (horder.mem_iff.mp hp)
    (horder.mem_iff.mp hq)) (horder.mem_iff.mpr hp) hx _

theorem kvIndptr_apply {i z : Nat} (hi : i < a.speculativeNumSteps) (hz : z ≤ a.numSeqs * a.topk)
    (hpos : 0 < a.numSeqs * a.topk) :
    (a.launchKv reqToToken order k).kvIndptr (k.kvIndptrStride * i + z) =
      offset (a.entryLen i) z := by
  rw [launchKv_eq reqToToken fun q hq => horder.mem_iff.mp hq]
  have htopk : 0 < a.topk := Nat.pos_of_mul_pos_left hpos
  have hnodup : (order.map fun p => k.kvIndptrStride * p.1 + a.zid p).Nodup := by
    refine (horder.nodup_iff.mpr nodup_programs).map_on fun p hp q hq heq => ?_
    exact zid_inj hroom (horder.mem_iff.mp hp) (horder.mem_iff.mp hq) heq
  have hstored : ∀ p ∈ a.programs, updateEach (fun p => k.kvIndptrStride * p.1 + a.zid p)
      (fun p _ => offset (a.entryLen p.1) (a.zid p)) order k.kvIndptr
        (k.kvIndptrStride * p.1 + a.zid p) = offset (a.entryLen p.1) (a.zid p) :=
    fun p hp => updateEach_mem _ _ hnodup (horder.mem_iff.mpr hp) k.kvIndptr
  rcases Nat.eq_zero_or_pos z with rfl | hzpos
  · -- no program stores the first entry
    rw [Nat.add_zero]
    refine (updateEach_notMem (fun p => k.kvIndptrStride * p.1 + a.zid p)
      (fun p _ => offset (a.entryLen p.1) (a.zid p)) (fun hmem => ?_) k.kvIndptr).trans
      (hroom.zero i hi)
    obtain ⟨p, hp, heq⟩ := List.mem_map.mp hmem
    have hp := horder.mem_iff.mp hp
    have hlt : a.zid p < k.kvIndptrStride := Nat.lt_of_le_of_lt (zid_le hp) hroom.indptr
    have hne : a.zid p ≠ 0 := by
      unfold zid
      split
      · exact Nat.ne_of_gt hpos
      · next hne => exact hne
    have hrow : p.1 = i := by
      by_contra hne
      have hout := window_outside hlt (Ne.symm hne)
      rw [Nat.mul_comm, Nat.mul_comm _ i] at heq
      omega
    rw [hrow] at heq
    omega
  · rcases Nat.eq_or_lt_of_le hz with rfl | hlt
    · have hmem : (i, 0, 0) ∈ a.programs :=
        mem_programs.mpr ⟨hi, Nat.pos_of_mul_pos_right hpos, htopk⟩
      have hzid : a.zid (i, 0, 0) = a.numSeqs * a.topk := if_pos (by simp)
      have hlast := hstored _ hmem
      rwa [hzid] at hlast
    · have hmem : (i, z / a.topk, z % a.topk) ∈ a.programs :=
        mem_programs.mpr ⟨hi, (Nat.div_lt_iff_lt_mul htopk).mpr hlt, Nat.mod_lt _ htopk⟩
      have hbranch : z / a.topk * a.topk + z % a.topk = z := by
        rw [Nat.mul_comm]
        exact Nat.div_add_mod _ _
      have hzid : a.zid (i, z / a.topk, z % a.topk) = z := by
        rw [zid, hbranch, if_neg (Nat.ne_of_gt hzpos)]
      have hentry := hstored _ hmem
      rwa [hzid] at hentry

end Launch

/-- The slots that branch `z` of the batch reads in an iteration. -/
def listed (k : KvBuffers) (iteration z : Nat) : List Int :=
  let start := k.kvIndptr (k.kvIndptrStride * iteration + z)
  (List.range (k.kvIndptr (k.kvIndptrStride * iteration + (z + 1)) - start)).map fun x =>
    k.kvIndices (k.kvIndicesStride * iteration + start + x)

theorem listed_launchKv (reqToToken : Nat → Int) {order : List (Nat × Nat × Nat)}
    (horder : order.Perm a.programs) {k : KvBuffers} (hroom : a.Room k) {i r b : Nat}
    (hi : i < a.speculativeNumSteps) (hr : r < a.numSeqs) (hb : b < a.topk) :
    listed (a.launchKv reqToToken order k) i (r * a.topk + b) =
      ((List.range (a.seqLens r)).map fun x => reqToToken (a.tokenPool r + x)) ++
        (List.range (i + 1)).map fun x =>
          reqToToken (a.tokenPool r + a.extendStart r b + x) := by
  have hlt := branch_lt hr hb
  have hmem : (i, r, b) ∈ a.programs := mem_programs.mpr ⟨hi, hr, hb⟩
  have hstrides : (a.launchKv reqToToken order k).kvIndicesStride = k.kvIndicesStride ∧
      (a.launchKv reqToToken order k).kvIndptrStride = k.kvIndptrStride := by
    rw [launchKv_eq reqToToken fun q hq => horder.mem_iff.mp hq]
    exact ⟨rfl, rfl⟩
  have hstart := kvIndptr_apply reqToToken horder hroom hi hlt.le (Nat.zero_lt_of_lt hlt)
  have hend := kvIndptr_apply reqToToken horder hroom hi hlt (Nat.zero_lt_of_lt hlt)
  have hlen : offset (a.entryLen i) (r * a.topk + b + 1) - offset (a.entryLen i) (r * a.topk + b) =
      a.seqLens r + (i + 1) := by
    rw [offset_succ, Nat.add_sub_cancel_left, entryLen, positions_eq hb]
  rw [listed, hstrides.1, hstrides.2, hstart, hend, hlen, List.range_add, List.map_append,
    List.map_map]
  congr 1
  · refine List.map_congr_left fun x hx => ?_
    have hx := List.mem_range.mp hx
    exact (kvIndices_apply reqToToken horder hroom hmem (Nat.lt_add_right _ hx)).trans (if_pos hx)
  · refine List.map_congr_left fun x hx => ?_
    have hx := List.mem_range.mp hx
    refine (kvIndices_apply reqToToken horder hroom hmem (Nat.add_lt_add_left hx _)).trans ?_
    rw [kvEntry, if_neg (by dsimp only; omega)]
    dsimp only
    rw [Nat.add_sub_cancel_left]

end DraftArgs

end SpecDecode.Eagle
