import SpecDecode.MemCache.SwaAllocator

/-!
# A batch in one pool

What an allocation for a batch does to the book of a pool: there are too few pages and nothing
changes, or each request goes on behind its last slot and then on new pages. The last slot of a
request is not read if its page is full.
-/

namespace SpecDecode.MemCache

open Buffer

variable {ps n : Nat} {used : Finset Int} {reqs : List ExtendReq}

structure ExtendReq.Tail (ps : Nat) (used : Finset Int) (r : ExtendReq) : Prop where
  mem : r.lastLoc ∈ used
  offset : r.lastLoc % ps = ((r.prefixLen - 1) % ps : Nat)
  last : ∀ x ∈ used, x / (ps : Int) = r.lastLoc / ps → x ≤ r.lastLoc

instance (ps : Nat) (used : Finset Int) (r : ExtendReq) : Decidable (r.Tail ps used) :=
  decidable_of_iff (r.lastLoc ∈ used ∧ r.lastLoc % ps = ((r.prefixLen - 1) % ps : Nat) ∧
    ∀ x ∈ used, x / (ps : Int) = r.lastLoc / ps → x ≤ r.lastLoc)
    ⟨fun h => ⟨h.1, h.2.1, h.2.2⟩, fun h => ⟨h.mem, h.offset, h.last⟩⟩

def ExtendReq.Partial (ps : Nat) (r : ExtendReq) : Prop := r.prefixLen % ps ≠ 0

instance (ps : Nat) (r : ExtendReq) : Decidable (r.Partial ps) :=
    inferInstanceAs (Decidable (_ ≠ _))

/-- A batch that a pool is asked for: a page that is used in part belongs to one request, which
goes on behind the last used slot. -/
structure BatchFits (ps : Nat) (used : Finset Int) (reqs : List ExtendReq) : Prop where
  le : ∀ r ∈ reqs, r.prefixLen ≤ r.seqLen
  tail : ∀ r ∈ reqs, r.Partial ps → r.Tail ps used
  distinct : reqs.Pairwise fun r r' => r.Partial ps → r'.Partial ps →
    r.lastLoc / (ps : Int) ≠ r'.lastLoc / ps

instance (ps : Nat) (used : Finset Int) (reqs : List ExtendReq) :
    Decidable (BatchFits ps used reqs) :=
  decidable_of_iff ((∀ r ∈ reqs, r.prefixLen ≤ r.seqLen) ∧
    (∀ r ∈ reqs, r.Partial ps → r.Tail ps used) ∧ reqs.Pairwise fun r r' => r.Partial ps →
      r'.Partial ps → r.lastLoc / (ps : Int) ≠ r'.lastLoc / ps)
    ⟨fun h => ⟨h.1, h.2.1, h.2.2⟩, fun h => ⟨h.le, h.tail, h.distinct⟩⟩

/-- The request with a last slot that fits its length, if its page is full. -/
def ExtendReq.settle (ps : Nat) (r : ExtendReq) : ExtendReq :=
  if r.Partial ps then r else { r with lastLoc := ((r.prefixLen - 1) % ps : Nat) }

/-- The slots of a batch, request by request. -/
structure Serves (b : ExtendArgs) (out : List Int) : Prop where
  length : out.length = (b.reqs.map (·.extendLen)).sum
  slot : ∀ i j, i < b.reqs.length → j < (b.req i).extendLen →
    out[b.before (·.extendLen) i + j]? = some (b.slot i j)

namespace ExtendReq

variable (r : ExtendReq)

@[simp] theorem settle_prefixLen : (r.settle ps).prefixLen = r.prefixLen := by
  unfold settle
  split <;> rfl

@[simp] theorem settle_seqLen : (r.settle ps).seqLen = r.seqLen := by
  unfold settle
  split <;> rfl

@[simp] theorem settle_extendLen : (r.settle ps).extendLen = r.extendLen := by
  simp only [extendLen, settle_prefixLen, settle_seqLen]

@[simp] theorem settle_numNewPages : (r.settle ps).numNewPages ps = r.numNewPages ps := by
  simp only [numNewPages, settle_prefixLen, settle_seqLen]

@[simp] theorem settle_partial : (r.settle ps).Partial ps ↔ r.Partial ps := by
  simp only [Partial, settle_prefixLen]

theorem settle_of_partial {r : ExtendReq} (h : r.Partial ps) : r.settle ps = r := if_pos h

end ExtendReq

namespace ExtendArgs

variable {b : ExtendArgs} {i j : Nat}

def settle (b : ExtendArgs) : ExtendArgs := { b with reqs := b.reqs.map (·.settle b.pageSize) }

theorem settle_req (hi : i < b.reqs.length) : b.settle.req i = (b.req i).settle b.pageSize := by
  rw [req, req, List.getD_eq_getElem _ _ hi, settle, List.getD_eq_getElem _ _ (by simpa using hi),
    List.getElem_map]

@[simp] theorem settle_length : b.settle.reqs.length = b.reqs.length := List.length_map _

theorem settle_before {f : ExtendReq → Nat} (hf : ∀ r, f (r.settle b.pageSize) = f r) (i : Nat) :
    b.settle.before f i = b.before f i := by
  rw [before, before, settle, ← List.map_take, List.map_map]
  exact congrArg List.sum (List.map_congr_left fun r _ => hf r)

theorem settle_slot (hps : 0 < b.pageSize) (hi : i < b.reqs.length) (j : Nat) :
    b.settle.slot i j = b.slot i j := by
  have hbefore : b.settle.before (·.numNewPages b.settle.pageSize) i =
      b.before (·.numNewPages b.pageSize) i := settle_before (fun r => r.settle_numNewPages) i
  unfold slot slotFrom
  simp only [settle_req hi, ExtendReq.settle_prefixLen, hbefore]
  by_cases hpart : (b.req i).Partial b.pageSize
  · rw [ExtendReq.settle_of_partial hpart]
    rfl
  · rw [ExtendReq.Partial, not_not] at hpart
    have hdiv := Nat.div_add_mod (b.req i).prefixLen b.pageSize
    rw [hpart, Nat.add_zero, Nat.mul_comm] at hdiv
    have hfull : numPages b.pageSize (b.req i).prefixLen * b.pageSize = (b.req i).prefixLen := by
      rw [numPages_eq hps, if_pos hdiv, hdiv]
    have hnot : ¬ (b.req i).prefixLen + j < numPages b.pageSize (b.req i).prefixLen *
        b.pageSize := by
      omega
    have hnot' : ¬ (b.req i).prefixLen + j <
        numPages b.settle.pageSize (b.req i).prefixLen * b.settle.pageSize := hnot
    rw [if_neg hnot, if_neg hnot']
    rfl

theorem writeReq_settle (hps : 0 < b.pageSize) (hi : i < b.reqs.length) (out : Nat → Int) :
    b.settle.writeReq out i = b.writeReq out i := by
  rw [writeReq, writeReq, writeFrom, writeFrom, settle_before (fun r => r.settle_extendLen),
    congrArg ExtendReq.extendLen (settle_req hi), ExtendReq.settle_extendLen]
  exact fill_congr fun j _ => settle_slot hps hi j

@[simp] theorem getNumNewPages_settle : b.settle.getNumNewPages = b.getNumNewPages := by
  have hsum := settle_before (b := b) (f := (·.numNewPages b.pageSize))
    (fun r => r.settle_numNewPages) b.reqs.length
  rw [before_length, ← settle_length, before_length] at hsum
  exact hsum

/-- The kernel writes the slots of a batch, whatever the last slots of full pages are. -/
theorem allocExtendKernel_foldl (hps : 0 < b.pageSize) (hle : ∀ r ∈ b.reqs, r.prefixLen ≤ r.seqLen)
    (out : Nat → Int) :
    b.allocExtendKernel out = (List.range b.settle.reqs.length).foldl b.settle.writeReq out := by
  rw [settle_length]
  refine List.foldl_ext _ _ _ fun m i hi => ?_
  have hi := List.mem_range.mp hi
  have hmem : b.req i ∈ b.reqs := by
    rw [req, List.getD_eq_getElem _ _ hi]
    exact List.getElem_mem hi
  rw [writeReq_settle hps hi]
  exact tritonProgram_eq hps hi (hle _ hmem) m (le_nextPowerOf2 _) (le_numPages_mul (by decide) _)

end ExtendArgs

theorem serves_foldl (b : ExtendArgs) (mem : Nat → Int) :
    Serves b ((List.range (b.reqs.map (·.extendLen)).sum).map
      ((List.range b.reqs.length).foldl b.writeReq mem)) where
  length := by rw [List.length_map, List.length_range]
  slot i j hi hj := by
    have hle := ExtendArgs.before_mono (a := b) (f := (·.extendLen)) (Nat.succ_le_of_lt hi)
    rw [Nat.succ_eq_add_one, ExtendArgs.before_succ hi, ExtendArgs.before_length] at hle
    rw [List.getElem?_map, List.getElem?_range (by omega), Option.map_some]
    exact congrArg some (ExtendArgs.foldl_writeReq_mem (fun t => List.mem_range.mp)
      (List.mem_range.mpr hi) hj mem)

theorem Serves.mem_iff {b : ExtendArgs} {out : List Int} (h : Serves b out) (x : Int) :
    x ∈ out ↔ ∃ i j, i < b.reqs.length ∧ j < (b.req i).extendLen ∧ b.slot i j = x := by
  constructor
  · intro hx
    obtain ⟨k, hk, rfl⟩ := List.getElem_of_mem hx
    obtain ⟨i, j, hi, hj, hpos⟩ := ExtendArgs.exists_before (a := b) (f := (·.extendLen))
      (Nat.le_refl _) (by rwa [ExtendArgs.before_length, ← h.length])
    have hslot := h.slot i j hi hj
    rw [← hpos, List.getElem?_eq_getElem hk, Option.some.injEq] at hslot
    exact ⟨i, j, hi, hj, hslot.symm⟩
  · rintro ⟨i, j, hi, hj, rfl⟩
    exact List.mem_of_getElem? (h.slot i j hi hj)

theorem Serves.nodup {b : ExtendArgs} {out : List Int} (h : Serves b out) (hv : b.Valid) :
    out.Nodup := by
  rw [List.nodup_iff_injective_get]
  intro k k' heq
  have hpos : ∀ k : Fin out.length, ∃ i j, i < b.reqs.length ∧ j < (b.req i).extendLen ∧
      k.1 = b.before (·.extendLen) i + j ∧ b.slot i j = out.get k := by
    intro k
    obtain ⟨i, j, hi, hj, hpos⟩ := ExtendArgs.exists_before (a := b) (f := (·.extendLen))
      (Nat.le_refl _) (by rw [ExtendArgs.before_length, ← h.length]; exact k.2)
    have hslot := h.slot i j hi hj
    rw [← hpos, List.getElem?_eq_getElem k.2, Option.some.injEq] at hslot
    exact ⟨i, j, hi, hj, hpos, hslot.symm⟩
  obtain ⟨i, j, hi, hj, hk, hslot⟩ := hpos k
  obtain ⟨i', j', hi', hj', hk', hslot'⟩ := hpos k'
  obtain ⟨rfl, rfl⟩ := ExtendArgs.slot_inj hv hi hj hi' hj' (by rw [hslot, hslot', heq])
  exact Fin.ext (hk.trans hk'.symm)

structure Pool.Inv (ps n : Nat) (p : Pool) : Prop where
  pageSize : p.allocator.pageSize = ps
  size : p.size / ps = n
  merged : p.allocator.needSort = false → p.allocator.releasePages = []
  booked : Booked ps n p.allocator.pages p.used

inductive BatchOutcome (ps n : Nat) (p : Pool) (reqs : List ExtendReq)
    (r : AllocResult × Allocator) : Prop where
  | faulted (few : Multiset.card p.allocator.pages < p.allocator.newPages reqs)
      (result : r.1 = .faulted)
  | refused (few : Multiset.card p.allocator.pages < p.allocator.newPages reqs)
      (result : r.1 = .refused) (pages : r.2.pages = p.allocator.pages)
      (inv : (p.behind r).Inv ps n)
  | slots (b : ExtendArgs) (out : List Int)
      (enough : p.allocator.newPages reqs ≤ Multiset.card p.allocator.pages)
      (result : r.1.out = some out) (pageSize : b.pageSize = ps)
      (settled : b.reqs = reqs.map (·.settle ps)) (valid : b.Valid) (serves : Serves b out)
      (free : ∀ page ∈ b.freePages, page ∈ p.allocator.pages)
      (taken : Multiset.card p.allocator.pages =
        Multiset.card r.2.pages + p.allocator.newPages reqs) (inv : (p.behind r).Inv ps n)

section Outcome

variable {a a' : Allocator} {p : Pool} {out : List Int} {mem : LaunchMem}

theorem BatchFits.valid (h : BatchFits ps used reqs) (hps : 0 < ps) (hsize : a.pageSize = ps)
    (hbook : Booked ps n a.pages used) (henough : a.newPages reqs ≤ a.freePages.length) :
    (a.args reqs).settle.Valid := by
  have hreq : ∀ i, i < (a.args reqs).settle.reqs.length → ∃ hi : i < reqs.length,
      (a.args reqs).settle.req i = reqs[i].settle ps := by
    intro i hi
    rw [ExtendArgs.settle_length] at hi
    refine ⟨hi, ?_⟩
    rw [ExtendArgs.settle_req hi, ExtendArgs.req, List.getD_eq_getElem _ _ hi, ← hsize]
    rfl
  have hpage : (a.args reqs).settle.pageSize = ps := hsize
  refine ⟨hpage ▸ hps, fun i hi => ?_, ?_, ?_, fun i hi hpos => ?_,
    fun i hi i' hi' hmod hmod' heq => ?_, fun i hi hmod page hfree => ?_⟩
  · obtain ⟨hlt, hsame⟩ := hreq i hi
    rw [hsame, ExtendReq.settle_prefixLen, ExtendReq.settle_seqLen]
    exact h.le _ (List.getElem_mem hlt)
  · rw [ExtendArgs.getNumNewPages_settle]
    exact henough
  · exact (List.nodup_append.mp (Multiset.coe_nodup.mp hbook.nodup)).1
  · obtain ⟨hlt, hsame⟩ := hreq i hi
    rw [hsame, ExtendReq.settle_prefixLen] at hpos ⊢
    rw [hpage]
    by_cases hpart : reqs[i].Partial ps
    · have htail := h.tail _ (List.getElem_mem hlt) hpart
      obtain ⟨q, -, hq⟩ := hbook.page _ htail.mem
      refine ⟨q, ?_⟩
      rw [ExtendReq.settle_of_partial hpart, ← Int.mul_ediv_add_emod reqs[i].lastLoc ps, hq,
        htail.offset, Int.mul_comm]
      push_cast
      rfl
    · refine ⟨0, ?_⟩
      rw [ExtendReq.settle, if_neg hpart, Nat.zero_mul, Nat.zero_add]
  · obtain ⟨hlt, hsame⟩ := hreq i hi
    obtain ⟨hlt', hsame'⟩ := hreq i' hi'
    rw [hpage] at hmod hmod' heq
    have hpart : reqs[i].Partial ps := by
      rwa [hsame, ExtendReq.settle_prefixLen] at hmod
    have hpart' : reqs[i'].Partial ps := by
      rwa [hsame', ExtendReq.settle_prefixLen] at hmod'
    rw [hsame, hsame', ExtendReq.settle_of_partial hpart, ExtendReq.settle_of_partial hpart'] at heq
    have hdistinct := List.pairwise_iff_getElem.mp h.distinct
    rcases Nat.lt_trichotomy i i' with hii | hii | hii
    · exact absurd heq (hdistinct i i' hlt hlt' hii hpart hpart')
    · exact hii
    · exact absurd heq.symm (hdistinct i' i hlt' hlt hii hpart' hpart)
  · obtain ⟨hlt, hsame⟩ := hreq i hi
    rw [hpage] at hmod ⊢
    have hpart : reqs[i].Partial ps := by
      rwa [hsame, ExtendReq.settle_prefixLen] at hmod
    rw [hsame, ExtendReq.settle_of_partial hpart]
    have hfree := (hbook.mem_iff page).mp (Allocator.mem_pages_of_free hfree)
    exact hfree.2 _ (h.tail _ (List.getElem_mem hlt) hpart).mem

theorem BatchFits.tail_settled (h : BatchFits ps used reqs) {b : ExtendArgs}
    (hreqs : b.reqs = reqs.map (·.settle ps)) {i : Nat} (hi : i < b.reqs.length)
    (hpart : (b.req i).Partial ps) : (b.req i).Tail ps used := by
  have hlt : i < reqs.length := by
    rwa [hreqs, List.length_map] at hi
  have hsame : b.req i = reqs[i].settle ps := by
    rw [ExtendArgs.req, List.getD_eq_getElem _ _ hi]
    simp only [hreqs, List.getElem_map]
  rw [hsame, ExtendReq.settle_partial] at hpart
  rw [hsame, ExtendReq.settle_of_partial hpart]
  exact h.tail _ (List.getElem_mem hlt) hpart

theorem BatchFits.fresh (h : BatchFits ps used reqs) {b : ExtendArgs} (hv : b.Valid)
    (hsize : b.pageSize = ps) (hreqs : b.reqs = reqs.map (·.settle ps)) {pages : Multiset Nat}
    (hbook : Booked ps n pages used) (hfree : ∀ page ∈ b.freePages, page ∈ pages) {i j : Nat}
    (hi : i < b.reqs.length) (hj : j < (b.req i).extendLen) : b.slot i j ∉ used := by
  intro hused
  have hdiv := (ExtendArgs.slot_div_mod hv hi j).1
  rcases ExtendArgs.page_cases hv hi hj with ⟨hmod, hpage, hquot⟩ | ⟨k, hk, hidx, hpage, -⟩
  · rw [hsize] at hmod hpage hdiv
    have htail := h.tail_settled hreqs hi hmod
    have hle := htail.last _ hused (hdiv.trans hpage)
    have hold : (b.req i).prefixLen + j < numPages b.pageSize (b.req i).prefixLen * b.pageSize := by
      by_contra hnew
      have hbad := (Nat.le_div_iff_mul_le hv.pageSize_pos).mpr (Nat.not_lt.mp hnew)
      rw [hquot, numPages_eq hv.pageSize_pos] at hbad
      split at hbad
      · next hfull =>
          refine hmod ?_
          rw [← hsize, ← hfull, Nat.mul_mod_left]
      · omega
    have hslot : b.slot i j = (b.req i).lastLoc + 1 + j := if_pos hold
    omega
  · have hmem := hfree _ (ExtendArgs.freePage_mem hv hidx)
    rw [hsize] at hdiv
    exact ((hbook.mem_iff _).mp hmem).2 _ hused (hdiv.trans hpage)

theorem BatchFits.booked (h : BatchFits ps used reqs) {b : ExtendArgs} (hv : b.Valid)
    (hsize : b.pageSize = ps) (hreqs : b.reqs = reqs.map (·.settle ps)) (hserves : Serves b out)
    {pages rest : Multiset Nat} (hbook : Booked ps n pages used)
    (hsplit : pages = (b.freePages.take b.getNumNewPages : Multiset Nat) + rest) :
    Booked ps n rest (used ∪ out.toFinset) := by
  refine hbook.take hsplit (fun p hp => ?_) fun x hx => ?_
  · obtain ⟨i, j, hi, hj, -, hpage⟩ := (ExtendArgs.mem_take_iff hv p).mp (Multiset.mem_coe.mp hp)
    refine ⟨b.slot i j, List.mem_toFinset.mpr ((hserves.mem_iff _).mpr ⟨i, j, hi, hj, rfl⟩), ?_⟩
    rw [← hsize]
    exact (ExtendArgs.slot_div_mod hv hi j).1.trans hpage
  · obtain ⟨i, j, hi, hj, rfl⟩ := (hserves.mem_iff x).mp (List.mem_toFinset.mp hx)
    have hdiv := (ExtendArgs.slot_div_mod hv hi j).1
    rw [hsize] at hdiv
    rcases ExtendArgs.page_cases hv hi hj with ⟨hmod, hpage, -⟩ | ⟨k, -, hidx, hpage, -⟩
    · rw [hsize] at hmod hpage
      exact .inl ⟨_, (h.tail_settled hreqs hi hmod).mem, (hdiv.trans hpage).symm⟩
    · refine .inr ⟨_, Multiset.mem_coe.mpr ?_, hdiv.trans hpage⟩
      have hlt := Nat.lt_of_lt_of_le hidx hv.enough
      rw [ExtendArgs.freePage, List.getD_eq_getElem _ _ hlt, List.mem_take_iff_getElem]
      exact ⟨_, Nat.lt_min.mpr ⟨hidx, hlt⟩, rfl⟩

/-- Behind a merge the pages that a batch needs are given out if there are that many. -/
theorem Pool.Inv.giveOut (h : p.Inv ps n) (hps : 0 < ps) (hfits : BatchFits ps p.used reqs)
    (hsize : a'.pageSize = ps) (hpages : a'.pages = p.allocator.pages)
    (hmerged : a'.needSort = false → a'.releasePages = [])
    (hreach : a'.newPages reqs ≤ a'.freePages.length ∨
      Multiset.card p.allocator.pages < a'.newPages reqs)
    (hserves : a'.newPages reqs ≤ a'.freePages.length → Serves (a'.args reqs).settle out) :
    BatchOutcome ps n p reqs (a'.giveOut (a'.newPages reqs) out) := by
  have hnew : p.allocator.newPages reqs = a'.newPages reqs :=
    Allocator.newPages_congr (h.pageSize.trans hsize.symm)
  have hbook := h.booked
  rw [← hpages] at hbook
  have hcard := Allocator.card_pages a'
  rw [hpages] at hcard
  by_cases henough : a'.newPages reqs ≤ a'.freePages.length
  · obtain ⟨hgive, hsplit⟩ := Allocator.giveOut_pages out henough
    have hv := hfits.valid hps hsize hbook henough
    have hnum : (a'.args reqs).settle.getNumNewPages = a'.newPages reqs :=
      ExtendArgs.getNumNewPages_settle
    have hreqs : (a'.args reqs).settle.reqs = reqs.map (·.settle ps) := by
      rw [← hsize]
      rfl
    refine .slots (a'.args reqs).settle out (by omega) (by rw [hgive]; rfl) hsize hreqs hv
      (hserves henough) (fun page hpage => hpages ▸ Allocator.mem_pages_of_free hpage) ?_ ?_
    · have hcount := congrArg Multiset.card hsplit
      rw [Multiset.card_add, Multiset.coe_card, List.length_take_of_le henough, hpages] at hcount
      rw [hgive, hnew, hcount, Nat.add_comm]
    rw [hgive]
    refine ⟨hsize, h.size, hmerged, ?_⟩
    exact hfits.booked hv hsize hreqs (hserves henough) hbook (by rw [hnum]; exact hsplit)
  · have hgive : a'.giveOut (a'.newPages reqs) out = (.refused, a') := if_pos (by omega)
    rw [hgive]
    refine .refused (hnew ▸ hreach.resolve_left henough) rfl hpages ⟨hsize, h.size, hmerged, ?_⟩
    change Booked ps n a'.pages (p.used ∪ ∅)
    rw [Finset.union_empty]
    exact hbook

/-- A merge changes nothing but where the free pages are. -/
theorem makeRoom_spec (needed : Nat) (a : Allocator) :
    (a.makeRoom needed).pages = a.pages ∧
      ((a.needSort = false → a.releasePages = []) →
        (a.makeRoom needed).needSort = false → (a.makeRoom needed).releasePages = []) := by
  refine ⟨Allocator.makeRoom_pages needed a, ?_⟩
  unfold Allocator.makeRoom Allocator.mergeAndSortFree
  split
  · split
    · exact fun _ _ => rfl
    · exact id
  · exact id

/-- Without sorting all free pages are in the free list. -/
theorem Pool.Inv.reaches (h : p.Inv ps n) (reqs : List ExtendReq) : p.allocator.Reaches reqs := by
  rw [Allocator.Reaches]
  cases hsort : p.allocator.needSort with
  | true => exact .inl rfl
  | false =>
      rw [h.merged hsort, List.length_nil]
      omega

theorem Pool.Inv.room (h : p.Inv ps n) {needed : Nat}
    (hneeded : p.allocator.newPages reqs ≤ needed) :
    p.allocator.newPages reqs ≤ (p.allocator.makeRoom needed).freePages.length ∨
      Multiset.card p.allocator.pages < p.allocator.newPages reqs := by
  rw [Allocator.card_pages, Allocator.makeRoom_reaches hneeded]
  exact h.reaches reqs

theorem Pool.Inv.launch (h : p.Inv ps n) {needed : Nat}
    (hneeded : p.allocator.newPages reqs ≤ needed) (hroom : p.allocator.makeRoom needed = a')
    {mapped : Nat → Bool} {loads : Nat → List Nat}
    (hloads : ∀ i, i < reqs.length → ∀ k, k ∈ loads i ↔
      (a'.args reqs).before (·.numNewPages a'.pageSize) i ≤ k ∧
        k < (a'.args reqs).before (·.numNewPages a'.pageSize) (i + 1))
    {r : AllocResult × Allocator} (hr : BatchOutcome ps n p reqs r) :
    BatchOutcome ps n p reqs
      (if (a'.args reqs).faults mapped loads then (.faulted, a') else r) := by
  split
  · next hfault =>
      have hcan := ((h.reaches reqs).faults_iff hneeded hroom hloads).mp hfault
      rw [Allocator.CanRefuse, Classical.not_imp, ← Allocator.card_pages] at hcan
      exact .faulted hcan.1 rfl
  · exact hr

theorem Pool.Inv.allocExtendBatch (h : p.Inv ps n) (hps : 0 < ps)
    (hfits : BatchFits ps p.used reqs) (mem : LaunchMem) :
    BatchOutcome ps n p reqs (p.allocator.allocExtendBatch mem reqs) := by
  have hle := Allocator.newPages_le (a := p.allocator) (h.pageSize ▸ hps) hfits.le
  unfold Allocator.allocExtendBatch
  simp only
  generalize hroom : p.allocator.makeRoom _ = a'
  have hsize : a'.pageSize = ps := by
    rw [← hroom, Allocator.makeRoom_pageSize, h.pageSize]
  obtain ⟨hpages, hmerged⟩ := makeRoom_spec _ p.allocator
  have hreach := h.room (Nat.le_succ_of_le hle)
  rw [hroom] at hpages hmerged
  rw [Nat.succ_eq_add_one, hroom,
    Allocator.newPages_congr (h.pageSize.trans hsize.symm)] at hreach
  have hargs : 0 < (a'.args reqs).pageSize := hps.trans_eq hsize.symm
  refine h.launch (Nat.le_succ_of_le hle) hroom
    (fun i hi k => Allocator.mem_extendLoads hargs hi (hfits.le _ (Allocator.req_mem hi)) k) ?_
  refine h.giveOut hps hfits hsize hpages (hmerged h.merged) hreach fun _ => ?_
  rw [ExtendArgs.allocExtendKernel_foldl hargs hfits.le]
  have hsum : (reqs.map (·.extendLen)).sum =
      ((a'.args reqs).settle.reqs.map (·.extendLen)).sum := by
    have hbefore := ExtendArgs.settle_before (b := a'.args reqs) (f := (·.extendLen))
      (fun r => r.settle_extendLen) reqs.length
    rw [show reqs.length = (a'.args reqs).reqs.length from rfl, ExtendArgs.before_length,
      ← ExtendArgs.settle_length, ExtendArgs.before_length] at hbefore
    exact hbefore.symm
  rw [hsum]
  exact serves_foldl _ mem.out

theorem Pool.Inv.allocDecodeBatch (h : p.Inv ps n) (hps : 2 ≤ ps)
    (hfits : BatchFits ps p.used reqs) (hdec : ∀ r ∈ reqs, r.seqLen = r.prefixLen + 1)
    (mem : LaunchMem) : BatchOutcome ps n p reqs (p.allocator.allocDecodeBatch mem reqs) := by
  have hpos : 0 < ps := Nat.lt_of_lt_of_le Nat.zero_lt_two hps
  have hle := Allocator.newPages_le_length (a := p.allocator) (h.pageSize ▸ hpos) hdec
  unfold Allocator.allocDecodeBatch
  simp only
  generalize hroom : p.allocator.makeRoom _ = a'
  have hsize : a'.pageSize = ps := by
    rw [← hroom, Allocator.makeRoom_pageSize, h.pageSize]
  obtain ⟨hpages, hmerged⟩ := makeRoom_spec reqs.length p.allocator
  have hreach := h.room hle
  rw [hroom] at hpages hmerged
  rw [hroom, Allocator.newPages_congr (h.pageSize.trans hsize.symm)] at hreach
  have hargs : 0 < a'.pageSize := hpos.trans_eq hsize.symm
  rw [Allocator.getNumNewPagesDecode_eq hdec (.inl (hps.trans_eq hsize.symm)),
    Allocator.allocDecodeKernel_slots hdec hargs]
  refine h.launch hle hroom (fun i hi k => Allocator.mem_decodeLoads hdec hargs hi k) ?_
  refine h.giveOut hpos hfits hsize hpages (hmerged h.merged) hreach fun _ => ?_
  -- each request has one new slot
  have hlen : ∀ r ∈ (a'.args reqs).reqs, r.extendLen = 1 := fun r hr => by
    rw [ExtendReq.extendLen, hdec r hr, Nat.add_sub_cancel_left]
  have hbefore : ∀ i, i ≤ reqs.length → (a'.args reqs).settle.before (·.extendLen) i = i := by
    intro i hi
    rw [ExtendArgs.settle_before fun r => r.settle_extendLen, Allocator.before_congr hlen,
      ExtendArgs.before, List.map_const', List.sum_replicate_nat,
      Nat.mul_one]
    exact List.length_take_of_le hi
  constructor
  · rw [List.length_map, List.length_range, ← ExtendArgs.before_length, ExtendArgs.settle_length]
    exact (hbefore _ (Nat.le_refl _)).symm
  · intro i j hi hj
    rw [ExtendArgs.settle_length] at hi
    have hmem : (a'.args reqs).req i ∈ (a'.args reqs).reqs := Allocator.req_mem hi
    rw [ExtendArgs.settle_req hi, ExtendReq.settle_extendLen, hlen _ hmem, Nat.lt_one_iff] at hj
    have hrange := List.getElem?_range (n := reqs.length) (i := i) hi
    rw [hj, Nat.add_zero, hbefore i (Nat.le_of_lt hi), List.getElem?_map, hrange,
      Option.map_some, ExtendArgs.settle_slot hargs hi]

theorem Pool.Inv.allocDecodeBatch_faulted (h : p.Inv ps n) (hps : 0 < ps)
    (hdec : ∀ r ∈ reqs, r.seqLen = r.prefixLen + 1) (mem : LaunchMem) :
    (p.allocator.allocDecodeBatch mem reqs).1 = .faulted ↔
      ¬ p.allocator.CanRefuse mem.mapped reqs := by
  have hle := Allocator.newPages_le_length (a := p.allocator) (h.pageSize ▸ hps) hdec
  unfold Allocator.allocDecodeBatch
  simp only
  generalize hroom : p.allocator.makeRoom _ = a'
  have hsize : 0 < a'.pageSize := by
    rwa [← hroom, Allocator.makeRoom_pageSize, h.pageSize]
  rw [← (h.reaches reqs).faults_iff hle hroom
    fun i hi k => Allocator.mem_decodeLoads hdec hsize hi k]
  split
  · next hfault => exact iff_of_true rfl hfault
  · next hfault =>
      refine iff_of_false ?_ hfault
      unfold Allocator.giveOut
      split <;> nofun

/-- Slots of pages of one slot are those of a new request. -/
def tokensReq (needSize : Nat) : ExtendReq := ⟨0, needSize, -1⟩

def Pool.tokenBatch (needSize : Nat) (p : Pool) : AllocResult × Allocator :=
  let a := p.allocator.makeRoom needSize
  a.giveOut needSize ((a.freePages.take needSize).map fun (slot : Nat) => (slot : Int))

@[simp] theorem flatMap_pageSlots_one (l : List Nat) : l.flatMap (pageSlots 1) = l := by
  have hone : pageSlots 1 = fun page => [page] := by
    funext page
    simp [pageSlots]
  rw [hone, List.flatMap_singleton']

theorem Pool.alloc_eq (hone : p.allocator.pageSize = 1) (needSize : Nat) :
    p.alloc needSize = (p.tokenBatch needSize).1.out.map fun out =>
      (out, p.behind (p.tokenBatch needSize)) := by
  unfold Pool.alloc Allocator.alloc Pool.tokenBatch Allocator.takePages Allocator.giveOut
  simp only [hone, Nat.div_one, Allocator.makeRoom_pageSize, flatMap_pageSlots_one]
  split
  · rfl
  · rfl

theorem tokensReq_newPages (hone : a.pageSize = 1) (needSize : Nat) :
    a.newPages [tokensReq needSize] = needSize := by
  simp [Allocator.newPages, hone, tokensReq, numPages]

theorem tokensReq_fits (needSize : Nat) : BatchFits 1 used [tokensReq needSize] where
  le r hr := by
    obtain rfl := List.mem_singleton.mp hr
    exact Nat.zero_le _
  tail r hr hpart := absurd (Nat.mod_one _) hpart
  distinct := List.pairwise_singleton _ _

theorem Pool.Inv.tokenBatch (h : p.Inv 1 n) (needSize : Nat) :
    BatchOutcome 1 n p [tokensReq needSize] (p.tokenBatch needSize) := by
  unfold Pool.tokenBatch
  simp only
  have hsize : (p.allocator.makeRoom needSize).pageSize = 1 := by
    rw [Allocator.makeRoom_pageSize, h.pageSize]
  obtain ⟨hpages, hmerged⟩ := makeRoom_spec needSize p.allocator
  have hreach := h.room (tokensReq_newPages h.pageSize needSize).le
  rw [Allocator.newPages_congr (h.pageSize.trans hsize.symm)] at hreach
  generalize p.allocator.makeRoom needSize = a' at *
  have houtcome : ∀ out, _ → BatchOutcome 1 n p [tokensReq needSize] (a'.giveOut _ out) :=
    fun out => h.giveOut Nat.one_pos (tokensReq_fits needSize) hsize hpages
      (hmerged h.merged) hreach
  rw [tokensReq_newPages hsize] at houtcome
  refine houtcome _ fun henough => ⟨?_, fun i j hi hj => ?_⟩
  · rw [List.length_map, List.length_take_of_le henough]
    simp [ExtendArgs.settle, Allocator.args, tokensReq, ExtendReq.extendLen]
  · obtain rfl : i = 0 := Nat.lt_one_iff.mp hi
    rw [ExtendArgs.settle_req Nat.one_pos, ExtendReq.settle_extendLen] at hj
    have hj : j < needSize := hj
    rw [ExtendArgs.settle_slot (hsize ▸ Nat.one_pos : 0 < a'.pageSize) Nat.one_pos,
      ExtendArgs.before_zero, Nat.zero_add, List.getElem?_map, List.getElem?_take_of_lt hj,
      List.getElem?_eq_getElem (by omega), Option.map_some]
    simp [ExtendArgs.slot, ExtendArgs.slotFrom, ExtendArgs.req, Allocator.args, tokensReq, hsize,
      numPages, ExtendArgs.before_zero, ExtendArgs.freePage, Nat.mod_one,
      List.getElem?_eq_getElem (hj.trans_le henough)]

end Outcome

end SpecDecode.MemCache
