import SpecDecode.MemCache.PoolBatch

/-!
# Steps of the hybrid allocator

The invariant of the hybrid allocator: both pools are booked, and the mapping pairs full slots
with all used window slots, page by page. What waits in a free group are whole pages. Slots are
given out on both sides at the same places of their pages, and given back together or the
window slots first.
-/

namespace SpecDecode.MemCache

open Function

section Free

variable {ps n : Nat} {p : Pool} {l : List Int} {x : Int}

private theorem toNat_div (hx : 0 < x) (q : Nat) : x.toNat / ps = q ↔ x / ps = (q : Int) := by
  rw [← Int.ofNat_inj, Int.natCast_ediv, Int.toNat_of_nonneg hx.le]

private theorem mem_touched_toNat (hl : ∀ x ∈ l, 0 < x) (q : Nat) :
    q ∈ touched ps (l.map Int.toNat) ↔ ∃ x ∈ l.toFinset, x / ps = (q : Int) := by
  rw [touched, List.mem_toFinset, List.map_map, List.mem_map]
  constructor
  · rintro ⟨x, hx, hpage⟩
    exact ⟨x, List.mem_toFinset.mpr hx, (toNat_div (hl x hx) q).mp hpage⟩
  · rintro ⟨x, hx, hpage⟩
    have hx := List.mem_toFinset.mp hx
    exact ⟨x, hx, (toNat_div (hl x hx) q).mpr hpage⟩

theorem Allocator.free_taken {a : Allocator} (hnodup : l.Nodup) (hpos : ∀ x ∈ l, 0 < x) :
    ∃ taken : Multiset Nat, (a.free (l.map Int.toNat)).pages = a.pages + taken ∧ taken.Nodup ∧
      ∀ q : Nat, q ∈ taken ↔ ∃ x ∈ l.toFinset, x / a.pageSize = (q : Int) := by
  have hmem : ∀ q, q ∈ touched a.pageSize (l.map Int.toNat) ↔ _ := mem_touched_toNat hpos
  unfold Allocator.free
  split
  · next hnil =>
      obtain rfl := List.map_eq_nil_iff.mp hnil
      exact ⟨0, (add_zero _).symm, Multiset.nodup_zero, by simp⟩
  · split
    · next hone =>
        refine ⟨(l.map Int.toNat : List Nat), ?_, Multiset.coe_nodup.mpr ?_, fun q => ?_⟩
        · split <;> simp only [pages, ← Multiset.coe_add] <;> abel
        · refine hnodup.map_on fun x hx y hy heq => ?_
          rw [← Int.toNat_of_nonneg (hpos x hx).le, heq, Int.toNat_of_nonneg (hpos y hy).le]
        · rw [← hmem, touched, List.mem_toFinset, hone]
          simp
    · refine ⟨(touched a.pageSize (l.map Int.toNat)).val, ?_, Finset.nodup _, hmem⟩
      have hsort : (((touched a.pageSize (l.map Int.toNat)).sort : List Nat) : Multiset Nat) =
          (touched a.pageSize (l.map Int.toNat)).val := Finset.sort_eq _ _
      split <;> simp only [pages, ← Multiset.coe_add, hsort] <;> abel

theorem Allocator.free_merged {a : Allocator} {l : List Nat}
    (h : a.needSort = false → a.releasePages = []) :
    (a.free l).needSort = false → (a.free l).releasePages = [] := by
  unfold Allocator.free
  intro hsort
  split at hsort
  · next hnil =>
      rw [if_pos hnil]
      exact h hsort
  · next hnil =>
      rw [if_neg hnil]
      split at hsort <;> split at hsort
      · next hone hneed => exact absurd (hneed.symm.trans hsort) (by decide)
      · next hone hneed =>
          rw [if_pos hone, if_neg hneed]
          exact h hsort
      · next hone hneed => exact absurd (hneed.symm.trans hsort) (by decide)
      · next hone hneed =>
          rw [if_neg hone]
          simp only [if_neg hneed]
          exact h hsort

theorem Pool.Inv.free (h : p.Inv ps n) (hnodup : l.Nodup)
    (hwhole : WholePages ps p.used l.toFinset) : (p.free l).Inv ps n := by
  have hpos : ∀ x ∈ l, 0 < x := fun x hx => h.booked.pos (hwhole.1 (List.mem_toFinset.mpr hx))
  obtain ⟨taken, hpages, htaken, hmem⟩ := p.allocator.free_taken hnodup hpos
  refine ⟨(Allocator.free_pageSize _ _).trans h.pageSize, h.size,
    Allocator.free_merged h.merged, ?_⟩
  rw [h.pageSize] at hmem
  change Booked ps n (p.allocator.free (l.map Int.toNat)).pages (p.used \ l.toFinset)
  rw [hpages]
  exact h.booked.give hwhole htaken hmem

theorem Pool.Inv.new (size ps : Nat) (needSort : Bool) :
    (Pool.new size ps needSort).Inv ps (size / ps) where
  pageSize := rfl
  size := rfl
  merged _ := rfl
  booked := by
    have hpages : (Pool.new size ps needSort).allocator.pages =
        (List.range' 1 (size / ps) : List Nat) := by
      simp [Pool.new, Allocator.new, Allocator.pages]
    rw [hpages]
    exact Booked.new ps (size / ps)

theorem Pool.Inv.clear (h : p.Inv ps n) : p.clear.Inv ps n := by
  have hnew := Pool.Inv.new p.size p.allocator.pageSize p.allocator.needSort
  rw [h.pageSize, h.size] at hnew
  rw [Pool.clear, h.pageSize]
  exact hnew

theorem Pool.Inv.availableSize_le (h : p.Inv ps n) : p.availableSize ≤ p.size := by
  have hcard := h.booked.card
  rw [Allocator.card_pages] at hcard
  have hle : p.allocator.freePages.length + p.allocator.releasePages.length ≤ p.size / ps := by
    rw [h.size]
    omega
  calc p.availableSize
      = (p.allocator.freePages.length + p.allocator.releasePages.length) * ps := by
        rw [Pool.availableSize, Allocator.availableSize, h.pageSize]
    _ ≤ p.size / ps * ps := Nat.mul_le_mul_right ps hle
    _ ≤ p.size := Nat.div_mul_le_self _ _

theorem Pool.Inv.availableSize_div (h : p.Inv ps n) (hps : 0 < ps) :
    p.availableSize / ps = Multiset.card p.allocator.pages := by
  rw [Pool.availableSize, Allocator.availableSize, h.pageSize, Nat.mul_div_cancel _ hps,
    Allocator.card_pages]

end Free

namespace SwaAllocator

variable {m : Int → Int} {out outSwa : List Int} {x y : Int}

theorem assign_of_notMem (h : x ∉ out) : assign m out outSwa x = m x := by
  unfold assign
  induction out generalizing m outSwa with
  | nil => rfl
  | cons z out ih =>
      cases outSwa with
      | nil => rfl
      | cons w outSwa =>
          obtain ⟨hne, hnot⟩ := not_or.mp (mt List.mem_cons.mpr h)
          rw [List.zip_cons_cons, List.foldl_cons, ih hnot]
          exact update_of_ne hne w m

theorem assign_of_mem (hnodup : out.Nodup) {k : Nat} (hx : out[k]? = some x)
    (hy : outSwa[k]? = some y) : assign m out outSwa x = y := by
  unfold assign
  induction out generalizing m outSwa k with
  | nil => cases hx
  | cons z out ih =>
      cases outSwa with
      | nil => cases hy
      | cons w outSwa =>
          obtain ⟨hnot, hnodup⟩ := List.nodup_cons.mp hnodup
          rw [List.zip_cons_cons, List.foldl_cons]
          cases k with
          | zero =>
              obtain rfl := Option.some.inj hx
              obtain rfl := Option.some.inj hy
              have hkeep : assign (update m z w) out outSwa z = update m z w z :=
                assign_of_notMem hnot
              rw [assign] at hkeep
              rw [hkeep, update_self]
          | succ k => exact ih hnodup hx hy

section Serve

variable {ps : Nat} {used used' : Finset Int} {b b' : ExtendArgs}

structure Mirrors (ps : Nat) (m : Int → Int) (used : Finset Int) (b b' : ExtendArgs) : Prop where
  length : b'.reqs.length = b.reqs.length
  prefixLen : ∀ i, i < b.reqs.length → (b'.req i).prefixLen = (b.req i).prefixLen
  seqLen : ∀ i, i < b.reqs.length → (b'.req i).seqLen = (b.req i).seqLen
  last : ∀ i, i < b.reqs.length → (b.req i).Partial ps → (b.req i).lastLoc ∈ used ∧
    m (b.req i).lastLoc ≠ 0 ∧ (b'.req i).lastLoc = m (b.req i).lastLoc

theorem Mirrors.extendLen (h : Mirrors ps m used b b') {i : Nat} (hi : i < b.reqs.length) :
    (b'.req i).extendLen = (b.req i).extendLen := by
  rw [ExtendReq.extendLen, ExtendReq.extendLen, h.prefixLen i hi, h.seqLen i hi]

theorem Mirrors.before (h : Mirrors ps m used b b') {i : Nat} (hi : i ≤ b.reqs.length) :
    b'.before (·.extendLen) i = b.before (·.extendLen) i := by
  induction i with
  | zero => rfl
  | succ i ih =>
      have hlt : i < b.reqs.length := hi
      rw [ExtendArgs.before_succ hlt, ExtendArgs.before_succ (h.length ▸ hlt), ih (by omega),
        h.extendLen hlt]

/-- Two tokens are on one page if they belong to one page of one sequence. -/
theorem page_eq_iff (hv : b.Valid) {i j i' j' : Nat} (hi : i < b.reqs.length)
    (hj : j < (b.req i).extendLen) (hi' : i' < b.reqs.length) (hj' : j' < (b.req i').extendLen) :
    b.slot i j / b.pageSize = b.slot i' j' / b.pageSize ↔ i = i' ∧
      ((b.req i).prefixLen + j) / b.pageSize = ((b.req i').prefixLen + j') / b.pageSize := by
  rw [(ExtendArgs.slot_div_mod hv hi j).1, (ExtendArgs.slot_div_mod hv hi' j').1]
  refine ⟨ExtendArgs.page_inj hv hi hj hi' hj', ?_⟩
  rintro ⟨rfl, hquot⟩
  have hside : ∀ t, (b.req i).prefixLen + t < numPages b.pageSize (b.req i).prefixLen * b.pageSize ↔
      ((b.req i).prefixLen + t) / b.pageSize < numPages b.pageSize (b.req i).prefixLen :=
    fun t => (Nat.div_lt_iff_lt_mul hv.pageSize_pos).symm
  unfold ExtendArgs.page
  simp only [hside, hquot]

variable (hpair : Paired ps m used used') (hmirror : Mirrors ps m used b b')
variable (hv : b.Valid) (hv' : b'.Valid) (hsize : b.pageSize = ps) (hsize' : b'.pageSize = ps)

include hpair hmirror hv hv' hsize hsize' in
/-- A new slot is on the page of a used slot if their partners are on one page. -/
theorem page_old_iff (hfresh : ∀ k, k < b.getNumNewPages → ∀ x ∈ used, x / ps ≠ b.freePage k)
    (hfresh' : ∀ k, k < b'.getNumNewPages → ∀ x ∈ used', x / ps ≠ b'.freePage k) {i j : Nat}
    (hi : i < b.reqs.length) (hj : j < (b.req i).extendLen) (hy : y ∈ used) (hne : m y ≠ 0) :
    b'.slot i j / ps = m y / ps ↔ b.slot i j / ps = y / ps := by
  have hi' : i < b'.reqs.length := hmirror.length ▸ hi
  have hj' : j < (b'.req i).extendLen := hmirror.extendLen hi ▸ hj
  have hpage := (ExtendArgs.slot_div_mod hv hi j).1
  have hpage' := (ExtendArgs.slot_div_mod hv' hi' j).1
  rw [hsize] at hpage
  rw [hsize'] at hpage'
  rw [hpage, hpage']
  by_cases hold : (b.req i).prefixLen + j < numPages ps (b.req i).prefixLen * ps
  · have hmod := (ExtendArgs.old_token (hsize ▸ hv.pageSize_pos) (Nat.le_add_right _ _) hold).1
    obtain ⟨hmem, hne', hlast⟩ := hmirror.last i hi hmod
    have heq : b.page i j = (b.req i).lastLoc / ps := by
      rw [ExtendArgs.page, hsize, if_pos hold]
    have heq' : b'.page i j = m (b.req i).lastLoc / ps := by
      rw [ExtendArgs.page, hsize', hmirror.prefixLen i hi, if_pos hold, hlast]
    rw [heq, heq', hpair.page _ hmem _ hy hne' hne]
  · have hnew : ¬ (b.req i).prefixLen + j < numPages b.pageSize (b.req i).prefixLen *
        b.pageSize := by
      rwa [hsize]
    have hnew' : ¬ (b'.req i).prefixLen + j <
        numPages b'.pageSize (b'.req i).prefixLen * b'.pageSize := by
      rwa [hsize', hmirror.prefixLen i hi]
    have heq := hfresh _ (ExtendArgs.newPage_index hv hi hj hnew) y hy
    have heq' := hfresh' _ (ExtendArgs.newPage_index hv' hi' hj' hnew') (m y)
      ((hpair.image _).mpr ⟨y, hy, hne, rfl⟩)
    have hfree : b.page i j = _ := if_neg hnew
    have hfree' : b'.page i j = _ := if_neg hnew'
    rw [hfree, hfree']
    exact iff_of_false (fun hc => heq' hc.symm) fun hc => heq hc.symm

include hpair hmirror hv hv' hsize hsize' in
theorem paired_serve {n n' : Nat} {pages pages' : Multiset Nat}
    (hserves : Serves b out) (hserves' : Serves b' outSwa)
    (hbook : Booked ps n pages used) (hbook' : Booked ps n' pages' used')
    (hfree : ∀ page ∈ b.freePages, page ∈ pages) (hfree' : ∀ page ∈ b'.freePages, page ∈ pages')
    (hfresh : ∀ x ∈ out, x ∉ used) (hpos : ∀ y ∈ outSwa, 0 < y) :
    Paired ps (assign m out outSwa) (used ∪ out.toFinset) ( used' ∪ outSwa.toFinset) := by
  have hnodup := hserves.nodup hv
  have hpartner : ∀ i j, i < b.reqs.length → j < (b.req i).extendLen →
      assign m out outSwa (b.slot i j) = b'.slot i j := by
    intro i j hi hj
    have hslot := hserves'.slot i j (hmirror.length ▸ hi) (hmirror.extendLen hi ▸ hj)
    rw [hmirror.before (Nat.le_of_lt hi)] at hslot
    exact assign_of_mem hnodup (hserves.slot i j hi hj) hslot
  have himage : out.toFinset.image (assign m out outSwa) = outSwa.toFinset := by
    ext y
    rw [Finset.mem_image, List.mem_toFinset, hserves'.mem_iff]
    constructor
    · rintro ⟨x, hx, rfl⟩
      obtain ⟨i, j, hi, hj, rfl⟩ := (hserves.mem_iff x).mp (List.mem_toFinset.mp hx)
      exact ⟨i, j, hmirror.length ▸ hi, hmirror.extendLen hi ▸ hj, (hpartner i j hi hj).symm⟩
    · rintro ⟨i, j, hi, hj, rfl⟩
      rw [hmirror.length] at hi
      rw [hmirror.extendLen hi] at hj
      exact ⟨_, List.mem_toFinset.mpr ((hserves.mem_iff _).mpr ⟨i, j, hi, hj, rfl⟩),
        hpartner i j hi hj⟩
  have hnew : ∀ k, k < b.getNumNewPages → ∀ x ∈ used, x / ps ≠ b.freePage k := fun k hk =>
    ((hbook.mem_iff _).mp (hfree _ (ExtendArgs.freePage_mem hv hk))).2
  have hnew' : ∀ k, k < b'.getNumNewPages → ∀ x ∈ used', x / ps ≠ b'.freePage k := fun k hk =>
    ((hbook'.mem_iff _).mp (hfree' _ (ExtendArgs.freePage_mem hv' hk))).2
  rw [← himage]
  refine hpair.extend (fun x hx => ?_) (fun x hx => assign_of_notMem (mt List.mem_toFinset.mpr hx))
    (fun x hx => hfresh x (List.mem_toFinset.mp hx)) (fun x hx => ?_) (fun x hx y hy => ?_)
    fun x hx y hy hne => ?_
  · have hy := Finset.mem_image_of_mem (assign m out outSwa) hx
    rw [himage] at hy
    exact (hpos _ (List.mem_toFinset.mp hy)).ne'
  · obtain ⟨i, j, hi, hj, rfl⟩ := (hserves.mem_iff x).mp (List.mem_toFinset.mp hx)
    have hmod := (ExtendArgs.slot_div_mod hv hi j).2
    have hmod' := (ExtendArgs.slot_div_mod hv' (hmirror.length ▸ hi) j).2
    rw [hsize] at hmod
    rw [hsize'] at hmod'
    rw [hpartner i j hi hj, hmod, hmod', hmirror.prefixLen i hi]
  · obtain ⟨i, j, hi, hj, rfl⟩ := (hserves.mem_iff x).mp (List.mem_toFinset.mp hx)
    obtain ⟨i', j', hi', hj', rfl⟩ := (hserves.mem_iff y).mp (List.mem_toFinset.mp hy)
    have hiff := page_eq_iff hv hi hj hi' hj'
    have hiff' := page_eq_iff hv' (hmirror.length ▸ hi) (hmirror.extendLen hi ▸ hj)
      (hmirror.length ▸ hi') (hmirror.extendLen hi' ▸ hj')
    rw [hsize] at hiff
    rw [hsize', hmirror.prefixLen i hi, hmirror.prefixLen i' hi'] at hiff'
    rw [hpartner i j hi hj, hpartner i' j' hi' hj', hiff, hiff']
  · obtain ⟨i, j, hi, hj, rfl⟩ := (hserves.mem_iff x).mp (List.mem_toFinset.mp hx)
    rw [hpartner i j hi hj]
    exact page_old_iff hpair hmirror hv hv' hsize hsize' hnew hnew' hi hj hy hne

end Serve

def pending (s : SwaAllocator) : List Int :=
  if s.isNotInFreeGroup then [] else s.freeGroup.flatten

/-- A batch that the allocator is asked for: a page that is used in part goes on behind its last
slot, which waits in no free group and has its window slot. -/
structure Serving (s : SwaAllocator) (reqs : List ExtendReq) : Prop where
  fits : BatchFits s.pageSize s.fullAttnAllocator.used reqs
  live : ∀ r ∈ reqs, r.Partial s.pageSize → r.lastLoc ∉ s.pending
  mapped : ∀ r ∈ reqs, r.Partial s.pageSize → s.fullToSwaIndexMapping r.lastLoc ≠ 0

instance (s : SwaAllocator) (reqs : List ExtendReq) : Decidable (s.Serving reqs) :=
  decidable_of_iff (BatchFits s.pageSize s.fullAttnAllocator.used reqs ∧
    (∀ r ∈ reqs, r.Partial s.pageSize → r.lastLoc ∉ s.pending) ∧
    ∀ r ∈ reqs, r.Partial s.pageSize → s.fullToSwaIndexMapping r.lastLoc ≠ 0)
    ⟨fun h => ⟨h.1, h.2.1, h.2.2⟩, fun h => ⟨h.fits, h.live, h.mapped⟩⟩

structure Inv (n n' : Nat) (s : SwaAllocator) : Prop where
  pageSize_pos : 0 < s.pageSize
  full : s.fullAttnAllocator.Inv s.pageSize n
  swa : s.swaAttnAllocator.Inv s.pageSize n'
  paired : Paired s.pageSize s.fullToSwaIndexMapping s.fullAttnAllocator.used
    s.swaAttnAllocator.used
  sentinel : s.fullToSwaIndexMapping (-1) = -1
  nodup : s.pending.Nodup
  whole : WholePages s.pageSize s.fullAttnAllocator.used s.pending.toFinset

section Inv

variable {n n' : Nat} {s s' : SwaAllocator} {reqs : List ExtendReq} {l : List Int}
variable {r r' : AllocResult × Allocator}

theorem Inv.new (size sizeSwa : Nat) {ps : Nat} (hps : 0 < ps) (needSort : Bool) :
    (SwaAllocator.new size sizeSwa ps needSort).Inv (size / ps) (sizeSwa / ps) where
  pageSize_pos := hps
  full := .new size ps needSort
  swa := .new sizeSwa ps needSort
  paired := .new ps fun x hx => if_neg (by omega)
  sentinel := rfl
  nodup := List.nodup_nil
  whole := ⟨Finset.empty_subset _, fun x hx => absurd hx (Finset.notMem_empty x)⟩

/-- The pool of the window slots can serve what the other pool can. -/
theorem Inv.translate (h : s.Inv n n') (hserving : s.Serving reqs) :
    BatchFits s.pageSize s.swaAttnAllocator.used (s.translateLoc reqs) where
  le r hr := by
    obtain ⟨q, hq, rfl⟩ := List.mem_map.mp hr
    exact hserving.fits.le q hq
  tail r hr hpart := by
    obtain ⟨q, hq, rfl⟩ := List.mem_map.mp hr
    have htail := hserving.fits.tail q hq hpart
    have hne := hserving.mapped q hq hpart
    exact
      { mem := (h.paired.image _).mpr ⟨_, htail.mem, hne, rfl⟩
        offset := (h.paired.offset _ htail.mem hne).trans htail.offset
        last := h.paired.last htail.mem hne htail.last }
  distinct := by
    rw [translateLoc, List.pairwise_map]
    refine hserving.fits.distinct.imp_of_mem fun hq hq' hdistinct hpart hpart' heq => ?_
    have hmem := (hserving.fits.tail _ hq hpart).mem
    have hmem' := (hserving.fits.tail _ hq' hpart').mem
    exact hdistinct hpart hpart' ((h.paired.page _ hmem _ hmem' (hserving.mapped _ hq hpart)
      (hserving.mapped _ hq' hpart')).mp heq)

theorem Serving.mirrors (h : s.Serving reqs) {b b' : ExtendArgs}
    (hreqs : b.reqs = reqs.map (·.settle s.pageSize))
    (hreqs' : b'.reqs = (s.translateLoc reqs).map (·.settle s.pageSize)) :
    Mirrors s.pageSize s.fullToSwaIndexMapping s.fullAttnAllocator.used b b' := by
  have hlen : b.reqs.length = reqs.length := by rw [hreqs, List.length_map]
  have hreq : ∀ i (hi : i < reqs.length), b.req i = reqs[i].settle s.pageSize := fun i hi => by
    rw [ExtendArgs.req, List.getD_eq_getElem _ _ (hlen ▸ hi)]
    simp only [hreqs, List.getElem_map]
  have hreq' : ∀ i (hi : i < reqs.length), b'.req i =
      { reqs[i] with lastLoc := s.fullToSwaIndexMapping reqs[i].lastLoc }.settle s.pageSize := by
    intro i hi
    rw [ExtendArgs.req, List.getD_eq_getElem _ _ (by simpa [hreqs', translateLoc] using hi)]
    simp only [hreqs', translateLoc, List.getElem_map]
  refine ⟨by simp [hreqs, hreqs', translateLoc], fun i hi => ?_, fun i hi => ?_,
    fun i hi hpart => ?_⟩
  · rw [hlen] at hi
    rw [hreq i hi, hreq' i hi, ExtendReq.settle_prefixLen, ExtendReq.settle_prefixLen]
  · rw [hlen] at hi
    rw [hreq i hi, hreq' i hi, ExtendReq.settle_seqLen, ExtendReq.settle_seqLen]
  · rw [hlen] at hi
    rw [hreq i hi, ExtendReq.settle_partial] at hpart
    have hpart' : ({ reqs[i] with lastLoc := s.fullToSwaIndexMapping reqs[i].lastLoc } :
      ExtendReq).Partial s.pageSize := hpart
    have hmem := List.getElem_mem hi
    rw [hreq i hi, hreq' i hi, ExtendReq.settle_of_partial hpart,
      ExtendReq.settle_of_partial hpart']
    exact ⟨(h.fits.tail _ hmem hpart).mem, h.mapped _ hmem hpart, rfl⟩

section

variable (h : s.Inv n n')

include h

theorem Inv.serve (hserving : s.Serving reqs)
    (hfull : BatchOutcome s.pageSize n s.fullAttnAllocator reqs r)
    (hswa : BatchOutcome s.pageSize n' s.swaAttnAllocator (s.translateLoc reqs) r')
    (hout : r.1.out = some out) (hout' : r'.1.out = some outSwa) :
    ({ s with
      fullAttnAllocator := s.fullAttnAllocator.behind r
      swaAttnAllocator := s.swaAttnAllocator.behind r'
      fullToSwaIndexMapping := assign s.fullToSwaIndexMapping out outSwa } : SwaAllocator).Inv n
        n' := by
  cases hfull with
  | faulted few result => exact absurd hout (by rw [result]; nofun)
  | refused few result => exact absurd hout (by rw [result]; nofun)
  | slots b out₁ enough result hsize hreqs hv hserves hfree taken hinv =>
  cases hswa with
  | faulted few result' => exact absurd hout' (by rw [result']; nofun)
  | refused few result' => exact absurd hout' (by rw [result']; nofun)
  | slots b' out₂ enough' result' hsize' hreqs' hv' hserves' hfree' taken' hinv' =>
  obtain rfl := Option.some.inj (result.symm.trans hout)
  obtain rfl := Option.some.inj (result'.symm.trans hout')
  have hused : (s.fullAttnAllocator.behind r).used = s.fullAttnAllocator.used ∪ out₁.toFinset := by
    rw [Pool.behind, result, Option.getD_some]
  have hused' : (s.swaAttnAllocator.behind r').used = s.swaAttnAllocator.used ∪ out₂.toFinset := by
    rw [Pool.behind, result', Option.getD_some]
  have hpos : ∀ x ∈ out₁, 0 < x := fun x hx => hinv.booked.pos
    (hused ▸ Finset.mem_union_right _ (List.mem_toFinset.mpr hx))
  have hpos' : ∀ y ∈ out₂, 0 < y := fun y hy => hinv'.booked.pos
    (hused' ▸ Finset.mem_union_right _ (List.mem_toFinset.mpr hy))
  have hfresh : ∀ x ∈ out₁, x ∉ s.fullAttnAllocator.used := fun x hx => by
    obtain ⟨i, j, hi, hj, rfl⟩ := (hserves.mem_iff x).mp hx
    exact hserving.fits.fresh hv hsize hreqs h.full.booked hfree hi hj
  have hpair := paired_serve h.paired (hserving.mirrors hreqs hreqs') hv hv' hsize hsize' hserves
    hserves' h.full.booked h.swa.booked hfree hfree' hfresh hpos'
  refine ⟨h.pageSize_pos, hinv, hinv', ?_, ?_, h.nodup, ?_⟩
  · simp only [hused, hused']
    exact hpair
  · exact (assign_of_notMem fun hmem => absurd (hpos _ hmem) (by decide)).trans h.sentinel
  · simp only [hused]
    refine ⟨h.whole.1.trans Finset.subset_union_left, fun x hx y hy hpage => ?_⟩
    rcases Finset.mem_union.mp hy with hy | hy
    · exact h.whole.2 x hx y hy hpage
    -- a new slot is on a new page or behind a last slot that does not wait
    obtain ⟨i, j, hi, hj, rfl⟩ := (hserves.mem_iff y).mp (List.mem_toFinset.mp hy)
    have hxused := h.whole.1 hx
    have hdiv := (ExtendArgs.slot_div_mod hv hi j).1
    simp only [hsize] at hdiv
    rcases ExtendArgs.page_cases hv hi hj with ⟨hmod, hold, -⟩ | ⟨k, -, hidx, hnew, -⟩
    · rw [hsize] at hmod hold
      have htail := hserving.fits.tail_settled hreqs hi hmod
      have hwait := h.whole.2 x hx _ htail.mem (by rw [← hpage, hdiv, hold])
      have hlt : i < reqs.length := by rwa [hreqs, List.length_map] at hi
      have hsame : b.req i = reqs[i].settle s.pageSize := by
        rw [ExtendArgs.req, List.getD_eq_getElem _ _ hi]
        simp only [hreqs, List.getElem_map]
      rw [hsame] at hmod hwait
      have hpart : reqs[i].Partial s.pageSize := (ExtendReq.settle_partial _).mp hmod
      rw [ExtendReq.settle_of_partial hpart] at hwait
      exact absurd (List.mem_toFinset.mp hwait) (hserving.live _ (List.getElem_mem hlt) hpart)
    · have hpages := hfree _ (ExtendArgs.freePage_mem hv hidx)
      exact absurd (hpage.symm.trans (hdiv.trans hnew))
        (((h.full.booked.mem_iff _).mp hpages).2 x hxused)

theorem Inv.freeSwa (hnodup : l.Nodup)
    (hwhole : WholePages s.pageSize s.fullAttnAllocator.used l.toFinset) :
    (s.freeSwa l).Inv n n' ∧
      Paired s.pageSize (s.freeSwa l).fullToSwaIndexMapping
        (s.fullAttnAllocator.used \ l.toFinset) (s.freeSwa l).swaAttnAllocator.used := by
  have hpos : ∀ y ∈ s.swaAttnAllocator.used, 0 < y := fun y hy => h.swa.booked.pos hy
  have hset : (((l.map s.fullToSwaIndexMapping).filter (0 < ·)).toFinset : Finset Int) =
      (l.toFinset.image s.fullToSwaIndexMapping).filter (0 < ·) := by
    ext y
    simp
  have hswaNodup : ((l.map s.fullToSwaIndexMapping).filter (0 < ·)).Nodup := by
    rw [List.filter_map]
    refine (hnodup.filter _).map_on fun x hx y hy heq => ?_
    obtain ⟨hx, hxpos⟩ := List.mem_filter.mp hx
    have hmem := hwhole.1 (List.mem_toFinset.mpr hx)
    have hmem' := hwhole.1 (List.mem_toFinset.mpr (List.mem_filter.mp hy).1)
    exact h.paired.inj hmem hmem' (of_decide_eq_true hxpos).ne' heq
  have hwhole' := h.paired.wholePages hwhole hpos
  rw [← hset] at hwhole'
  have herase : ∀ {left}, left ⊆ s.fullAttnAllocator.used →
      s.fullAttnAllocator.used \ l.toFinset ⊆ left →
      Paired s.pageSize (s.freeSwa l).fullToSwaIndexMapping left
        (s.freeSwa l).swaAttnAllocator.used := by
    intro left hsub hleft
    change Paired _ _ _ (s.swaAttnAllocator.used \ List.toFinset _)
    rw [hset]
    refine h.paired.erase hwhole.1 hpos (fun x hx => if_pos (List.mem_toFinset.mp hx))
      (fun x hx => if_neg (mt List.mem_toFinset.mpr hx)) hsub hleft
  have hsentinel : (-1 : Int) ∉ l := fun hmem =>
    absurd (h.full.booked.pos (hwhole.1 (List.mem_toFinset.mpr hmem))) (by decide)
  exact ⟨⟨h.pageSize_pos, h.full, h.swa.free hswaNodup hwhole',
    herase (Finset.Subset.refl _) Finset.sdiff_subset, (if_neg hsentinel).trans h.sentinel,
    h.nodup, h.whole⟩, herase Finset.sdiff_subset (Finset.Subset.refl _)⟩

theorem Inv.freeBoth (hgroup : s.isNotInFreeGroup = true) (hnodup : l.Nodup)
    (hwhole : WholePages s.pageSize s.fullAttnAllocator.used l.toFinset) :
    (SwaAllocator.freeSwa l { s with
      fullAttnAllocator := s.fullAttnAllocator.free l }).Inv n n' := by
  obtain ⟨hinv, hpair⟩ := h.freeSwa hnodup hwhole
  have hpending : ∀ {s : SwaAllocator}, s.isNotInFreeGroup = true → s.pending = [] :=
    fun hgroup => if_pos hgroup
  refine ⟨h.pageSize_pos, h.full.free hnodup hwhole, hinv.swa, hpair, hinv.sentinel, ?_, ?_⟩
  · rw [hpending (by exact hgroup)]
    exact List.nodup_nil
  · rw [hpending (by exact hgroup)]
    exact ⟨Finset.empty_subset _, fun x hx => absurd hx (Finset.notMem_empty x)⟩

theorem Inv.checked :
    s.fullAttnAllocator.availableSize ≤ s.fullAttnAllocator.size ∧
      s.swaAttnAllocator.availableSize ≤ s.swaAttnAllocator.size :=
  ⟨h.full.availableSize_le, h.swa.availableSize_le⟩

theorem Inv.free (hnodup : l.Nodup) (hlive : ∀ x ∈ l, x ∉ s.pending)
    (hwhole : WholePages s.pageSize s.fullAttnAllocator.used l.toFinset) :
    ∃ s', s.free l = some s' ∧ s'.Inv n n' := by
  by_cases hnil : l = []
  · exact ⟨s, if_pos hnil, h⟩
  unfold SwaAllocator.free
  simp only [if_neg hnil]
  by_cases hgroup : s.isNotInFreeGroup
  · have hinv := h.freeBoth hgroup hnodup hwhole
    simp only [if_pos hgroup]
    exact ⟨_, if_pos hinv.checked, hinv⟩
  · simp only [if_neg hgroup]
    refine ⟨_, if_pos h.checked, h.pageSize_pos, h.full, h.swa, h.paired, h.sentinel, ?_, ?_⟩
    all_goals
      have hpending : ({ s with freeGroup := s.freeGroup ++ [l] } : SwaAllocator).pending =
          s.pending ++ l := by
        unfold pending
        rw [if_neg hgroup, if_neg hgroup, List.flatten_append, List.flatten_singleton]
      rw [hpending]
    · exact List.nodup_append'.mpr ⟨h.nodup, hnodup, fun x hx hx' => hlive x hx' hx⟩
    · have hwait := h.whole
      rw [List.toFinset_append]
      refine ⟨Finset.union_subset hwait.1 hwhole.1, fun x hx y hy hpage => ?_⟩
      rcases Finset.mem_union.mp hx with hx | hx
      · exact Finset.mem_union_left _ (hwait.2 x hx y hy hpage)
      · exact Finset.mem_union_right _ (hwhole.2 x hx y hy hpage)

theorem Inv.freeGroupBegin : s.freeGroupBegin.Inv n n' :=
  ⟨h.pageSize_pos, h.full, h.swa, h.paired, h.sentinel, List.nodup_nil,
    Finset.empty_subset _, fun x hx => absurd hx (Finset.notMem_empty x)⟩

theorem Inv.freeGroupEnd (hgroup : s.isNotInFreeGroup = false) :
    ∃ s', s.freeGroupEnd = some s' ∧ s'.Inv n n' := by
  have hpending : s.pending = s.freeGroup.flatten := by
    rw [pending, hgroup]
    rfl
  have hnodup := h.nodup
  have hwhole := h.whole
  rw [hpending] at hnodup hwhole
  have hleft : ({ s with isNotInFreeGroup := true } : SwaAllocator).Inv n n' :=
    ⟨h.pageSize_pos, h.full, h.swa, h.paired, h.sentinel, List.nodup_nil,
      Finset.empty_subset _, fun x hx => absurd hx (Finset.notMem_empty x)⟩
  unfold SwaAllocator.freeGroupEnd
  simp only
  split
  · exact ⟨_, rfl, hleft⟩
  · exact hleft.free hnodup (fun x _ => List.not_mem_nil) hwhole

theorem Inv.clear : s.clear.Inv n n' where
  pageSize_pos := h.pageSize_pos
  full := h.full.clear
  swa := h.swa.clear
  paired := .new _ fun x hx => if_neg (by omega)
  sentinel := by simp [SwaAllocator.clear, h.sentinel]
  nodup := List.nodup_nil
  whole := ⟨Finset.empty_subset _, fun x hx => absurd hx (Finset.notMem_empty x)⟩

end

end Inv

end SwaAllocator

end SpecDecode.MemCache
