import SpecDecode.Lib.PageLayout
import Mathlib.Tactic.Abel

/-!
# The KV slot allocator

`TokenToKVPoolAllocator` hands out single slots and `PagedTokenToKVPoolAllocator` whole
pages; the former is the case of pages of one slot, except that it frees slots as they
come. Page `0` holds the dummy outputs of padded tokens and is never handed out.

Frees inside a free group are only put off to its end, and `alloc_extend` and
`alloc_decode` are modelled for a batch of one request. Each allocation takes pages off
the front of the free list and continues a row of slots on them.
-/

namespace SpecDecode.MemCache

structure Allocator where
  pageSize : Nat
  needSort : Bool
  freePages : List Nat
  releasePages : List Nat

namespace Allocator

/-- An allocator after `clear`. -/
def new (size pageSize : Nat) (needSort : Bool) : Allocator where
  pageSize := pageSize
  needSort := needSort
  freePages := List.range' 1 (size / pageSize)
  releasePages := []

def availableSize (a : Allocator) : Nat :=
  (a.freePages.length + a.releasePages.length) * a.pageSize

def mergeAndSortFree (a : Allocator) : Allocator :=
  if a.releasePages ≠ [] then
    { a with freePages := (a.freePages ++ a.releasePages).mergeSort, releasePages := [] }
  else a

/-- The start of each allocation: released pages are merged in when `needed` pages are too
many for the free list. -/
def makeRoom (needed : Nat) (a : Allocator) : Allocator :=
  if a.needSort ∧ a.freePages.length < needed then a.mergeAndSortFree else a

/-- Takes the first pages off the free list. -/
def takePages (num : Nat) (out : List Nat) (a : Allocator) : Option (List Nat × Allocator) :=
  if a.freePages.length < num then none
  else some (out, { a with freePages := a.freePages.drop num })

def alloc (needSize : Nat) (a : Allocator) : Option (List Nat × Allocator) :=
  let num := needSize / a.pageSize
  let a := a.makeRoom num
  a.takePages num ((a.freePages.take num).flatMap (pageSlots a.pageSize))

/-- The last slot of a row, `-1` if there is none. -/
def lastLoc (row : List Nat) : Int := (row.getLast?.map fun slot => (slot : Int)).getD (-1)

/-- The slots that `alloc_extend_kernel` writes: the rest of the old partial page, full new
pages and a new partial page. -/
def extendSlots (pageSize preLen seqLen : Nat) (lastLoc : Int) (freePages : List Nat) : List Nat :=
  let numPart1 := min seqLen (numPages pageSize preLen * pageSize) - preLen
  let part1 := (List.range numPart1).map fun (offset : Nat) => (lastLoc + 1 + offset).toNat
  if preLen + numPart1 = seqLen then part1
  else
    let numPart2 := seqLen / pageSize * pageSize - numPages pageSize preLen * pageSize
    let part2 := (List.range numPart2).map fun offset =>
      freePages.getD (offset / pageSize) 0 * pageSize + offset % pageSize
    if preLen + numPart1 + numPart2 = seqLen then part1 ++ part2
    else
      let numPart3 := seqLen - seqLen / pageSize * pageSize
      let page := freePages.getD (numPages pageSize seqLen - numPages pageSize preLen - 1) 0
      part1 ++ part2 ++ (List.range numPart3).map fun offset => page * pageSize + offset

/-- `alloc_extend`. The number of tokens to extend by is the rest of the sequence. -/
def allocExtend (prefixLen seqLen : Nat) (lastLoc : Int) (a : Allocator) :
    Option (List Nat × Allocator) :=
  let extendNumTokens := seqLen - prefixLen
  let a := a.makeRoom (extendNumTokens / a.pageSize + 1 + 1)
  a.takePages (numPages a.pageSize seqLen - numPages a.pageSize prefixLen)
    (extendSlots a.pageSize prefixLen seqLen lastLoc a.freePages)

def decodeSlot (pageSize seqLen : Nat) (lastLoc : Int) (freePages : List Nat) : Nat :=
  if numPages pageSize seqLen - numPages pageSize (seqLen - 1) = 0 then (lastLoc + 1).toNat
  else freePages.getD 0 0 * pageSize

def allocDecode (seqLen : Nat) (lastLoc : Int) (a : Allocator) : Option (List Nat × Allocator) :=
  let a := a.makeRoom 1
  a.takePages (if seqLen % a.pageSize = 1 then 1 else 0)
    [decodeSlot a.pageSize seqLen lastLoc a.freePages]

def free (freeIndex : List Nat) (a : Allocator) : Allocator :=
  if freeIndex = [] then a
  else if a.pageSize = 1 then
    if a.needSort then { a with releasePages := a.releasePages ++ freeIndex }
    else { a with freePages := a.freePages ++ freeIndex }
  else
    let freePageIndices := (touched a.pageSize freeIndex).sort
    if a.needSort then { a with releasePages := freePageIndices ++ a.releasePages }
    else { a with freePages := freePageIndices ++ a.freePages }

def pages (a : Allocator) : Multiset Nat :=
    ((a.freePages ++ a.releasePages : List Nat) : Multiset Nat)

section Spec

variable {a a' : Allocator} {row out P : List Nat}

theorem lastLoc_eq {ps : Nat} (hps : 0 < ps) (hrow : Laid ps row P) (hpos : 0 < row.length) :
    ∃ k p r, numPages ps row.length = k + 1 ∧ P[k]? = some p ∧ r < ps ∧
      row.length = k * ps + r + 1 ∧ lastLoc row = p * ps + r := by
  have hlt : 0 < numPages ps row.length := (lt_numPages_iff hps).mpr (by omega)
  obtain ⟨k, hk⟩ := Nat.exists_eq_succ_of_ne_zero (Nat.ne_of_gt hlt)
  have hlo := (lt_numPages_iff hps (k := k) (n := row.length)).mp (by omega)
  have hhi := (not_congr (lt_numPages_iff hps (k := k + 1) (n := row.length))).mp (by omega)
  rw [Nat.add_mul, Nat.one_mul] at hhi
  have hkP : k < P.length := by
    rw [hrow.length]
    omega
  obtain ⟨r, hr⟩ := Nat.exists_eq_add_of_lt hlo
  have hrps : r < ps := by omega
  refine ⟨k, P[k], r, hk, List.getElem?_eq_getElem hkP, hrps, hr, ?_⟩
  have hslot := hrow.slot (k * ps + r) (by omega)
  rw [slotAt_mul_add P k hrps, List.getElem?_eq_getElem hkP, Option.map_some] at hslot
  rw [lastLoc, List.getLast?_eq_getElem?, hr, Nat.add_sub_cancel, hslot]
  simp

theorem getElem?_append_parts {l l' : List Nat} {n n' : Nat} {f : Nat → Option Nat}
    (hl : l.length = n) (h : ∀ o, o < n → l[o]? = f o) (h' : ∀ o, o < n' → l'[o]? = f (n + o)) :
    ∀ o, o < n + n' → (l ++ l')[o]? = f o := by
  intro o ho
  by_cases hlt : o < n
  · rw [List.getElem?_append_left (by omega), h o hlt]
  · rw [List.getElem?_append_right (by omega), hl, h' _ (by omega),
      Nat.add_sub_cancel' (Nat.le_of_not_lt hlt)]

section ExtendSlots

variable {ps seqLen : Nat} {freePages N : List Nat} (hps : 0 < ps) (hrow : Laid ps row P)

include hps hrow

theorem getElem?_part1 {num j : Nat} (hj : j < num)
    (hnum : row.length + num ≤ numPages ps row.length * ps) :
    ((List.range num).map fun (offset : Nat) => (lastLoc row + 1 + offset).toNat)[j]? =
      slotAt ps (P ++ N) (row.length + j) := by
  have hpos : 0 < row.length := by
    by_contra hzero
    have hmul := numPages_mul hps 0
    rw [Nat.zero_mul] at hmul
    rw [Nat.eq_zero_of_not_pos hzero, hmul] at hnum
    omega
  obtain ⟨k, p, r, hk, hp, hr, hlen, hlast⟩ := lastLoc_eq hps hrow hpos
  rw [hk, hlen, Nat.add_mul, Nat.one_mul] at hnum
  have hkP := (List.getElem?_eq_some_iff.mp hp).1
  have hpos' : row.length + j = k * ps + (r + 1 + j) := by omega
  rw [hpos', slotAt_mul_add _ k (by omega), List.getElem?_append_left hkP, hp, hlast,
    Option.map_some, List.getElem?_map, List.getElem?_range hj, Option.map_some, Option.some.injEq]
  omega

omit hps in
theorem slotAt_new {k r : Nat} (hr : r < ps) (hk : k < freePages.length) {num : Nat}
    (hnum : k < num) :
    slotAt ps (P ++ freePages.take num) ((numPages ps row.length + k) * ps + r) =
      some (freePages.getD k 0 * ps + r) := by
  rw [slotAt_mul_add _ _ hr, ← hrow.length, List.getElem?_append_right (Nat.le_add_right _ _),
    Nat.add_sub_cancel_left, List.getElem?_take_of_lt hnum, List.getD_eq_getElem?_getD,
    List.getElem?_eq_getElem hk]
  rfl

theorem getElem?_part2 {num new o : Nat} (ho : o < num)
    (hnum : num ≤ new * ps) (hnew : new ≤ freePages.length) :
    ((List.range num).map fun offset =>
        freePages.getD (offset / ps) 0 * ps + offset % ps)[o]? =
      slotAt ps (P ++ freePages.take new) (numPages ps row.length * ps + o) := by
  have hk : o / ps < new := (Nat.div_lt_iff_lt_mul hps).mpr (Nat.lt_of_lt_of_le ho hnum)
  have hsplit : numPages ps row.length * ps + o =
      (numPages ps row.length + o / ps) * ps + o % ps := by
    rw [Nat.add_mul, Nat.add_assoc, Nat.mul_comm (o / ps), Nat.div_add_mod]
  rw [hsplit, slotAt_new hrow (Nat.mod_lt o hps) (Nat.lt_of_lt_of_le hk hnew) hk, List.getElem?_map,
    List.getElem?_range ho]
  rfl

omit hps in
private theorem getElem?_part3 {num new o : Nat} (ho : o < num) (hnum : num ≤ ps) (hpos : 0 < new)
    (hnew : new ≤ freePages.length) :
    ((List.range num).map fun offset => freePages.getD (new - 1) 0 * ps + offset)[o]? =
      slotAt ps (P ++ freePages.take new) ((numPages ps row.length + (new - 1)) * ps + o) := by
  rw [slotAt_new hrow (by omega) (by omega) (by omega), List.getElem?_map, List.getElem?_range ho]
  rfl

theorem getElem?_extendSlots
    (hfree : numPages ps seqLen - numPages ps row.length ≤ freePages.length) {j : Nat}
    (hj : j < seqLen - row.length) :
    (extendSlots ps row.length seqLen (lastLoc row) freePages)[j]? =
      slotAt ps (P ++ freePages.take (numPages ps seqLen - numPages ps row.length))
        (row.length + j) := by
  have hceil := (not_congr (lt_numPages_iff hps (k := numPages ps row.length)
    (n := row.length))).mp (Nat.lt_irrefl _)
  have hfloor := Nat.div_mul_le_self seqLen ps
  unfold extendSlots
  simp only
  split
  · exact getElem?_part1 hps hrow (by omega) (by omega)
  · next hmore =>
      have hnum1 : min seqLen (numPages ps row.length * ps) - row.length =
          numPages ps row.length * ps - row.length := by omega
      have hquot : numPages ps row.length ≤ seqLen / ps :=
        (Nat.le_div_iff_mul_le hps).mpr (by omega)
      have hquot' := Nat.mul_le_mul_right ps hquot
      have hdiv : seqLen / ps ≤ numPages ps seqLen := by
        have hle := numPages_mono hps hfloor
        rwa [numPages_mul hps] at hle
      have hnum2 : seqLen / ps * ps - numPages ps row.length * ps ≤
          (numPages ps seqLen - numPages ps row.length) * ps := by
        rw [← Nat.sub_mul]
        exact Nat.mul_le_mul_right ps (by omega)
      rw [hnum1]
      have hfirst : ∀ o, o < numPages ps row.length * ps - row.length → _ := fun o ho =>
        @getElem?_part1 row P ps (freePages.take (numPages ps seqLen - numPages ps row.length))
          hps hrow _ o ho (by omega)
      have hsecond : ∀ o, o < seqLen / ps * ps - numPages ps row.length * ps → _ := fun o ho =>
        getElem?_part2 hps hrow ho hnum2 hfree
      have hshift : ∀ o, numPages ps row.length * ps + o =
          row.length + (numPages ps row.length * ps - row.length + o) := by
        intro o
        omega
      simp only [hshift] at hsecond
      have htwo := getElem?_append_parts (by simp) hfirst hsecond
      split
      · exact htwo j (by omega)
      · next hpart =>
          -- the last page is new, since the sequence does not end at a page border
          have hceil' : numPages ps seqLen = seqLen / ps + 1 := by
            have hlt := (lt_numPages_iff hps (k := seqLen / ps) (n := seqLen)).mpr (by omega)
            have hge := (not_congr (lt_numPages_iff hps (k := seqLen / ps + 1) (n := seqLen))).mpr
              (by
                have hmod := Nat.div_add_mod seqLen ps
                have hlt := Nat.mod_lt seqLen hps
                rw [Nat.add_mul, Nat.mul_comm (seqLen / ps)]
                omega)
            omega
          have hlast : numPages ps row.length + (numPages ps seqLen - numPages ps row.length - 1) =
              seqLen / ps := by omega
          have hthird : ∀ o, o < seqLen - seqLen / ps * ps → _ := fun o ho =>
            getElem?_part3 hrow ho (by
              have hmod := Nat.div_add_mod seqLen ps
              have hlt := Nat.mod_lt seqLen hps
              rw [Nat.mul_comm] at hmod
              omega) (by omega) hfree
          have hshift' : ∀ o, seqLen / ps * ps + o =
              row.length + (numPages ps row.length * ps - row.length +
                (seqLen / ps * ps - numPages ps row.length * ps) + o) := by
            intro o
            omega
          simp only [hlast, hshift'] at hthird
          exact getElem?_append_parts (by simp) htwo hthird j (by omega)

/-- The three parts continue the row: on its last page, on full new pages and on a last
new page. -/
theorem extendSlots_laid (hle : row.length ≤ seqLen)
    (hfree : numPages ps seqLen - numPages ps row.length ≤ freePages.length) :
    Laid ps (row ++ extendSlots ps row.length seqLen (lastLoc row) freePages)
        (P ++ freePages.take (numPages ps seqLen - numPages ps row.length)) ∧
      (extendSlots ps row.length seqLen (lastLoc row) freePages).length = seqLen - row.length := by
  have hmono := numPages_mono hps hle
  have hceil := (not_congr (lt_numPages_iff hps (k := numPages ps row.length)
    (n := row.length))).mp (Nat.lt_irrefl _)
  have hfloor := Nat.div_mul_le_self seqLen ps
  have hfull : numPages ps row.length * ps ≤ seqLen → numPages ps row.length ≤ seqLen / ps :=
    (Nat.le_div_iff_mul_le hps).mpr
  have hfull' : numPages ps row.length * ps ≤ seqLen →
      numPages ps row.length * ps ≤ seqLen / ps * ps := fun h => Nat.mul_le_mul_right ps (hfull h)
  have hlen : (extendSlots ps row.length seqLen (lastLoc row) freePages).length =
      seqLen - row.length := by
    unfold extendSlots
    simp only
    split
    · rw [List.length_map, List.length_range]
      omega
    · split
      · rw [List.length_append, List.length_map, List.length_map, List.length_range,
          List.length_range]
        omega
      · simp only [List.length_append, List.length_map, List.length_range]
        omega
  refine ⟨hrow.append_of_slot hps ?_ fun j hj => ?_, hlen⟩
  · rw [hlen, List.length_append, List.length_take_of_le hfree, hrow.length,
      Nat.add_sub_cancel' hle]
    omega
  · rw [hlen] at hj
    exact getElem?_extendSlots hps hrow hfree hj

end ExtendSlots

@[simp] theorem makeRoom_pageSize (needed : Nat) (a : Allocator) :
    (a.makeRoom needed).pageSize = a.pageSize := by
  unfold makeRoom mergeAndSortFree
  split <;> try split
  all_goals rfl

@[simp]
theorem free_pageSize (l : List Nat) (a : Allocator) : (a.free l).pageSize = a.pageSize := by
  unfold free
  split
  · rfl
  · split <;> split <;> rfl

@[simp]
theorem makeRoom_pages (needed : Nat) (a : Allocator) : (a.makeRoom needed).pages = a.pages := by
  unfold makeRoom mergeAndSortFree
  split
  · split
    · simp only [pages, List.append_nil, Multiset.coe_eq_coe]
      exact List.mergeSort_perm _ _
    · rfl
  · rfl

/-- An allocation takes the pages `N` out of the allocator and continues the row on them. -/
structure Grows (a a' : Allocator) (row out P N : List Nat) : Prop where
  pageSize : a'.pageSize = a.pageSize
  pages : a.pages = a'.pages + (N : Multiset Nat)
  laid : Laid a.pageSize (row ++ out) (P ++ N)

theorem takePages_spec {num needed : Nat} {slots : List Nat}
    (h : (a.makeRoom needed).takePages num slots = some (out, a')) :
    out = slots ∧ num ≤ (a.makeRoom needed).freePages.length ∧ a'.pageSize = a.pageSize ∧
      a.pages = a'.pages + ((a.makeRoom needed).freePages.take num : List Nat) := by
  unfold takePages at h
  split at h
  · cases h
  · next hlt =>
      simp only [Option.some.injEq, Prod.mk.injEq] at h
      obtain ⟨rfl, rfl⟩ := h
      refine ⟨rfl, Nat.le_of_not_lt hlt, makeRoom_pageSize needed a, ?_⟩
      have hperm := @List.perm_append_comm _ ((a.makeRoom needed).freePages.take num)
        ((a.makeRoom needed).freePages.drop num ++ (a.makeRoom needed).releasePages)
      rw [← List.append_assoc, List.take_append_drop] at hperm
      rw [← makeRoom_pages needed a, Allocator.pages, Allocator.pages, Multiset.coe_add,
        Multiset.coe_eq_coe]
      exact hperm

variable (hps : 0 < a.pageSize) (hrow : Laid a.pageSize row P)

include hps hrow

theorem alloc_grows {needSize : Nat} (hdvd : a.pageSize ∣ row.length)
    (h : a.alloc needSize = some (out, a')) :
    ∃ N, Grows a a' row out P N ∧ out.length = needSize / a.pageSize * a.pageSize := by
  simp only [alloc, makeRoom_pageSize] at h
  obtain ⟨rfl, hle, hsize, hpages⟩ := takePages_spec h
  refine ⟨_, ⟨hsize, hpages, hrow.append hps (.flatMap hps _) hdvd⟩, ?_⟩
  rw [length_flatMap_pageSlots, List.length_take_of_le hle]

theorem allocExtend_grows {seqLen : Nat} (hle : row.length ≤ seqLen)
    (h : a.allocExtend row.length seqLen (lastLoc row) = some (out, a')) :
    ∃ N, Grows a a' row out P N ∧ out.length = seqLen - row.length := by
  simp only [allocExtend, makeRoom_pageSize] at h
  obtain ⟨rfl, hfree, hsize, hpages⟩ := takePages_spec h
  obtain ⟨hlaid, hlen⟩ := extendSlots_laid hps hrow hle hfree
  exact ⟨_, ⟨hsize, hpages, hlaid⟩, hlen⟩

omit hrow in
theorem decodeSlot_eq (hpaged : a.pageSize ≠ 1) (freePages : List Nat) :
    [decodeSlot a.pageSize (row.length + 1) (lastLoc row) freePages] =
        extendSlots a.pageSize row.length (row.length + 1) (lastLoc row) freePages ∧
      (if (row.length + 1) % a.pageSize = 1 then 1 else 0) =
        numPages a.pageSize (row.length + 1) - numPages a.pageSize row.length := by
  have hceil := (not_congr (lt_numPages_iff hps (k := numPages a.pageSize row.length)
    (n := row.length))).mp (Nat.lt_irrefl _)
  rcases Nat.lt_or_ge row.length (numPages a.pageSize row.length * a.pageSize) with hlt | hge
  · have hsame : numPages a.pageSize (row.length + 1) = numPages a.pageSize row.length := by
      have hle := numPages_mono hps hlt
      have hmono := numPages_mono hps (Nat.le_succ row.length)
      rw [numPages_mul hps] at hle
      exact Nat.le_antisymm hle hmono
    have hmod : (row.length + 1) % a.pageSize ≠ 1 := by
      intro hmod
      have hsum := Nat.div_add_mod (row.length + 1) a.pageSize
      rw [hmod, Nat.add_right_cancel_iff, Nat.mul_comm] at hsum
      rw [← hsum, numPages_mul hps] at hlt
      exact Nat.lt_irrefl _ hlt
    refine ⟨?_, by rw [if_neg hmod, hsame, Nat.sub_self]⟩
    have hnum1 : min (row.length + 1) (numPages a.pageSize row.length * a.pageSize) -
        row.length = 1 := by omega
    simp only [decodeSlot, extendSlots, Nat.add_sub_cancel, hsame, Nat.sub_self, hnum1, if_true]
    simp
  · obtain ⟨q, hq⟩ : ∃ q, row.length = q * a.pageSize :=
      ⟨numPages a.pageSize row.length, by omega⟩
    have hnum := numPages_mul hps q
    have hnum' := numPages_mul_add hps q 1
    have hone : numPages a.pageSize 1 = 1 := by
      rw [numPages, Nat.add_sub_cancel_left, Nat.div_self hps]
    have hsmall : 1 < a.pageSize := by omega
    obtain ⟨hdiv, hmod⟩ := mul_add_div_mod hps q 1
    rw [Nat.div_eq_of_lt hsmall, Nat.add_zero] at hdiv
    rw [Nat.mod_eq_of_lt hsmall] at hmod
    rw [hone] at hnum'
    refine ⟨?_, by rw [hq, hmod, if_pos rfl, hnum, hnum', Nat.add_sub_cancel_left]⟩
    simp only [decodeSlot, extendSlots, hq, Nat.add_sub_cancel, Nat.add_sub_cancel_left, hnum,
      hnum', hdiv]
    simp

theorem allocDecode_grows (hpaged : a.pageSize ≠ 1)
    (h : a.allocDecode (row.length + 1) (lastLoc row) = some (out, a')) :
    ∃ N, Grows a a' row out P N ∧ out.length = 1 := by
  simp only [allocDecode, makeRoom_pageSize] at h
  obtain ⟨hslot, hnum⟩ := @decodeSlot_eq a row hps hpaged (a.makeRoom 1).freePages
  rw [hslot, hnum] at h
  obtain ⟨rfl, hfree, hsize, hpages⟩ := takePages_spec h
  obtain ⟨hlaid, hlen⟩ := extendSlots_laid hps hrow (Nat.le_succ _) hfree
  exact ⟨_, ⟨hsize, hpages, hlaid⟩, hlen.trans (by omega)⟩

theorem free_pages (hP : P.Nodup) : (a.free row).pages = a.pages + (P : Multiset Nat) := by
  have hheads := hrow.pageHeads_eq hps
  unfold free
  split
  · next hnil =>
      rw [hnil, pageHeads_eq_zero (by simp)] at hheads
      rw [← hheads, add_zero]
  · split
    · next hone =>
        -- with pages of one slot the slots are the pages
        have hsame : (row : Multiset Nat) = P := by
          rw [← hheads, hone, pageHeads]
          simp
        split <;> simp only [pages, ← Multiset.coe_add, hsame] <;> abel
    · have hsort : (((touched a.pageSize row).sort : List Nat) : Multiset Nat) = P := by
        rw [Finset.sort_eq, hrow.touched_val hps hP]
      split <;> simp only [pages, ← Multiset.coe_add, hsort] <;> abel

end Spec

end Allocator

end SpecDecode.MemCache
