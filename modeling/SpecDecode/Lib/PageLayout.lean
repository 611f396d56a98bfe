import SpecDecode.Lib.Pages
import Mathlib.Algebra.BigOperators.Group.Finset.Basic
import Mathlib.Data.Finset.Sort
import Mathlib.Data.Multiset.Filter
import Mathlib.Data.Multiset.MapFold

/-!
# Lists of slots laid out on pages

Page `p` is made of the slots `p * ps, …, p * ps + ps - 1`. A list is laid out on pages
if it runs through them one after the other; the last page may be left unfinished. Such
a list is cut at page borders together with its pages, and the pages can be read off
the slots that begin one, whatever the order of the slots is.
-/

namespace SpecDecode

def pageSlots (ps p : Nat) : List Nat := (List.range ps).map (p * ps + ·)

def numPages (ps n : Nat) : Nat := (n + ps - 1) / ps

/-- The slot at position `j` of a list laid out on the pages `P`. -/
def slotAt (ps : Nat) (P : List Nat) (j : Nat) : Option Nat :=
  P[j / ps]?.map fun p => p * ps + j % ps

structure Laid (ps : Nat) (l P : List Nat) : Prop where
  length : P.length = numPages ps l.length
  slot : ∀ j, j < l.length → l[j]? = slotAt ps P j

def touched (ps : Nat) (l : List Nat) : Finset Nat := (l.map (· / ps)).toFinset

/-- The pages whose first slot is there. -/
def pageHeads (ps : Nat) (m : Multiset Nat) : Multiset Nat := (m.filter (ps ∣ ·)).map (· / ps)

section NumPages

variable {ps : Nat} (hps : 0 < ps)

include hps

theorem lt_numPages_iff {k n : Nat} : k < numPages ps n ↔ k * ps < n := by
  rw [numPages, Nat.lt_iff_add_one_le, Nat.le_div_iff_mul_le hps, Nat.add_mul, Nat.one_mul]
  omega

@[simp] theorem numPages_mul (k : Nat) : numPages ps (k * ps) = k := by
  refine eq_of_forall_lt_iff fun j => ?_
  rw [lt_numPages_iff hps]
  exact Nat.mul_lt_mul_right hps

theorem numPages_sub_mul (n k : Nat) : numPages ps (n - k * ps) = numPages ps n - k := by
  refine eq_of_forall_lt_iff fun j => ?_
  have hadd : (j + k) * ps = j * ps + k * ps := Nat.add_mul j k ps
  have hlt := lt_numPages_iff hps (k := j + k) (n := n)
  rw [lt_numPages_iff hps]
  omega

@[simp] theorem numPages_mul_add (k n : Nat) : numPages ps (k * ps + n) = k + numPages ps n := by
  have hsub := numPages_sub_mul hps (k * ps + n) k
  have hle : k ≤ numPages ps (k * ps + n) := by
    by_contra hlt
    have hge := lt_numPages_iff hps (k := k - 1) (n := k * ps + n)
    have hmul := Nat.sub_one_mul k ps
    have hpos : ps ≤ k * ps := Nat.le_mul_of_pos_left ps (by omega)
    omega
  rw [Nat.add_sub_cancel_left] at hsub
  omega

/-- The page and the place of a position behind `k` whole pages. -/
theorem mul_add_div_mod (k j : Nat) :
    (k * ps + j) / ps = k + j / ps ∧ (k * ps + j) % ps = j % ps := by
  rw [Nat.add_comm, Nat.add_mul_div_right _ _ hps, Nat.add_mul_mod_self_right, Nat.add_comm]
  exact ⟨rfl, rfl⟩

theorem numPages_mono {m n : Nat} (h : m ≤ n) : numPages ps m ≤ numPages ps n :=
  Nat.div_le_div_right (by omega)

theorem le_numPages_mul (n : Nat) : n ≤ numPages ps n * ps :=
  Nat.le_of_not_lt fun hlt => Nat.lt_irrefl _ ((lt_numPages_iff hps).mpr hlt)

theorem div_lt_numPages {j n : Nat} (hj : j < n) : j / ps < numPages ps n := by
  rw [lt_numPages_iff hps]
  exact Nat.lt_of_le_of_lt (Nat.div_mul_le_self j ps) hj

end NumPages

theorem slotAt_mul_add {ps : Nat} (P : List Nat) (k : Nat) {r : Nat} (hr : r < ps) :
    slotAt ps P (k * ps + r) = P[k]?.map fun p => p * ps + r := by
  obtain ⟨hdiv, hmod⟩ := mul_add_div_mod (Nat.zero_lt_of_lt hr) k r
  rw [slotAt, hdiv, hmod, Nat.div_eq_of_lt hr, Nat.mod_eq_of_lt hr, Nat.add_zero]

@[simp] theorem length_flatMap_pageSlots (ps : Nat) (P : List Nat) :
    (P.flatMap (pageSlots ps)).length = P.length * ps := by
  induction P with
  | nil => simp
  | cons p P ih =>
      rw [List.flatMap_cons, List.length_append, ih, List.length_cons, Nat.add_mul, Nat.one_mul,
        Nat.add_comm]
      simp [pageSlots]

namespace Laid

variable {ps : Nat} {l l' P P' : List Nat}

theorem nil (hps : 0 < ps) : Laid ps [] [] := by
  refine ⟨?_, nofun⟩
  have hmul := numPages_mul hps 0
  rw [Nat.zero_mul] at hmul
  exact hmul.symm

variable (hps : 0 < ps)

include hps

section

variable (h : Laid ps l P)

include h

theorem append_of_slot {out N : List Nat}
    (hlen : (P ++ N).length = numPages ps (l.length + out.length))
    (hout : ∀ j, j < out.length → out[j]? = slotAt ps (P ++ N) (l.length + j)) :
    Laid ps (l ++ out) (P ++ N) := by
  refine ⟨by rw [hlen, List.length_append], fun j hj => ?_⟩
  rw [List.length_append] at hj
  by_cases hl : j < l.length
  · have hdiv := div_lt_numPages hps hl
    rw [← h.length] at hdiv
    rw [List.getElem?_append_left hl, h.slot j hl, slotAt, slotAt, List.getElem?_append_left hdiv]
  · rw [List.getElem?_append_right (Nat.le_of_not_lt hl), hout _ (by omega),
      Nat.add_sub_cancel' (Nat.le_of_not_lt hl)]

theorem append (h' : Laid ps l' P') (hdvd : ps ∣ l.length) : Laid ps (l ++ l') (P ++ P') := by
  obtain ⟨k, hk⟩ := hdvd
  rw [Nat.mul_comm] at hk
  have hlen : P.length = k := by rw [h.length, hk, numPages_mul hps]
  refine h.append_of_slot hps ?_ fun j hj => ?_
  · rw [List.length_append, h'.length, hlen, hk, numPages_mul_add hps]
  · obtain ⟨hdiv, hmod⟩ := mul_add_div_mod hps k j
    have hge : P.length ≤ k + j / ps := by
      rw [hlen]
      exact Nat.le_add_right _ _
    rw [h'.slot j hj, slotAt, slotAt, hk, hdiv, hmod, List.getElem?_append_right hge, hlen,
      Nat.add_sub_cancel_left]

theorem take {n : Nat} (hn : n ≤ l.length) : Laid ps (l.take n) (P.take (numPages ps n)) := by
  have hlen : (l.take n).length = n := List.length_take_of_le hn
  refine ⟨?_, fun j hj => ?_⟩
  · rw [List.length_take, h.length, hlen]
    exact Nat.min_eq_left (numPages_mono hps hn)
  · rw [hlen] at hj
    rw [List.getElem?_take_of_lt hj, h.slot j (by omega), slotAt, slotAt,
      List.getElem?_take_of_lt (div_lt_numPages hps hj)]

theorem drop {n : Nat} (hdvd : ps ∣ n) : Laid ps (l.drop n) (P.drop (n / ps)) := by
  obtain ⟨k, rfl⟩ := hdvd
  rw [Nat.mul_comm, Nat.mul_div_cancel _ hps]
  refine ⟨?_, fun j hj => ?_⟩
  · rw [List.length_drop, List.length_drop, h.length, numPages_sub_mul hps]
  · rw [List.length_drop] at hj
    obtain ⟨hdiv, hmod⟩ := mul_add_div_mod hps k j
    rw [List.getElem?_drop, h.slot _ (by omega), slotAt, slotAt, hdiv, hmod, List.getElem?_drop]

theorem mem_touched_iff {p : Nat} : p ∈ touched ps l ↔ p ∈ P := by
  rw [touched, List.mem_toFinset, List.mem_map]
  constructor
  · rintro ⟨x, hx, rfl⟩
    obtain ⟨j, hj, rfl⟩ := List.getElem_of_mem hx
    have hslot := h.slot j hj
    rw [List.getElem?_eq_getElem hj, slotAt, eq_comm, Option.map_eq_some_iff] at hslot
    obtain ⟨p, hp, hx⟩ := hslot
    rw [← hx, (mul_add_div_mod hps p _).1, Nat.div_eq_of_lt (Nat.mod_lt _ hps), Nat.add_zero]
    exact List.mem_of_getElem? hp
  · intro hp
    obtain ⟨k, hk, rfl⟩ := List.getElem_of_mem hp
    have hlt : k * ps < l.length := by
      rw [h.length] at hk
      exact (lt_numPages_iff hps).mp hk
    have hslot := h.slot _ hlt
    rw [slotAt, Nat.mul_div_cancel _ hps, Nat.mul_mod_left, List.getElem?_eq_getElem hk,
      Option.map_some, Nat.add_zero] at hslot
    exact ⟨_, List.mem_of_getElem? hslot, Nat.mul_div_cancel _ hps⟩

theorem touched_val (hP : P.Nodup) : (touched ps l).val = (P : Multiset Nat) := by
  have heq : touched ps l = P.toFinset := by
    ext p
    rw [h.mem_touched_iff hps, List.mem_toFinset]
  rw [heq, List.toFinset_val, hP.dedup]

theorem nodup (hP : P.Nodup) : l.Nodup := by
  rw [List.nodup_iff_getElem?_ne_getElem?]
  intro i j hij hj heq
  rw [h.slot i (by omega), h.slot j hj, slotAt, slotAt] at heq
  have hi' : i / ps < P.length := by
    rw [h.length]
    exact div_lt_numPages hps (by omega)
  have hj' : j / ps < P.length := by
    rw [h.length]
    exact div_lt_numPages hps hj
  rw [List.getElem?_eq_getElem hi', List.getElem?_eq_getElem hj', Option.map_some, Option.map_some,
    Option.some.injEq] at heq
  have hi := mul_add_div_mod hps P[i / ps] (i % ps)
  have hj := mul_add_div_mod hps P[j / ps] (j % ps)
  rw [heq, Nat.div_eq_of_lt (Nat.mod_lt i hps), Nat.mod_mod] at hi
  rw [Nat.div_eq_of_lt (Nat.mod_lt j hps), Nat.mod_mod] at hj
  have hpage : i / ps = j / ps := hP.getElem_inj_iff.mp (hi.1.symm.trans hj.1)
  have hplace : i % ps = j % ps := hi.2.symm.trans hj.2
  have hi'' := Nat.div_add_mod i ps
  rw [hpage, hplace, Nat.div_add_mod] at hi''
  omega

theorem pages_eq {i : Nat} {b : List Nat} (hb : (pages ps l)[i]? = some b) :
    ∃ p, b = pageSlots ps p := by
  have hi := (List.getElem?_eq_some_iff.mp hb).1
  rw [length_pages] at hi
  have hle := mul_add_le_length hi
  rw [getElem?_pages hi, Option.some.injEq] at hb
  have hiP : i < P.length := by
    rw [h.length, lt_numPages_iff hps]
    omega
  refine ⟨P[i], List.ext_getElem? fun j => ?_⟩
  rw [← hb]
  by_cases hj : j < ps
  · obtain ⟨hdiv, hmod⟩ := mul_add_div_mod hps i j
    rw [List.getElem?_take_of_lt hj, List.getElem?_drop, h.slot _ (by omega), slotAt, hdiv, hmod,
      Nat.div_eq_of_lt hj, Nat.mod_eq_of_lt hj, Nat.add_zero, List.getElem?_eq_getElem hiP]
    simp [pageSlots, hj]
  · rw [List.getElem?_eq_none (by rw [List.length_take]; omega),
      List.getElem?_eq_none (by simp [pageSlots]; omega)]

end

theorem page (p : Nat) : Laid ps (pageSlots ps p) [p] := by
  refine ⟨?_, fun j hj => ?_⟩
  · have hmul := numPages_mul hps 1
    rw [Nat.one_mul] at hmul
    simp [pageSlots, hmul]
  · have hj : j < ps := by simpa [pageSlots] using hj
    simp [pageSlots, slotAt, hj, Nat.div_eq_of_lt hj, Nat.mod_eq_of_lt hj]

theorem flatMap (P : List Nat) : Laid ps (P.flatMap (pageSlots ps)) P := by
  induction P with
  | nil => exact .nil hps
  | cons p P ih => exact (page hps p).append hps ih (by simp [pageSlots])

omit hps in
theorem getD_flatMap_window {free : List Nat} {s n j : Nat} (hn : s + n ≤ free.length)
    (hj : j < n * ps) :
    (((free.take (s + n)).drop s).flatMap (pageSlots ps)).getD j 0 =
      free.getD (s + j / ps) 0 * ps + j % ps := by
  have hps : 0 < ps := Nat.pos_of_ne_zero fun h => by simp [h] at hj
  have hquot : j / ps < n := (Nat.div_lt_iff_lt_mul hps).mpr hj
  have hlaid := (Laid.flatMap hps ((free.take (s + n)).drop s)).slot j (by
    rw [length_flatMap_pageSlots]
    simpa [Nat.min_eq_left hn] using hj)
  rw [List.getD_eq_getElem?_getD, hlaid, slotAt, List.getElem?_drop,
    List.getElem?_take_of_lt (by omega), List.getD_eq_getElem?_getD,
    List.getElem?_eq_getElem (by omega)]
  rfl

theorem of_pages {bs : List (List Nat)} (hbs : ∀ b ∈ bs, ∃ p, b = pageSlots ps p) :
    ∃ P, Laid ps bs.flatten P := by
  induction bs with
  | nil => exact ⟨[], .nil hps⟩
  | cons b bs ih =>
      obtain ⟨p, rfl⟩ := hbs b List.mem_cons_self
      obtain ⟨P, hP⟩ := ih fun b hb => hbs b (List.mem_cons_of_mem _ hb)
      exact ⟨p :: P, (Laid.page hps p).append hps hP (by simp [pageSlots])⟩

end Laid

section PageHeads

variable {ps : Nat}

theorem pageHeads_add (m m' : Multiset Nat) :
    pageHeads ps (m + m') = pageHeads ps m + pageHeads ps m' := by
  rw [pageHeads, Multiset.filter_add, Multiset.map_add]
  rfl

theorem pageHeads_append (l l' : List Nat) :
    pageHeads ps ((l ++ l' : List Nat) : Multiset Nat) = pageHeads ps l + pageHeads ps l' := by
  rw [← Multiset.coe_add, pageHeads_add]

theorem pageHeads_eq_zero {l : List Nat} (h : ∀ x ∈ l, ¬ ps ∣ x) :
    pageHeads ps (l : Multiset Nat) = 0 := by
  rw [pageHeads, Multiset.filter_eq_nil.mpr (fun x hx => h x (Multiset.mem_coe.mp hx))]
  rfl

theorem Laid.pageHeads_single (hps : 0 < ps) {l : List Nat} {p : Nat} (h : Laid ps l [p]) :
    pageHeads ps (l : Multiset Nat) = {p} := by
  have hlen := h.length
  have hpos : 0 < l.length := by
    have hlt := lt_numPages_iff hps (k := 0) (n := l.length)
    simp at hlen hlt
    omega
  have hle : l.length ≤ ps := by
    have hlt := lt_numPages_iff hps (k := 1) (n := l.length)
    simp at hlen hlt
    omega
  have hslot : ∀ j, j < l.length → l[j]? = some (p * ps + j) := by
    intro j hj
    rw [h.slot j hj, slotAt, Nat.div_eq_of_lt (by omega), Nat.mod_eq_of_lt (by omega)]
    rfl
  cases l with
  | nil => cases hpos
  | cons x t =>
      have hx : x = p * ps := by simpa using hslot 0 hpos
      have ht : ∀ y ∈ t, ¬ ps ∣ y := by
        intro y hy hdvd
        obtain ⟨j, hj, rfl⟩ := List.getElem_of_mem hy
        have hget := hslot (j + 1) (by simpa using hj)
        rw [List.getElem?_cons_succ, List.getElem?_eq_getElem hj, Option.some.injEq] at hget
        rw [hget, Nat.dvd_add_right (Nat.dvd_mul_left ps p)] at hdvd
        have hge := Nat.le_of_dvd (Nat.succ_pos j) hdvd
        rw [List.length_cons] at hle
        omega
      rw [← List.singleton_append, pageHeads_append, pageHeads_eq_zero ht, add_zero, hx, pageHeads,
        Multiset.coe_singleton, Multiset.filter_singleton, if_pos (Nat.dvd_mul_left ps p)]
      simp [Nat.mul_div_cancel _ hps]

theorem Laid.pageHeads_eq (hps : 0 < ps) {l P : List Nat} (h : Laid ps l P) :
    pageHeads ps (l : Multiset Nat) = P := by
  induction P generalizing l with
  | nil =>
      have hlt := lt_numPages_iff hps (k := 0) (n := l.length)
      rw [← h.length, Nat.zero_mul] at hlt
      have hnil : l = [] := List.length_eq_zero_iff.mp
        (Nat.eq_zero_of_not_pos fun hpos => Nat.lt_irrefl _ (hlt.mpr hpos))
      rw [hnil]
      rfl
  | cons p P ih =>
      by_cases hP : P = []
      · subst hP
        exact h.pageHeads_single hps
      · have hpos := List.length_pos_of_ne_nil hP
        have hlt := lt_numPages_iff hps (k := 1) (n := l.length)
        rw [← h.length, List.length_cons, Nat.one_mul] at hlt
        have hone := numPages_mul hps 1
        have hfirst := h.take hps (n := ps) (by omega)
        have hrest := h.drop hps (Nat.dvd_refl ps)
        rw [Nat.one_mul] at hone
        rw [hone] at hfirst
        rw [Nat.div_self hps] at hrest
        rw [← List.take_append_drop ps l, pageHeads_append, hfirst.pageHeads_single hps, ih hrest]
        rfl

theorem pageHeads_sum {ι : Type} (t : Finset ι) (f : ι → Multiset Nat) :
    pageHeads ps (∑ i ∈ t, f i) = ∑ i ∈ t, pageHeads ps (f i) :=
  map_sum (⟨⟨pageHeads ps, rfl⟩, pageHeads_add⟩ : Multiset Nat →+ Multiset Nat) f t

theorem Laid.touched_eq_pageHeads (hps : 0 < ps) {l P : List Nat} (h : Laid ps l P)
    (hnodup : (pageHeads ps (l : Multiset Nat)).Nodup) :
    (touched ps l).val = pageHeads ps (l : Multiset Nat) ∧ l.Nodup := by
  rw [h.pageHeads_eq hps] at hnodup ⊢
  exact ⟨h.touched_val hps hnodup, h.nodup hps hnodup⟩

theorem Laid.pageHeads_drop (hps : 0 < ps) {l P : List Nat} (h : Laid ps l P) {n : Nat}
    (hn : n ≤ l.length) :
    pageHeads ps (l.drop n : List Nat) = pageHeads ps (l.drop (numPages ps n * ps) : List Nat) := by
  have hall := h.pageHeads_eq hps
  have hrest := h.drop hps (Nat.dvd_mul_left ps (numPages ps n))
  rw [Nat.mul_div_cancel _ hps] at hrest
  rw [← List.take_append_drop n l, pageHeads_append, (h.take hps hn).pageHeads_eq hps] at hall
  rw [hrest.pageHeads_eq hps]
  refine add_left_cancel (a := (P.take (numPages ps n) : Multiset Nat)) ?_
  rw [hall, Multiset.coe_add, List.take_append_drop]

end PageHeads

end SpecDecode
