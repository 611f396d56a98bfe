import SpecDecode.Eplb.RelocationPlan
import SpecDecode.Lib.OptionMap
import SpecDecode.Lib.SortedKeys
import Mathlib.Algebra.Order.BigOperators.Group.List
import Mathlib.Algebra.Order.Group.Nat

/-!
# Relocation is correct

A rank handles each of its locations in one of four ways; the first location of an expert it has
no copy of is the only one it receives. The operations of a rank are described expert by expert,
on both sides in terms of the source a rank chooses, and so the sends of one rank to another
correspond to the receives of the other from it. Whatever is written to a buffer or to a weight is
the expert the new map wants there, so no order of the writes matters.
-/

namespace SpecDecode.Eplb

open OptionMap SortedKeys

namespace Layer

variable {ly : Layer}

structure FirstAt (ly : Layer) (rank : Nat) (p : Nat → Bool) (location : Nat) : Prop where
  mem : location ∈ ly.localRange rank
  holds : p location
  first : ∀ x ∈ ly.localRange rank, x < location → ¬ p x

variable {rank e : Nat} {p : Nat → Bool}

variable {x location worldSize : Nat}

theorem FirstAt.unique {y : Nat} (hx : ly.FirstAt rank p x) (hy : ly.FirstAt rank p y) : x = y := by
  rcases Nat.lt_trichotomy x y with hlt | heq | hgt
  · exact absurd hx.holds (hy.first x hx.mem hlt)
  · exact heq
  · exact absurd hy.holds (hx.first y hy.mem hgt)

theorem find?_localRange_eq_some : (ly.localRange rank).find? p = some x ↔ ly.FirstAt rank p x := by
  rw [localRange, List.find?_range'_eq_some]
  constructor
  · rintro ⟨hx, hmem, hfirst⟩
    exact ⟨hmem, hx, fun y hy hlt => by simpa using hfirst y (mem_localRange.mp hy).1 hlt⟩
  · rintro ⟨hmem, hx, hfirst⟩
    refine ⟨hx, hmem, fun y hle hlt => ?_⟩
    have hy : y ∈ ly.localRange rank :=
      mem_localRange.mpr ⟨hle, Nat.lt_trans hlt (mem_localRange.mp hmem).2⟩
    simpa using hfirst y hy hlt

theorem exists_firstAt (hmem : x ∈ ly.localRange rank) (hx : p x) :
    ∃ y, ly.FirstAt rank p y ∧ y ≤ x := by
  cases hfind : (ly.localRange rank).find? p with
  | none => exact absurd hx (List.find?_eq_none.mp hfind x hmem)
  | some y =>
      have hfirst := find?_localRange_eq_some.mp hfind
      refine ⟨y, hfirst, Nat.le_of_not_lt fun hlt => ?_⟩
      exact hfirst.first x hmem hlt hx

theorem find?_below_eq_some (hmem : location ∈ ly.localRange rank)
    (h : (List.range' (rank * ly.numLocalPhysicalExperts)
      (location - rank * ly.numLocalPhysicalExperts)).find? p = some x) :
    ly.FirstAt rank p x ∧ x < location := by
  obtain ⟨hx, hrange, hfirst⟩ := List.find?_range'_eq_some.mp h
  rw [List.mem_range'_1] at hrange
  obtain ⟨hle, hlt⟩ := mem_localRange.mp hmem
  refine ⟨⟨mem_localRange.mpr (by omega), hx, fun y hy hlt => ?_⟩, by omega⟩
  simpa using hfirst y (mem_localRange.mp hy).1 hlt

theorem find?_below_eq_none (h : (List.range' (rank * ly.numLocalPhysicalExperts)
      (location - rank * ly.numLocalPhysicalExperts)).find? p = none) :
    ∀ x ∈ ly.localRange rank, x < location → ¬ p x := by
  intro x hx hlt
  have hle := (mem_localRange.mp hx).1
  exact List.find?_eq_none.mp h x (List.mem_range'_1.mpr ⟨hle, by omega⟩)

inductive Handled (ly : Layer) (rank e location : Nat) : Plan → Prop where
  | unchanged (hold : ly.oldAt location e) : Handled ly rank e location ⟨[], [], []⟩
  | sameGpu {src : Nat} (hmem : src ∈ ly.localRange rank) (hsrc : ly.oldAt src e) :
      Handled ly rank e location ⟨[(src, location)], [], [(location, location)]⟩
  | freeRider {src : Nat} (hneed : rank ∈ ly.needCommDstRanks e)
      (hfirst : ly.FirstAt rank (ly.newAt · e) src) (hlt : src < location) :
      Handled ly rank e location ⟨[], [], [(src, location)]⟩
  | received {src : Nat} (hneed : rank ∈ ly.needCommDstRanks e)
      (hfirst : ly.FirstAt rank (ly.newAt · e) location)
        (hsrc : ly.chosenSrcRank rank e = some src) :
      Handled ly rank e location (ly.createP2pRecv e src location)

section

variable {worldSize : Nat} (hfits : ly.Fits worldSize)
include hfits

theorem handleRecvOfDstExpertLocation_spec {location : Nat} (hmem : location ∈ ly.localRange rank)
    (hnew : ly.newAt location e) (hold : e ∈ ly.oldPhysicalToLogicalMap) :
    ∃ plan, ly.handleRecvOfDstExpertLocation rank location = some plan ∧
      ly.Handled rank e location plan := by
  unfold handleRecvOfDstExpertLocation
  rw [newAt_iff.mp hnew, Option.bind_some]
  split
  · next hunchanged => exact ⟨_, rfl, .unchanged hunchanged⟩
  · split
    · next src hsrc =>
        have hfirst := find?_localRange_eq_some.mp hsrc
        exact ⟨_, rfl, .sameGpu hfirst.mem hfirst.holds⟩
    · next hnone =>
        have hneed : rank ∈ ly.needCommDstRanks e := by
          refine (mem_needCommDstRanks hfits).mpr ⟨⟨location, hmem, hnew⟩, fun hsrc => ?_⟩
          obtain ⟨x, hx, hxold⟩ := (mem_allSrcRanks hfits).mp hsrc
          exact List.find?_eq_none.mp hnone x hx hxold
        split
        · next src hsrc =>
            obtain ⟨hfirst, hlt⟩ := find?_below_eq_some hmem hsrc
            exact ⟨_, rfl, .freeRider hneed hfirst hlt⟩
        · next hbelow =>
            have hsrc : ly.allSrcRanks e ≠ [] := by
              obtain ⟨x, hx⟩ := List.getElem?_of_mem hold
              refine List.ne_nil_of_mem (a := ly.rankOf x) ((mem_allSrcRanks hfits).mpr ⟨x, ?_, ?_⟩)
              · exact mem_localRange_rankOf hfits (lt_of_oldAt (oldAt_iff.mpr hx))
              · exact oldAt_iff.mpr hx
            obtain ⟨src, hchosen⟩ := chosenSrcRank_of_need hneed hsrc
            rw [hchosen]
            exact ⟨_, rfl, .received hneed ⟨hmem, hnew, find?_below_eq_none hbelow⟩ hchosen⟩

theorem exists_newAt (hrank : rank < worldSize) {x : Nat} (hx : x ∈ ly.localRange rank) :
    ∃ e, ly.newAt x e := by
  obtain ⟨_, hlt⟩ := mem_localRange.mp hx
  have hle : (rank + 1) * ly.numLocalPhysicalExperts ≤ worldSize * ly.numLocalPhysicalExperts :=
    Nat.mul_le_mul_right _ hrank
  rw [Nat.succ_mul, ← hfits.new_length] at hle
  exact ⟨_, newAt_iff.mpr (List.getElem?_eq_getElem (Nat.lt_of_lt_of_le hlt hle))⟩

theorem exists_oldAt (hrank : rank < worldSize) {x : Nat} (hx : x ∈ ly.localRange rank) :
    ∃ e, ly.oldAt x e := by
  obtain ⟨e, hnew⟩ := exists_newAt hfits hrank hx
  have hlt := lt_of_newAt hfits hnew
  exact ⟨_, oldAt_iff.mpr (List.getElem?_eq_getElem hlt)⟩

end

def Handles (ly : Layer) (rank : Nat) (plans : Nat → Plan) : Prop :=
  ∀ x ∈ ly.localRange rank, ∃ e, ly.newAt x e ∧ ly.Handled rank e x (plans x)

/-- Every expert of the new map is in the old one. -/
def Known (ly : Layer) : Prop := ∀ e ∈ ly.newPhysicalToLogicalMap, e ∈ ly.oldPhysicalToLogicalMap

theorem handleRecv_spec (hfits : ly.Fits worldSize) (hknown : ly.Known) (hrank : rank < worldSize) :
    ∃ plans, ly.handleRecv rank = some (Plan.join ((ly.localRange rank).map plans)) ∧
      ly.Handles rank plans := by
  have hone : ∀ x, ∃ plan, x ∈ ly.localRange rank →
      ly.handleRecvOfDstExpertLocation rank x = some plan ∧
        ∃ e, ly.newAt x e ∧ ly.Handled rank e x plan := by
    intro x
    by_cases hx : x ∈ ly.localRange rank
    · obtain ⟨e, hnew⟩ := exists_newAt hfits hrank hx
      have hold := hknown e (List.mem_of_getElem? (newAt_iff.mp hnew))
      obtain ⟨plan, hplan, hhandled⟩ := handleRecvOfDstExpertLocation_spec hfits hx hnew hold
      exact ⟨plan, fun _ => ⟨hplan, e, hnew, hhandled⟩⟩
    · exact ⟨⟨[], [], []⟩, fun h => absurd h hx⟩
  choose plans hplans using hone
  refine ⟨plans, ?_, fun x hx => (hplans x hx).2⟩
  rw [handleRecv, mapM_eq_some_map fun x hx => (hplans x hx).1]
  rfl

def recvInfoOf (ly : Layer) (rank e : Nat) : List (Nat × List P2POp) :=
  match ly.chosenSrcRank rank e, (ly.localRange rank).find? (ly.newAt · e) with
  | some src, some x => (ly.createP2pRecv e src x).p2pOpInfos
  | _, _ => []

def sendInfoOf (ly : Layer) (rank e : Nat) : List (Nat × List P2POp) :=
  match (ly.localRange rank).find? (ly.oldAt · e) with
  | some x => (ly.createIsendOpsOf rank e x).toList
  | none => []

theorem recvInfoOf_eq {src : Nat} (hsrc : ly.chosenSrcRank rank e = some src)
    (hx : ly.FirstAt rank (ly.newAt · e) x) :
    ly.recvInfoOf rank e = (ly.createP2pRecv e src x).p2pOpInfos := by
  rw [recvInfoOf, hsrc, find?_localRange_eq_some.mpr hx]

theorem Handled.atKey {e' : Nat} {plan : Plan} (h : ly.Handled rank e' location plan)
    (e : Nat) (hne : atKey plan.p2pOpInfos e ≠ []) :
    ly.FirstAt rank (ly.newAt · e) location ∧ atKey plan.p2pOpInfos e = ly.recvInfoOf rank e := by
  cases h with
  | unchanged => exact absurd rfl hne
  | sameGpu => exact absurd rfl hne
  | freeRider => exact absurd rfl hne
  | received hneed hfirst hsrc =>
      rw [createP2pRecv, atKey_cons, atKey_nil] at hne ⊢
      by_cases heq : e' = e
      · subst heq
        rw [if_pos rfl, recvInfoOf_eq hsrc hfirst]
        exact ⟨hfirst, rfl⟩
      · exact absurd (if_neg heq) hne

theorem atKey_recvInfos (hfits : ly.Fits worldSize) {plans : Nat → Plan}
    (hplans : ly.Handles rank plans) (e : Nat) :
    atKey (Plan.join ((ly.localRange rank).map plans)).p2pOpInfos e = ly.recvInfoOf rank e := by
  rw [Plan.join, atKey_flatMap, List.flatMap_map]
  cases hsrc : ly.chosenSrcRank rank e with
  | none =>
      have hnone : ly.recvInfoOf rank e = [] := by rw [recvInfoOf, hsrc]
      rw [hnone, List.flatMap_eq_nil_iff]
      intro x hx
      obtain ⟨e', _, hhandled⟩ := hplans x hx
      by_contra hne
      exact hne ((hhandled.atKey e hne).2.trans hnone)
  | some src =>
      obtain ⟨⟨x, hx, hnew⟩, hnotSrc⟩ := (mem_needCommDstRanks hfits).mp (chosenSrcRank_mem hsrc).1
      obtain ⟨x₀, hfirst, _⟩ := exists_firstAt (p := (ly.newAt · e)) hx hnew
      have hnodup : (ly.localRange rank).Nodup := List.nodup_range'
      rw [flatMap_eq_of_nodup hnodup hfirst.mem]
      · -- The first location has no other way to get the expert.
        obtain ⟨e', hnew', hhandled⟩ := hplans x₀ hfirst.mem
        obtain rfl : e' = e :=
          Option.some.inj ((newAt_iff.mp hnew').symm.trans (newAt_iff.mp hfirst.holds))
        rw [recvInfoOf_eq hsrc hfirst]
        generalize plans x₀ = plan at hhandled
        cases hhandled with
        | unchanged hold =>
            exact absurd ((mem_allSrcRanks hfits).mpr ⟨x₀, hfirst.mem, hold⟩) hnotSrc
        | sameGpu hmem hold =>
            exact absurd ((mem_allSrcRanks hfits).mpr ⟨_, hmem, hold⟩) hnotSrc
        | freeRider _ hother hlt =>
            have := hother.unique hfirst
            omega
        | received _ _ hsrc' =>
            obtain rfl : _ = src := Option.some.inj (hsrc'.symm.trans hsrc)
            simp [createP2pRecv, atKey_cons]
      · intro b hb hne
        obtain ⟨e', _, hhandled⟩ := hplans b hb
        by_contra hcontra
        exact hne ((hhandled.atKey e hcontra).1.unique hfirst)

/-- The loop over the locations a rank sends from: each expert is sent from the first. -/
theorem createIsendOpsLoop_spec {srcs : List Nat}
    (hsrcs : ∀ x ∈ srcs, ∃ e info, ly.oldAt x e ∧ ly.createIsendOpsOf rank e x = some info)
    (handled : List Nat) :
    ∃ infos, ly.createIsendOpsLoop rank handled srcs = some infos ∧
      ∀ e, atKey infos e = if e ∈ handled then [] else
        match srcs.find? (ly.oldAt · e) with
        | some x => (ly.createIsendOpsOf rank e x).toList
        | none => [] := by
  induction srcs generalizing handled with
  | nil => exact ⟨[], rfl, fun e => by simp⟩
  | cons x srcs ih =>
      obtain ⟨e₀, info, hold, hinfo⟩ := hsrcs x List.mem_cons_self
      have ih := ih fun y hy => hsrcs y (List.mem_cons_of_mem _ hy)
      rw [createIsendOpsLoop, oldAt_iff.mp hold]
      have hother : ∀ e, e ≠ e₀ → ¬ ly.oldAt x e := fun e hne hxe =>
        hne (Option.some.inj ((oldAt_iff.mp hxe).symm.trans (oldAt_iff.mp hold)))
      by_cases hhandled : e₀ ∈ handled
      · obtain ⟨infos, hinfos, hkeys⟩ := ih handled
        refine ⟨infos, by simpa [hhandled] using hinfos, fun e => ?_⟩
        rw [hkeys e]
        by_cases heq : e = e₀
        · rw [heq, if_pos hhandled, if_pos hhandled]
        · rw [List.find?_cons_of_neg (p := (ly.oldAt · e)) (hother e heq)]
      · obtain ⟨infos, hinfos, hkeys⟩ := ih (e₀ :: handled)
        refine ⟨info :: infos, by simp [hhandled, hinfo, hinfos], fun e => ?_⟩
        have hfst : info.1 = e₀ := by
          obtain ⟨_, _, rfl⟩ := Option.map_eq_some_iff.mp hinfo
          rfl
        rw [atKey_cons, hkeys e, hfst]
        by_cases heq : e = e₀
        · subst heq
          rw [if_pos rfl, if_pos List.mem_cons_self, if_neg hhandled,
            List.find?_cons_of_pos (p := (ly.oldAt · e)) hold]
          show [info] = (ly.createIsendOpsOf rank e x).toList
          rw [hinfo]
          rfl
        · rw [if_neg fun h => heq h.symm,
            List.find?_cons_of_neg (p := (ly.oldAt · e)) (hother e heq)]
          simp [heq]

theorem createIsendOps_spec (hfits : ly.Fits worldSize) (hrank : rank < worldSize) :
    ∃ infos, ly.createIsendOps rank = some infos ∧ ∀ e, atKey infos e = ly.sendInfoOf rank e := by
  have hsrcs : ∀ x ∈ ly.localRange rank, ∃ e info, ly.oldAt x e ∧
      ly.createIsendOpsOf rank e x = some info := by
    intro x hx
    obtain ⟨e, hold⟩ := exists_oldAt hfits hrank hx
    obtain ⟨dsts, hdsts, _⟩ := allDstRanks_spec ((mem_allSrcRanks hfits).mpr ⟨x, hx, hold⟩)
    exact ⟨e, _, hold, by rw [createIsendOpsOf, hdsts]; rfl⟩
  obtain ⟨infos, hinfos, hkeys⟩ := createIsendOpsLoop_spec hsrcs []
  exact ⟨infos, hinfos, fun e => by rw [hkeys e, if_neg List.not_mem_nil]; rfl⟩

def sendsTo (ly : Layer) (src dst e : Nat) : List P2POp :=
  match (ly.localRange src).find? (ly.oldAt · e) with
  | some x => if ly.chosenSrcRank dst e = some src then
      (List.range ly.numTensors).map fun i => ⟨.isend, i, ly.slotOf x, dst⟩ else []
  | none => []

def recvsFrom (ly : Layer) (dst src e : Nat) : List P2POp :=
  match (ly.localRange dst).find? (ly.newAt · e) with
  | some x => if ly.chosenSrcRank dst e = some src then
      (List.range ly.numTensors).map fun i => ⟨.irecv, i, ly.slotOf x, src⟩ else []
  | none => []

theorem opsWith_tensors (kind kind' : OpKind) (peer peer' slot n : Nat) :
    opsWith kind peer ((List.range n).map fun i => ⟨kind', i, slot, peer'⟩) =
      if kind' = kind ∧ peer' = peer then
        (List.range n).map fun i => ⟨kind', i, slot, peer'⟩ else [] := by
  unfold opsWith
  split
  · next heq =>
      refine List.filter_eq_self.mpr fun op hop => ?_
      obtain ⟨i, _, rfl⟩ := List.mem_map.mp hop
      simpa using heq
  · next hne =>
      refine List.filter_eq_nil_iff.mpr fun op hop => ?_
      obtain ⟨i, _, rfl⟩ := List.mem_map.mp hop
      simpa using hne

theorem opsWith_flatMap {α : Type} (kind : OpKind) (peer : Nat) (l : List α) (f : α → List P2POp) :
    opsWith kind peer (l.flatMap f) = l.flatMap fun a => opsWith kind peer (f a) :=
  List.filter_flatMap ..

theorem opsWith_recvInfoOf (kind : OpKind) (peer e : Nat) :
    opsWith kind peer ((ly.recvInfoOf rank e).flatMap (·.2)) =
      if kind = .irecv then ly.recvsFrom rank peer e else [] := by
  rw [recvInfoOf, recvsFrom]
  cases ly.chosenSrcRank rank e with
  | none => cases (ly.localRange rank).find? (ly.newAt · e) <;> simp [opsWith]
  | some src =>
      cases (ly.localRange rank).find? (ly.newAt · e) with
      | none => simp [opsWith]
      | some x =>
          simp only [createP2pRecv, List.flatMap_cons, List.flatMap_nil, List.append_nil]
          rw [opsWith_tensors]
          by_cases hpeer : src = peer
          · cases kind <;> simp [hpeer]
          · simp [hpeer]

theorem opsWith_sendInfoOf (hfits : ly.Fits worldSize) (kind : OpKind) (peer e : Nat) :
    opsWith kind peer ((ly.sendInfoOf rank e).flatMap (·.2)) =
      if kind = .isend then ly.sendsTo rank peer e else [] := by
  rw [sendInfoOf, sendsTo]
  cases hfind : (ly.localRange rank).find? (ly.oldAt · e) with
  | none => simp [opsWith]
  | some x =>
      have hfirst := find?_localRange_eq_some.mp hfind
      obtain ⟨dsts, hdsts, hnodup, hmem⟩ :=
        allDstRanks_spec ((mem_allSrcRanks hfits).mpr ⟨x, hfirst.mem, hfirst.holds⟩)
      simp only [createIsendOpsOf, hdsts, Option.map_some, Option.toList_some, List.flatMap_cons,
        List.flatMap_nil, List.append_nil]
      rw [opsWith_flatMap]
      by_cases hkind : kind = .isend
      · subst hkind
        rw [if_pos rfl]
        by_cases hpeer : peer ∈ dsts
        · rw [if_pos ((hmem peer).mp hpeer), flatMap_eq_of_nodup hnodup hpeer, opsWith_tensors,
            if_pos ⟨rfl, rfl⟩]
          intro dst _ hne
          rw [opsWith_tensors, if_neg fun h => hne h.2]
        · rw [if_neg fun h => hpeer ((hmem peer).mpr h), List.flatMap_eq_nil_iff]
          intro dst hdst
          rw [opsWith_tensors, if_neg]
          rintro ⟨_, rfl⟩
          exact hpeer hdst
      · rw [if_neg hkind, List.flatMap_eq_nil_iff]
        intro dst _
        rw [opsWith_tensors, if_neg fun h => hkind h.1.symm]

theorem slot_of_mem (hx : x ∈ ly.localRange rank) :
    rank * ly.numLocalPhysicalExperts + ly.slotOf x = x := by
  obtain ⟨hle, hlt⟩ := mem_localRange.mp hx
  obtain ⟨d, rfl⟩ := Nat.exists_eq_add_of_le hle
  rw [slotOf, Nat.mul_comm, Nat.mul_add_mod, Nat.mod_eq_of_lt (by omega)]

theorem slotOf_lt (hx : x ∈ ly.localRange rank) : ly.slotOf x < ly.numLocalPhysicalExperts := by
  have := mem_localRange.mp hx
  exact Nat.mod_lt _ (by omega)

/-- A send and a receive are of one expert and tensor. -/
structure Partners (ly : Layer) (src dst : Nat) (send recv : P2POp) : Prop where
  tensor : send.tensor = recv.tensor
  tensor_lt : recv.tensor < ly.numTensors
  send_slot : send.slot < ly.numLocalPhysicalExperts
  recv_slot : recv.slot < ly.numLocalPhysicalExperts
  expert : ly.oldPhysicalToLogicalMap[src * ly.numLocalPhysicalExperts + send.slot]? =
    ly.newPhysicalToLogicalMap[dst * ly.numLocalPhysicalExperts + recv.slot]?

theorem partners_sendsTo (hfits : ly.Fits worldSize) (src dst e : Nat) :
    List.Forall₂ (ly.Partners src dst) (ly.sendsTo src dst e) (ly.recvsFrom dst src e) := by
  rw [sendsTo, recvsFrom]
  by_cases hchosen : ly.chosenSrcRank dst e = some src
  · obtain ⟨hneed, hsrc⟩ := chosenSrcRank_mem hchosen
    obtain ⟨x, hx, hold⟩ := (mem_allSrcRanks hfits).mp hsrc
    obtain ⟨⟨y, hy, hnew⟩, _⟩ := (mem_needCommDstRanks hfits).mp hneed
    obtain ⟨x₀, hx₀, _⟩ := exists_firstAt (p := (ly.oldAt · e)) hx hold
    obtain ⟨y₀, hy₀, _⟩ := exists_firstAt (p := (ly.newAt · e)) hy hnew
    rw [find?_localRange_eq_some.mpr hx₀, find?_localRange_eq_some.mpr hy₀]
    simp only [hchosen, if_true, List.forall₂_map_left_iff, List.forall₂_map_right_iff,
      List.forall₂_same]
    intro i hi
    refine ⟨rfl, List.mem_range.mp hi, slotOf_lt hx₀.mem, slotOf_lt hy₀.mem, ?_⟩
    rw [slot_of_mem hx₀.mem, slot_of_mem hy₀.mem, oldAt_iff.mp hx₀.holds, newAt_iff.mp hy₀.holds]
  · simp only [hchosen, if_false]
    split <;> split <;> exact List.Forall₂.nil

structure Issued (ly : Layer) (worldSize m rank : Nat) (ops : List P2POp) : Prop where
  sends : ∀ dst, opsWith .isend dst ops = (List.range m).flatMap (ly.sendsTo rank dst)
  recvs : ∀ src, opsWith .irecv src ops = (List.range m).flatMap (ly.recvsFrom rank src)
  peers : ∀ op ∈ ops, op.peer < worldSize

section

variable {worldSize : Nat} (hfits : ly.Fits worldSize)
include hfits

theorem lt_of_mem_allSrcRanks (h : rank ∈ ly.allSrcRanks e) : rank < worldSize := by
  obtain ⟨x, hx, hold⟩ := (mem_allSrcRanks hfits).mp h
  exact lt_worldSize hfits hx (lt_of_oldAt hold)

theorem lt_of_mem_needCommDstRanks (h : rank ∈ ly.needCommDstRanks e) : rank < worldSize := by
  obtain ⟨⟨x, hx, hnew⟩, _⟩ := (mem_needCommDstRanks hfits).mp h
  exact lt_worldSize hfits hx (lt_of_newAt hfits hnew)

theorem recvInfoOf_mem {info : Nat × List P2POp} (h : info ∈ ly.recvInfoOf rank e) :
    e ∈ ly.oldPhysicalToLogicalMap ∧ ∀ op ∈ info.2, op.peer < worldSize := by
  rw [recvInfoOf] at h
  split at h
  · next src x hsrc _ =>
      have hmem := (chosenSrcRank_mem hsrc).2
      obtain ⟨y, _, hold⟩ := (mem_allSrcRanks hfits).mp hmem
      refine ⟨List.mem_of_getElem? (oldAt_iff.mp hold), fun op hop => ?_⟩
      obtain rfl := List.mem_singleton.mp h
      obtain ⟨i, _, rfl⟩ := List.mem_map.mp hop
      exact lt_of_mem_allSrcRanks hfits hmem
  · cases h

theorem sendInfoOf_mem {info : Nat × List P2POp} (h : info ∈ ly.sendInfoOf rank e) :
    e ∈ ly.oldPhysicalToLogicalMap ∧ ∀ op ∈ info.2, op.peer < worldSize := by
  rw [sendInfoOf] at h
  split at h
  · next x hfind =>
      have hfirst := find?_localRange_eq_some.mp hfind
      refine ⟨List.mem_of_getElem? (oldAt_iff.mp hfirst.holds), fun op hop => ?_⟩
      obtain ⟨dsts, hdsts, _, hmem⟩ :=
        allDstRanks_spec ((mem_allSrcRanks hfits).mpr ⟨x, hfirst.mem, hfirst.holds⟩)
      rw [createIsendOpsOf, hdsts] at h
      obtain rfl := List.mem_singleton.mp h
      obtain ⟨dst, hdst, hop⟩ := List.mem_flatMap.mp hop
      obtain ⟨i, _, rfl⟩ := List.mem_map.mp hop
      exact lt_of_mem_needCommDstRanks hfits (chosenSrcRank_mem ((hmem dst).mp hdst)).1
  · cases h

end

theorem filterP2pOps_eq {isActive : Option (Nat → Bool)} {infos : List (Nat × List P2POp)}
    (h : ∀ f, isActive = some f → ∀ info ∈ infos, ∀ op ∈ info.2, f op.peer) :
    filterP2pOps isActive infos = infos := by
  cases isActive with
  | none => rfl
  | some f =>
      have h := h f rfl
      unfold filterP2pOps
      refine (List.map_congr_left fun info hinfo => ?_).trans (List.map_id infos)
      obtain ⟨e, ops⟩ := info
      have hops : ∀ op ∈ ops, f op.peer := h (e, ops) hinfo
      have hnone : ¬ ops.any fun op => !f op.peer := by simpa using hops
      simp only [List.filter_eq_self.mpr hops, if_neg hnone, ite_self, id]

theorem exists_bound (l : List Nat) : ∃ m, ∀ e ∈ l, e < m :=
  ⟨l.sum + 1, fun _ he => Nat.lt_succ_of_le (List.le_sum_of_mem he)⟩

/-- A rank of a world of active ranks has a plan, and issues what it is to send and to receive. -/
theorem planOf_spec {m : Nat} (hgpu : 0 < ly.numGpuPerNode) (hfits : ly.Fits worldSize)
    (hknown : ly.Known)
    {isActive : Option (Nat → Bool)} (hactive : ∀ f, isActive = some f → ∀ r < worldSize, f r)
    (hm : ∀ e ∈ ly.oldPhysicalToLogicalMap, e < m) (hrank : rank < worldSize) :
    ∃ plans ops, ly.planOf isActive rank = some (Plan.join ((ly.localRange rank).map plans), ops) ∧
      ly.Handles rank plans ∧ ly.Issued worldSize m rank ops := by
  obtain ⟨plans, hplan, hplans⟩ := handleRecv_spec hfits hknown hrank
  obtain ⟨sends, hsends, hsendKeys⟩ := createIsendOps_spec hfits hrank
  have hrecvKeys := atKey_recvInfos hfits hplans
  generalize hjoin : Plan.join ((ly.localRange rank).map plans) = plan at hplan hrecvKeys
  have hkeys : ∀ e, atKey (plan.p2pOpInfos ++ sends) e = ly.recvInfoOf rank e ++
      ly.sendInfoOf rank e :=
    fun e => by rw [atKey_append, hrecvKeys, hsendKeys]
  have hinfo : ∀ info ∈ plan.p2pOpInfos ++ sends,
      info.1 ∈ ly.oldPhysicalToLogicalMap ∧ ∀ op ∈ info.2, op.peer < worldSize := by
    intro info hmem
    have hmem : info ∈ atKey (plan.p2pOpInfos ++ sends) info.1 := mem_atKey.mpr ⟨hmem, rfl⟩
    rw [hkeys] at hmem
    rcases List.mem_append.mp hmem with hmem | hmem
    · exact recvInfoOf_mem hfits hmem
    · exact sendInfoOf_mem hfits hmem
  have hfilter : filterP2pOps isActive (plan.p2pOpInfos ++ sends) = plan.p2pOpInfos ++ sends :=
    filterP2pOps_eq fun f hf info hmem op hop => hactive f hf _ ((hinfo info hmem).2 op hop)
  have hops : ∀ kind peer, opsWith kind peer
      ((sortByKey (plan.p2pOpInfos ++ sends)).flatMap (·.2)) = (List.range m).flatMap fun e =>
        (if kind = .irecv then ly.recvsFrom rank peer e else []) ++
          if kind = .isend then ly.sendsTo rank peer e else [] := by
    intro kind peer
    rw [flatMap_sortByKey fun info hmem => hm _ (hinfo info hmem).1, opsWith_flatMap]
    refine List.flatMap_congr fun e _ => ?_
    rw [hkeys, List.flatMap_append, opsWith, List.filter_append]
    exact congrArg₂ _ (opsWith_recvInfoOf kind peer e) (opsWith_sendInfoOf hfits kind peer e)
  refine ⟨plans, (sortByKey (plan.p2pOpInfos ++ sends)).flatMap (·.2), ?_, hplans, ?_, ?_, ?_⟩
  · rw [planOf, if_neg (Nat.ne_of_gt hgpu), hplan, hsends, Option.bind_some, Option.map_some,
      hfilter, hjoin]
    rfl
  · intro dst
    simpa using hops .isend dst
  · intro src
    simpa using hops .irecv src
  · intro op hop
    obtain ⟨info, hmem, hop⟩ := List.mem_flatMap.mp hop
    exact (hinfo info (List.mem_mergeSort.mp hmem)).2 op hop

end Layer

end SpecDecode.Eplb
