import SpecDecode.Detokenizer.Session
import Mathlib.Data.List.Nodup

/-!
# Requests in batches

A batch treats every request by itself: what it does with an item is `serve`, given the
status of the item's request. So a request gets the same strings in any company, as long as
its status is not dropped for a newer one.
-/

namespace SpecDecode.Detokenizer

open Utf8

variable {ρ : Type} [DecidableEq ρ] {cfg : Config} {status : StatusDict ρ} {rid : ρ}

section Dict

theorem lookup_cons_ite (e : ρ × DecodeStatus) (status : StatusDict ρ) (rid : ρ) :
    List.lookup rid (e :: status) = if rid = e.1 then some e.2 else status.lookup rid := by
  obtain ⟨k, s⟩ := e
  rw [List.lookup_cons]
  by_cases h : rid = k
  · simp [h]
  · simp [h, beq_eq_false_iff_ne.mpr h]

theorem lookup_setOld (status : StatusDict ρ) (rid : ρ) (s : DecodeStatus) (rid' : ρ) :
    (setOld status rid s).lookup rid' =
      if rid' = rid then (status.lookup rid).map fun _ => s else status.lookup rid' := by
  induction status with
  | nil => simp [setOld]
  | cons e status ih =>
      rw [setOld] at ih
      rw [setOld, List.map_cons, lookup_cons_ite, ih, lookup_cons_ite, lookup_cons_ite]
      by_cases he : e.1 = rid
      · rw [if_pos he, if_pos he.symm]
        simp only [he]
        by_cases hrid : rid' = rid
        · rw [if_pos hrid, if_pos hrid]
          rfl
        · rw [if_neg hrid, if_neg hrid, if_neg hrid, if_neg hrid]
      · rw [if_neg he, if_neg (Ne.symm he)]
        by_cases hrid : rid' = rid
        · rw [if_pos hrid, if_pos hrid, if_neg (hrid ▸ Ne.symm he)]
        · rw [if_neg hrid, if_neg hrid]

theorem lookup_setNew (hroom : status.length < cfg.capacity) (hnew : status.lookup rid = none)
    (s : DecodeStatus) (rid' : ρ) :
    (setNew cfg status rid s).lookup rid' =
      if rid' = rid then some s else status.lookup rid' := by
  rw [setNew, if_neg (Nat.not_le.mpr hroom), List.lookup_append, lookup_cons_ite]
  by_cases hrid : rid' = rid
  · rw [if_pos hrid, if_pos hrid, hrid, hnew, Option.none_or]
  · rw [if_neg hrid, if_neg hrid]
    exact Option.or_none

theorem lookup_erase (status : StatusDict ρ) (rid rid' : ρ) :
    (erase status rid).lookup rid' = if rid' = rid then none else status.lookup rid' := by
  induction status with
  | nil => simp [erase]
  | cons e status ih =>
      rw [erase] at ih
      rw [erase, List.filter_cons]
      split
      · next he =>
          rw [lookup_cons_ite, ih, lookup_cons_ite]
          by_cases hrid : rid' = rid
          · rw [if_pos hrid, if_neg (hrid ▸ Ne.symm (of_decide_eq_true he)), if_pos hrid]
          · rw [if_neg hrid, if_neg hrid]
      · next he =>
          have heq : e.1 = rid := by simpa using he
          rw [ih, lookup_cons_ite, heq]
          by_cases hrid : rid' = rid
          · rw [if_pos hrid, if_pos hrid]
          · rw [if_neg hrid, if_neg hrid, if_neg hrid]

theorem lookup_arrive {item : Item ρ} (hroom : status.length < cfg.capacity) (rid : ρ) :
    (arrive cfg status item).lookup rid =
      if rid = item.rid then some (received (status.lookup item.rid) item)
      else status.lookup rid := by
  rw [arrive]
  cases hslot : status.lookup item.rid with
  | none => exact lookup_setNew hroom hslot _ rid
  | some s =>
      rw [Option.isNone_some, if_neg Bool.false_ne_true, lookup_setOld, hslot]
      rfl

theorem arrive_length {item : Item ρ} (hroom : status.length < cfg.capacity) :
    (arrive cfg status item).length ≤ status.length + 1 := by
  rw [arrive]
  split
  · rw [setNew, if_neg (Nat.not_le.mpr hroom), List.length_append]
    exact Nat.le_refl _
  · rw [setOld, List.length_map]
    exact Nat.le_succ _

end Dict

section Batch

theorem receiveAll_eq {items : List (Item ρ)} (hnodup : (items.map Item.rid).Nodup)
    (hroom : status.length + items.length ≤ cfg.capacity)
    {ids : Item ρ → List Nat × List Nat} (hids : ∀ item ∈ items,
      windows cfg (received (status.lookup item.rid) item) item = .ok (ids item)) :
    ∃ status', receiveAll cfg status items = .ok (status', items.map ids) ∧
      (∀ item ∈ items,
        status'.lookup item.rid = some (received (status.lookup item.rid) item)) ∧
      ∀ rid ∉ items.map Item.rid, status'.lookup rid = status.lookup rid := by
  induction items generalizing status with
  | nil => exact ⟨status, rfl, ⟨fun _ hitem => absurd hitem List.not_mem_nil, fun _ _ => rfl⟩⟩
  | cons item items ih =>
      rw [List.map_cons, List.nodup_cons] at hnodup
      rw [List.length_cons] at hroom
      have hother : ∀ item' ∈ items, (arrive cfg status item).lookup item'.rid =
          status.lookup item'.rid := by
        intro item' hitem'
        rw [lookup_arrive (by omega), if_neg]
        intro heq
        exact hnodup.1 (heq ▸ List.mem_map_of_mem hitem')
      have hlen := @arrive_length _ _ cfg status item (show status.length < cfg.capacity by omega)
      obtain ⟨status', hrun, hin, hout⟩ := @ih (arrive cfg status item) hnodup.2 (by omega)
        (fun item' hitem' => by
          rw [hother item' hitem']
          exact hids item' (List.mem_cons_of_mem _ hitem'))
      refine ⟨status', ?_, ?_, ?_⟩
      · rw [receiveAll, hids item (List.mem_cons_self ..)]
        exact congrArg (fun x => x >>= fun r => .ok (r.1, ids item :: r.2)) hrun
      · intro item' hitem'
        rcases List.mem_cons.mp hitem' with rfl | hmem
        · rw [hout _ hnodup.1, lookup_arrive (by omega), if_pos rfl]
        · rw [hin item' hmem, hother item' hmem]
      · intro rid hrid
        rw [List.map_cons, List.mem_cons, not_or] at hrid
        rw [hout rid hrid.2, lookup_arrive (by omega), if_neg hrid.1]

private theorem lookup_settle (status : StatusDict ρ) (item : Item ρ) (s : DecodeStatus)
    (outputStr : List Char) {old : DecodeStatus} (hold : status.lookup item.rid = some old)
    (rid : ρ) :
    (settle status item s outputStr).lookup rid =
      if rid = item.rid then
        if item.finishedReason.isNone then some { s with sentOffset := outputStr.length } else none
      else status.lookup rid := by
  unfold settle
  cases item.finishedReason with
  | none =>
      rw [lookup_setOld, hold]
      rfl
  | some reason => exact lookup_erase status item.rid rid

theorem emitAll_eq {items : List (Item ρ)} (hnodup : (items.map Item.rid).Nodup)
    {s : Item ρ → DecodeStatus} (hs : ∀ item ∈ items, status.lookup item.rid = some (s item))
    (ids : Item ρ → List Nat × List Nat) :
    ∃ status', emitAll status (items.map fun item => (item, texts cfg item (ids item))) =
        .ok (status', items.map fun item => (outcome cfg (s item) item (ids item)).2.returned) ∧
      (∀ item ∈ items, status'.lookup item.rid = (outcome cfg (s item) item (ids item)).1) ∧
      ∀ rid ∉ items.map Item.rid, status'.lookup rid = status.lookup rid := by
  induction items generalizing status with
  | nil => exact ⟨status, rfl, ⟨fun _ hitem => absurd hitem List.not_mem_nil, fun _ _ => rfl⟩⟩
  | cons item items ih =>
      rw [List.map_cons, List.nodup_cons] at hnodup
      have hold := hs item (List.mem_cons_self ..)
      let e := emit (s item) item (texts cfg item (ids item)).1 (texts cfg item (ids item)).2
      have hnext : ∀ item' ∈ items,
          (settle status item e.1 e.2).lookup item'.rid = some (s item') := by
        intro item' hitem'
        rw [lookup_settle status item e.1 e.2 hold, if_neg]
        · exact hs item' (List.mem_cons_of_mem _ hitem')
        · intro heq
          exact hnodup.1 (heq ▸ List.mem_map_of_mem hitem')
      obtain ⟨status', hrun, hin, hout⟩ := ih hnodup.2 hnext
      refine ⟨status', ?_, ?_, ?_⟩
      · rw [List.map_cons, emitAll, hold]
        exact congrArg (fun x => x >>= fun r => .ok (r.1, e.2.drop (s item).sentOffset :: r.2)) hrun
      · intro item' hitem'
        rcases List.mem_cons.mp hitem' with rfl | hmem
        · rw [hout _ hnodup.1, lookup_settle status _ e.1 e.2 hold, if_pos rfl]
          rfl
        · exact hin item' hmem
      · intro rid hrid
        rw [List.map_cons, List.mem_cons, not_or] at hrid
        rw [hout rid hrid.2, lookup_settle status item e.1 e.2 hold, if_neg hrid.1]

theorem decodeBatch_eq {items : List (Item ρ)} (hnodup : (items.map Item.rid).Nodup)
    (hroom : status.length + items.length ≤ cfg.capacity)
    {served : Item ρ → Option DecodeStatus × Emission} (hserved : ∀ item ∈ items,
      serve cfg (status.lookup item.rid) item = .ok (served item)) :
    ∃ status', decodeBatchTokenIdOutput cfg status items =
        .ok (status', items.map fun item => (served item).2.returned) ∧
      (∀ item ∈ items, status'.lookup item.rid = (served item).1) ∧
      ∀ rid ∉ items.map Item.rid, status'.lookup rid = status.lookup rid := by
  have hids : ∀ item : Item ρ, ∃ ids, item ∈ items →
      windows cfg (received (status.lookup item.rid) item) item = .ok ids ∧
        served item = outcome cfg (received (status.lookup item.rid) item) item ids := by
    intro item
    by_cases hitem : item ∈ items
    · obtain ⟨ids, hids⟩ := serve_inv (hserved item hitem)
      exact ⟨ids, fun _ => hids⟩
    · exact ⟨([], []), fun h => absurd h hitem⟩
  choose ids hids using hids
  obtain ⟨mid, hreceive, hmid, hmidOut⟩ := receiveAll_eq hnodup hroom
    fun item hitem => (hids item hitem).1
  obtain ⟨status', hemit, hin, hout⟩ := @emitAll_eq _ _ cfg mid items hnodup _ hmid ids
  have hzip : List.zipWith (fun item i => (item, texts cfg item i)) items (items.map ids) =
      items.map fun item => (item, texts cfg item (ids item)) := by
    rw [List.zipWith_map_right, List.zipWith_self]
  have hserve : ∀ item ∈ items,
      served item = outcome cfg (received (status.lookup item.rid) item) item (ids item) :=
    fun item hitem => (hids item hitem).2
  refine ⟨status', ?_, ?_, ?_⟩
  · have houts : items.map (fun item => (served item).2.returned) = items.map fun item =>
        (outcome cfg (received (status.lookup item.rid) item) item (ids item)).2.returned := by
      apply List.map_congr_left
      intro item hitem
      rw [hserve item hitem]
    rw [decodeBatchTokenIdOutput, hreceive, houts, ← hemit, ← hzip]
    rfl
  · intro item hitem
    rw [hserve item hitem]
    exact hin item hitem
  · intro rid hrid
    rw [hout rid hrid, hmidOut rid hrid]

end Batch

section Run

/-- What the batches return for one request. -/
def outputsOf (rid : ρ) (batches : List (List (Item ρ))) (outputs : List (List (List Char))) :
    List (List Char) :=
  (List.zip batches outputs).flatMap fun e =>
    ((e.1.zip e.2).filter fun i => i.1.rid = rid).map (·.2)

/-- Other requests may share the batches: every request is once in a batch, the dictionary has
room for all of them, and no item of another request raises. -/
def Undisturbed (cfg : Config) (rid : ρ) : StatusDict ρ → List (List (Item ρ)) → Prop
  | _, [] => True
  | status, batch :: batches =>
      (batch.map Item.rid).Nodup ∧ status.length + batch.length ≤ cfg.capacity ∧
      (∀ item ∈ batch, item.rid ≠ rid →
        ∃ r, serve cfg (status.lookup item.rid) item = .ok r) ∧
      ∀ status' outputs, decodeBatchTokenIdOutput cfg status batch = .ok (status', outputs) →
        Undisturbed cfg rid status' batches

theorem filter_rid_cases {batch : List (Item ρ)} (hnodup : (batch.map Item.rid).Nodup) (rid : ρ) :
    (batch.filter (·.rid = rid) = [] ∧ rid ∉ batch.map Item.rid) ∨
      ∃ item ∈ batch, item.rid = rid ∧ batch.filter (·.rid = rid) = [item] := by
  induction batch with
  | nil => exact .inl ⟨rfl, List.not_mem_nil⟩
  | cons item batch ih =>
      rw [List.map_cons, List.nodup_cons] at hnodup
      by_cases hrid : item.rid = rid
      · right
        refine ⟨item, List.mem_cons_self .., hrid, ?_⟩
        rw [List.filter_cons, if_pos (by simpa using hrid), List.cons.injEq]
        refine ⟨rfl, List.filter_eq_nil_iff.mpr fun item' hitem' => ?_⟩
        rw [decide_eq_true_eq]
        intro heq
        exact hnodup.1 (hrid.trans heq.symm ▸ List.mem_map_of_mem hitem')
      · have hskip : (item :: batch).filter (·.rid = rid) = batch.filter (·.rid = rid) := by
          rw [List.filter_cons, if_neg (by simpa using hrid)]
        rw [hskip]
        rcases ih hnodup.2 with ⟨hnil, hnot⟩ | ⟨item', hmem, heq, hfilter⟩
        · refine .inl ⟨hnil, ?_⟩
          rw [List.map_cons, List.mem_cons, not_or]
          exact ⟨Ne.symm hrid, hnot⟩
        · exact .inr ⟨item', List.mem_cons_of_mem _ hmem, heq, hfilter⟩

/-- The strings of one request in a batch that gives every item `f item`. -/
private theorem outputsOf_cons (rid : ρ) (batch : List (Item ρ)) (f : Item ρ → List Char)
    (batches : List (List (Item ρ))) (outputs : List (List (List Char))) :
    outputsOf rid (batch :: batches) (batch.map f :: outputs) =
      (batch.filter (·.rid = rid)).map f ++ outputsOf rid batches outputs := by
  have hzip : batch.zip (batch.map f) = batch.map fun item => (item, f item) := by
    rw [List.zip_eq_zipWith, List.zipWith_map_right, List.zipWith_self]
  rw [outputsOf, List.zip_cons_cons, List.flatMap_cons, hzip, List.filter_map, List.map_map]
  rfl

theorem runBatches_serveAll {batches : List (List (Item ρ))} {es : List Emission}
    (hrun : serveAll cfg (status.lookup rid) (batches.flatten.filter (·.rid = rid)) = .ok es)
    (hun : Undisturbed cfg rid status batches) :
    ∃ outputs, runBatches cfg status batches = .ok outputs ∧
      outputsOf rid batches outputs = es.map Emission.returned := by
  induction batches generalizing status es with
  | nil =>
      obtain rfl := Except.ok.inj hrun
      exact ⟨[], rfl, rfl⟩
  | cons batch batches ih =>
      obtain ⟨hnodup, hroom, hothers, hnext⟩ := hun
      rw [List.flatten_cons, List.filter_append] at hrun
      have hserve : ∀ item ∈ batch, ∃ r, serve cfg (status.lookup item.rid) item = .ok r := by
        intro item hitem
        by_cases hrid : item.rid = rid
        · rcases filter_rid_cases hnodup rid with ⟨-, hnot⟩ | ⟨item', -, -, hfilter⟩
          · exact absurd (hrid ▸ List.mem_map_of_mem hitem) hnot
          · have hmem : item ∈ batch.filter (·.rid = rid) :=
              List.mem_filter.mpr ⟨hitem, by simpa using hrid⟩
            rw [hfilter] at hmem hrun
            obtain rfl := List.mem_singleton.mp hmem
            obtain ⟨slot', e, rest, hok, -⟩ := serveAll_cons_inv hrun
            exact ⟨(slot', e), hrid ▸ hok⟩
        · exact hothers item hitem hrid
      have hserved : ∀ item : Item ρ, ∃ r, item ∈ batch →
          serve cfg (status.lookup item.rid) item = .ok r := by
        intro item
        by_cases hitem : item ∈ batch
        · obtain ⟨r, hr⟩ := hserve item hitem
          exact ⟨r, fun _ => hr⟩
        · exact ⟨(none, ⟨0, []⟩), fun h => absurd h hitem⟩
      choose served hserved using hserved
      obtain ⟨status', hbatch, hin, hout⟩ := decodeBatch_eq hnodup hroom hserved
      have hnext := hnext status' _ hbatch
      have hconcat : ∀ outputs, runBatches cfg status' batches = .ok outputs →
          runBatches cfg status (batch :: batches) =
            .ok (batch.map (fun item => (served item).2.returned) :: outputs) := by
        intro outputs houtputs
        rw [runBatches, hbatch]
        exact congrArg (fun x => x >>= fun rest =>
          .ok (batch.map (fun item => (served item).2.returned) :: rest)) houtputs
      rcases filter_rid_cases hnodup rid with ⟨hnil, hnot⟩ | ⟨item, hitem, hrid, hfilter⟩
      · rw [hnil, List.nil_append, ← hout rid hnot] at hrun
        obtain ⟨outputs, hrest, heq⟩ := ih hrun hnext
        refine ⟨_, hconcat outputs hrest, ?_⟩
        rw [outputsOf_cons, hnil, heq]
        rfl
      · rw [hfilter, List.singleton_append] at hrun
        obtain ⟨slot', e, rest, hok, hrest, rfl⟩ := serveAll_cons_inv hrun
        have heq : served item = (slot', e) := by
          have hitemOk := hserved item hitem
          rw [hrid, hok] at hitemOk
          exact (Except.ok.inj hitemOk).symm
        have hslot : status'.lookup rid = slot' := by
          have := hin item hitem
          rwa [heq, hrid] at this
        rw [← hslot] at hrest
        obtain ⟨outputs, hruns, hreturned⟩ := ih hrest hnext
        refine ⟨_, hconcat outputs hruns, ?_⟩
        rw [outputsOf_cons, hfilter, hreturned, List.map_singleton, heq]
        rfl

end Run

end SpecDecode.Detokenizer
