import SpecDecode.Gateway.WorkerRegistry
import Mathlib.Data.List.Induction
import Mathlib.Data.List.Nodup

/-!
# The indexes of the worker registry agree with its workers

`Agrees` relates the six structures of the registry. Registering a URL that is registered
already appends to the indexes without taking the old version out, and this is the only
operation that breaks the agreement.
-/

namespace SpecDecode.Gateway

open Function

section Lists

variable {κ α β : Type}

structure Lists (tag : α → β) (listed : κ → List α) (Under : κ → α → Prop) : Prop where
  nodup (k : κ) : ((listed k).map tag).Nodup
  mem (k : κ) (a : α) : a ∈ listed k ↔ Under k a

variable [DecidableEq κ] {tag : α → β} {index : κ → Option (List α)} {Under Under' : κ → α → Prop}
  {key : κ}

theorem Lists.push (h : Lists tag (fun k => (index k).getD []) Under) {value : α}
    (hnew : ∀ a, Under key a → tag a ≠ tag value)
    (hunder : ∀ k a, Under' k a ↔ Under k a ∨ k = key ∧ a = value) :
    Lists tag (fun k => (pushTo index key value k).getD []) Under' := by
  refine ⟨fun k => ?_, fun k a => ?_⟩
  · by_cases hk : k = key
    · subst hk
      rw [pushTo, update_self, Option.getD_some, List.map_append, List.map_singleton]
      refine List.nodup_append.mpr ⟨h.nodup k, List.nodup_singleton _, fun b hb c hc heq => ?_⟩
      obtain ⟨a, ha, rfl⟩ := List.mem_map.mp hb
      rw [List.mem_singleton.mp hc] at heq
      exact hnew a ((h.mem k a).mp ha) heq
    · rw [pushTo, update_of_ne hk]
      exact h.nodup k
  · rw [hunder]
    by_cases hk : k = key
    · subst hk
      rw [pushTo, update_self, Option.getD_some, List.mem_append, List.mem_singleton,
        h.mem]
      simp
    · rw [pushTo, update_of_ne hk, h.mem]
      simp [hk]

theorem retainIn_getD (index : κ → Option (List α)) (key : κ) (keep : α → Bool) (k : κ) :
    (retainIn index key keep k).getD [] =
      if k = key then ((index k).getD []).filter keep else (index k).getD [] := by
  unfold retainIn
  by_cases hk : k = key
  · subst hk
    rw [if_pos rfl]
    cases hvalues : index k with
    | none =>
        dsimp only
        rw [hvalues]
        rfl
    | some values =>
        dsimp only
        rw [update_self]
        rfl
  · rw [if_neg hk]
    cases index key with
    | none => rfl
    | some values =>
        dsimp only
        rw [update_of_ne hk]

theorem retainIn_of_ne {k : κ} (hk : k ≠ key) (keep : α → Bool) :
    retainIn index key keep k = index k := by
  unfold retainIn
  cases index key with
  | none => rfl
  | some values => exact update_of_ne hk ..

theorem of_update_none {f : κ → Option α} {k : κ} {a : α}
    (h : update f key none k = some a) : f k = some a := by
  by_cases hk : k = key
  · rw [hk, update_self] at h
    cases h
  · rwa [update_of_ne hk] at h

theorem Lists.retain (h : Lists tag (fun k => (index k).getD []) Under) {keep : α → Bool}
    (hunder : ∀ k a, Under' k a ↔ Under k a ∧ (k = key → keep a)) :
    Lists tag (fun k => (retainIn index key keep k).getD []) Under' := by
  refine ⟨fun k => ?_, fun k a => ?_⟩
  · rw [retainIn_getD]
    split
    · exact (h.nodup k).sublist (List.filter_sublist.map tag)
    · exact h.nodup k
  · rw [retainIn_getD, hunder, ← h.mem]
    split
    · next hk => simp [hk]
    · next hk => simp [hk]

end Lists

namespace WorkerRegistry

variable {H : RingHash} {r : WorkerRegistry} {newId workerId : WorkerId} {worker : Worker}
  {url : String}

structure Listed (H : RingHash) (r : WorkerRegistry) : Prop where
  url {workerId : WorkerId} {worker : Worker} :
    r.workers workerId = some worker → r.urlToId worker.url = some workerId
  models : Lists Worker.url r.getByModel fun modelId worker =>
    ∃ workerId, r.workers workerId = some worker ∧ worker.modelId = modelId
  types : Lists id r.idsOfType fun workerType workerId =>
    ∃ worker, r.workers workerId = some worker ∧ worker.workerType = workerType
  modes : Lists id r.idsOfMode fun mode workerId =>
    ∃ worker, r.workers workerId = some worker ∧ worker.connectionMode = mode
  rings (modelId : String) : r.hashRings modelId =
    (r.modelIndex modelId).map fun workers => HashRing.new H (workers.map Worker.url)

/-- The six structures say the same, and a query by type finds the workers of the type. -/
structure Agrees (H : RingHash) (r : WorkerRegistry) : Prop extends Listed H r where
  byType (workerType : WorkerType) (worker : Worker) : worker ∈ r.getByType workerType ↔
    ∃ workerId, r.workers workerId = some worker ∧ worker.workerType = workerType

theorem Listed.agrees (h : Listed H r) : Agrees H r where
  toListed := h
  byType workerType worker := by
    rw [getByType, List.mem_filterMap]
    constructor
    · rintro ⟨workerId, hid, hworker⟩
      obtain ⟨listed, hlisted, htype⟩ := (h.types.mem workerType workerId).mp hid
      obtain rfl : listed = worker := Option.some.inj (hlisted.symm.trans hworker)
      exact ⟨workerId, hworker, htype⟩
    · rintro ⟨workerId, hworker, htype⟩
      exact ⟨workerId, (h.types.mem _ _).mpr ⟨worker, hworker, htype⟩, hworker⟩

structure Inv (H : RingHash) (r : WorkerRegistry) : Prop extends Listed H r where
  owner {url : String} {workerId : WorkerId} {worker : Worker} :
    r.urlToId url = some workerId → r.workers workerId = some worker → worker.url = url
  inj {url url' : String} {workerId : WorkerId} :
    r.urlToId url = some workerId → r.urlToId url' = some workerId → url = url'

theorem Inv.new (H : RingHash) : Inv H .new where
  url := nofun
  models := ⟨fun _ => List.nodup_nil, fun k a => by
    simp [WorkerRegistry.new, getByModel]⟩
  types := ⟨fun _ => List.nodup_nil, fun k a => by
    simp [WorkerRegistry.new, idsOfType]⟩
  modes := ⟨fun _ => List.nodup_nil, fun k a => by
    simp [WorkerRegistry.new, idsOfMode]⟩
  rings _ := rfl
  owner := nofun
  inj := nofun

/-- An id that is neither reserved nor registered. -/
def Unused (r : WorkerRegistry) (newId : WorkerId) : Prop :=
  r.workers newId = none ∧ ∀ url, r.urlToId url ≠ some newId

def idFor (r : WorkerRegistry) (newId : WorkerId) (url : String) : WorkerId :=
  (r.urlToId url).getD newId

theorem Inv.idFor_inj (h : Inv H r) (hfresh : r.urlToId url = none → r.Unused newId)
    {url' : String} (heq : r.urlToId url' = some (r.idFor newId url)) : url' = url := by
  unfold idFor at heq
  cases hurl : r.urlToId url with
  | none =>
      rw [hurl] at heq
      exact absurd heq ((hfresh hurl).2 url')
  | some i =>
      rw [hurl] at heq
      exact h.inj heq hurl

/-- The URLs keep their own ids when one of them gets its id. -/
theorem Inv.inj_update (h : Inv H r) (hfresh : r.urlToId url = none → r.Unused newId)
    {u u' : String} {i : WorkerId} (hu : update r.urlToId url (some (r.idFor newId url)) u = some i)
    (hu' : update r.urlToId url (some (r.idFor newId url)) u' = some i) : u = u' := by
  by_cases hurl : u = url
  · by_cases hurl' : u' = url
    · rw [hurl, hurl']
    · rw [hurl, update_self, Option.some.injEq] at hu
      rw [update_of_ne hurl', ← hu] at hu'
      exact absurd (h.idFor_inj hfresh hu') hurl'
  · rw [update_of_ne hurl] at hu
    by_cases hurl' : u' = url
    · rw [hurl', update_self, Option.some.injEq] at hu'
      rw [← hu'] at hu
      exact absurd (h.idFor_inj hfresh hu) hurl
    · rw [update_of_ne hurl'] at hu'
      exact h.inj hu hu'

theorem rings_rebuild {index : String → Option (List Worker)} {modelId : String}
    (h : ∀ m, m ≠ modelId → r.hashRings m =
      (index m).map fun workers => HashRing.new H (workers.map Worker.url)) (m : String) :
    update r.hashRings modelId
        ((index modelId).map fun workers => HashRing.new H (workers.map Worker.url)) m =
      (index m).map fun workers => HashRing.new H (workers.map Worker.url) := by
  by_cases hm : m = modelId
  · rw [hm, update_self]
  · rw [update_of_ne hm, h m hm]

variable {workers : WorkerId → Option Worker} {act : Action}

theorem under_register {κ : Type} {key : Worker → κ}
    (hnone : workers workerId = none) (k : κ) (i : WorkerId) :
    (∃ w, update workers workerId (some worker) i = some w ∧ key w = k) ↔
      (∃ w, workers i = some w ∧ key w = k) ∨ k = key worker ∧ i = workerId := by
  by_cases hi : i = workerId
  · subst hi
    rw [update_self, hnone]
    simp [eq_comm]
  · rw [update_of_ne hi]
    simp [hi]

theorem under_register_model
    (hnone : workers workerId = none) (m : String) (w : Worker) :
    (∃ i, update workers workerId (some worker) i = some w ∧ w.modelId = m) ↔
      (∃ i, workers i = some w ∧ w.modelId = m) ∨ m = worker.modelId ∧ w = worker := by
  constructor
  · rintro ⟨i, hw, rfl⟩
    by_cases hi : i = workerId
    · rw [hi, update_self, Option.some.injEq] at hw
      exact .inr ⟨by rw [hw], hw.symm⟩
    · rw [update_of_ne hi] at hw
      exact .inl ⟨i, hw, rfl⟩
  · rintro (⟨i, hw, rfl⟩ | ⟨rfl, rfl⟩)
    · refine ⟨i, ?_, rfl⟩
      rwa [update_of_ne]
      rintro rfl
      rw [hnone] at hw
      cases hw
    · exact ⟨workerId, update_self .., rfl⟩

theorem Inv.register (h : Inv H r) (hfresh : r.urlToId worker.url = none → r.Unused newId)
    (hnone : r.workers (r.idFor newId worker.url) = none) : Inv H (r.register H newId worker) := by
  have hurl_ne {i : WorkerId} {w : Worker} (hw : r.workers i = some w) : w.url ≠ worker.url := by
    intro heq
    have hid := h.url hw
    rw [heq] at hid
    unfold idFor at hnone
    rw [hid, Option.getD_some, hw] at hnone
    cases hnone
  have hid_ne {i : WorkerId} {w : Worker} (hw : r.workers i = some w) :
      id i ≠ id (r.idFor newId worker.url) := by
    rintro rfl
    rw [id_eq, hnone] at hw
    cases hw
  refine ⟨⟨?_, ?_, ?_, ?_, ?_⟩, ?_, ?_⟩
  · intro i w hw
    show update r.urlToId worker.url (some (r.idFor newId worker.url)) w.url = some i
    change update r.workers (r.idFor newId worker.url) (some worker) i = some w at hw
    by_cases hi : i = r.idFor newId worker.url
    · rw [hi, update_self, Option.some.injEq] at hw
      rw [← hw, update_self, hi]
    · rw [update_of_ne hi] at hw
      rw [update_of_ne (hurl_ne hw), h.url hw]
  · refine h.models.push ?_ (under_register_model hnone)
    rintro w ⟨i, hw, -⟩
    exact hurl_ne hw
  · refine h.types.push ?_ (under_register hnone)
    rintro i ⟨w, hw, -⟩
    exact hid_ne hw
  · refine h.modes.push ?_ (under_register hnone)
    rintro i ⟨w, hw, -⟩
    exact hid_ne hw
  · refine rings_rebuild fun m hm => ?_
    dsimp only
    rw [pushTo, update_of_ne hm, h.rings]
  · intro u i w hu hw
    change update r.urlToId worker.url (some (r.idFor newId worker.url)) u = some i at hu
    change update r.workers (r.idFor newId worker.url) (some worker) i = some w at hw
    by_cases hi : i = r.idFor newId worker.url
    · rw [hi, update_self, Option.some.injEq] at hw
      by_cases hurl : u = worker.url
      · rw [hurl, ← hw]
      · rw [update_of_ne hurl, hi] at hu
        exact absurd (h.idFor_inj hfresh hu) hurl
    · rw [update_of_ne hi] at hw
      by_cases hurl : u = worker.url
      · rw [hurl, update_self, Option.some.injEq] at hu
        exact absurd hu.symm hi
      · rw [update_of_ne hurl] at hu
        exact h.owner hu hw
  · exact h.inj_update hfresh

theorem under_remove {κ : Type} [DecidableEq κ] {key : Worker → κ}
    (hworker : workers workerId = some worker) (k : κ) (i : WorkerId) :
    (∃ w, update workers workerId none i = some w ∧ key w = k) ↔
      (∃ w, workers i = some w ∧ key w = k) ∧ (k = key worker → decide (i ≠ workerId) = true) := by
  rw [decide_eq_true_eq]
  by_cases hi : i = workerId
  · subst hi
    rw [update_self, hworker]
    simp [eq_comm]
  · rw [update_of_ne hi]
    simp [hi]

theorem Inv.under_remove_model (h : Inv H r) (hworker : r.workers workerId = some worker)
    (m : String) (w : Worker) :
    (∃ i, update r.workers workerId none i = some w ∧ w.modelId = m) ↔
      (∃ i, r.workers i = some w ∧ w.modelId = m) ∧
        (m = worker.modelId → decide (w.url ≠ worker.url) = true) := by
  rw [decide_eq_true_eq]
  constructor
  · rintro ⟨i, hw, rfl⟩
    have hi : i ≠ workerId := by
      rintro rfl
      rw [update_self] at hw
      cases hw
    rw [update_of_ne hi] at hw
    refine ⟨⟨i, hw, rfl⟩, fun _ heq => hi ?_⟩
    have hid := h.url hw
    rw [heq, h.url hworker] at hid
    exact (Option.some.inj hid).symm
  · rintro ⟨⟨i, hw, rfl⟩, hne⟩
    have hi : i ≠ workerId := by
      rintro rfl
      rw [hworker] at hw
      cases hw
      exact hne rfl rfl
    exact ⟨i, by rwa [update_of_ne hi], rfl⟩

theorem Inv.remove (h : Inv H r) (workerId : WorkerId) : Inv H (r.remove H workerId).2 := by
  unfold WorkerRegistry.remove
  cases hworker : r.workers workerId with
  | none => exact h
  | some worker =>
      refine ⟨⟨?_, ?_, ?_, ?_, ?_⟩, ?_, ?_⟩
      · intro i w hw
        change update r.workers workerId none i = some w at hw
        show update r.urlToId worker.url none w.url = some i
        have hi : i ≠ workerId := by
          rintro rfl
          rw [update_self] at hw
          cases hw
        rw [update_of_ne hi] at hw
        rw [update_of_ne, h.url hw]
        intro heq
        have hid := h.url hw
        rw [heq, h.url hworker] at hid
        exact hi (Option.some.inj hid).symm
      · exact h.models.retain (h.under_remove_model hworker)
      · exact h.types.retain (under_remove hworker)
      · exact h.modes.retain (under_remove hworker)
      · refine rings_rebuild fun m hm => ?_
        dsimp only
        rw [h.rings, retainIn_of_ne hm]
      · intro u i w hu hw
        change update r.urlToId worker.url none u = some i at hu
        change update r.workers workerId none i = some w at hw
        exact h.owner (of_update_none hu) (of_update_none hw)
      · intro u u' i hu hu'
        change update r.urlToId worker.url none u = some i at hu
        change update r.urlToId worker.url none u' = some i at hu'
        exact h.inj (of_update_none hu) (of_update_none hu')

theorem Inv.reserveIdForUrl (h : Inv H r) (hfresh : r.urlToId url = none → r.Unused newId) :
    Inv H (r.reserveIdForUrl newId url) := by
  refine ⟨⟨?_, h.models, h.types, h.modes, h.rings⟩, ?_, ?_⟩
  · intro i w hw
    show update r.urlToId url (some (r.idFor newId url)) w.url = some i
    by_cases hurl : w.url = url
    · have hid := h.url hw
      rw [hurl] at hid
      rw [hurl, update_self, idFor, hid, Option.getD_some]
    · rw [update_of_ne hurl, h.url hw]
  · intro u i w hu hw
    change update r.urlToId url (some (r.idFor newId url)) u = some i at hu
    by_cases hurl : u = url
    · rw [hurl, update_self, Option.some.injEq] at hu
      rw [hurl]
      refine h.idFor_inj hfresh ?_
      rw [hu]
      exact h.url hw
    · rw [update_of_ne hurl] at hu
      exact h.owner hu hw
  · exact h.inj_update hfresh

theorem Inv.release (h : Inv H r) (hurl : r.urlToId url = some workerId)
    (hnone : r.workers workerId = none) :
    Inv H { r with urlToId := update r.urlToId url none } := by
  refine ⟨⟨?_, h.models, h.types, h.modes, h.rings⟩, fun hu hw => h.owner (of_update_none hu) hw,
    fun hu hu' => h.inj (of_update_none hu) (of_update_none hu')⟩
  intro i w hw
  show update r.urlToId url none w.url = some i
  rw [update_of_ne, h.url hw]
  intro heq
  have hid := h.url hw
  rw [heq, hurl, Option.some.injEq] at hid
  rw [← hid, hnone] at hw
  cases hw

theorem Inv.removeByUrl (h : Inv H r) (url : String) : Inv H (r.removeByUrl H url).2 := by
  unfold WorkerRegistry.removeByUrl
  cases hurl : r.urlToId url with
  | none => exact h
  | some workerId =>
      cases hworker : r.workers workerId with
      | none =>
          have hremove : ({ r with urlToId := update r.urlToId url none }.remove H
              workerId).2 = { r with urlToId := update r.urlToId url none } := by
            simp only [WorkerRegistry.remove, hworker]
          dsimp only
          rw [hremove]
          exact h.release hurl hworker
      | some worker =>
          -- the URL is that of the worker, and removing the worker drops it once more
          have hown : worker.url = url := h.owner hurl hworker
          have hremove : ({ r with urlToId := update r.urlToId url none }.remove H
              workerId).2 = (r.remove H workerId).2 := by
            simp only [WorkerRegistry.remove, hworker, hown, update_idem]
          dsimp only
          rw [hremove]
          exact h.remove workerId

/-- The operation registers a URL that has a worker already. -/
def Reregisters (r : WorkerRegistry) : Action → Prop
  | .register _ worker => (r.getByUrl worker.url).isSome
  | _ => False

/-- A UUID that the operation draws is not in use. -/
def DrawsFresh (r : WorkerRegistry) : Action → Prop
  | .register newId worker => r.urlToId worker.url = none → r.Unused newId
  | .reserveIdForUrl newId url => r.urlToId url = none → r.Unused newId
  | _ => True

theorem getByUrl_isSome : (r.getByUrl url).isSome ↔
    ∃ workerId worker, r.urlToId url = some workerId ∧ r.workers workerId = some worker := by
  unfold getByUrl WorkerRegistry.get
  cases hurl : r.urlToId url with
  | none => simp
  | some workerId => simp [Option.isSome_iff_exists]

private theorem idFor_workers_none (hfresh : r.urlToId url = none → r.Unused newId)
    (h : ¬ (r.getByUrl url).isSome) : r.workers (r.idFor newId url) = none := by
  rw [getByUrl_isSome] at h
  unfold idFor
  cases hurl : r.urlToId url with
  | none => exact (hfresh hurl).1
  | some workerId =>
      rw [Option.getD_some]
      cases hworker : r.workers workerId with
      | none => rfl
      | some worker => exact absurd ⟨workerId, worker, hurl, hworker⟩ h

theorem Inv.step (h : Inv H r) (hfresh : r.DrawsFresh act)
    (hact : ¬ r.Reregisters act) : Inv H (r.step H act) := by
  cases act with
  | register newId worker => exact h.register hfresh (idFor_workers_none hfresh hact)
  | reserveIdForUrl newId url => exact h.reserveIdForUrl hfresh
  | remove workerId => exact h.remove workerId
  | removeByUrl url => exact h.removeByUrl url

/-- Registering a registered URL leaves its old version in the indexes. -/
theorem Agrees.not_reregisters (h : Agrees H r) (h' : Agrees H (r.step H act)) :
    ¬ r.Reregisters act := by
  intro hact
  cases act with
  | register newId worker =>
      obtain ⟨workerId, old, hurl, hold⟩ := getByUrl_isSome.mp hact
      have hworkers : (r.step H (.register newId worker)).workers =
          update r.workers workerId (some worker) := by
        simp only [WorkerRegistry.step, WorkerRegistry.register, rebuildHashRing, hurl,
          Option.getD_some]
      have htypes : (r.step H (.register newId worker)).typeWorkers =
          pushTo r.typeWorkers worker.workerType workerId := by
        simp only [WorkerRegistry.step, WorkerRegistry.register, rebuildHashRing, hurl,
          Option.getD_some]
      have hlisted : workerId ∈ r.idsOfType old.workerType :=
        (h.types.mem _ _).mpr ⟨old, hold, rfl⟩
      have hnodup := h'.types.nodup worker.workerType
      have hmem := (h'.types.mem old.workerType workerId).mp
      rw [idsOfType, htypes] at hnodup hmem
      by_cases htype : old.workerType = worker.workerType
      · rw [htype, idsOfType] at hlisted
        rw [pushTo, update_self, Option.getD_some, List.map_id, List.nodup_append] at hnodup
        exact hnodup.2.2 workerId hlisted workerId (List.mem_singleton.mpr rfl) rfl
      · rw [pushTo, update_of_ne htype] at hmem
        obtain ⟨w, hw, hkey⟩ := hmem hlisted
        rw [hworkers, update_self, Option.some.injEq] at hw
        exact htype (by rw [← hkey, hw])
  | reserveIdForUrl newId url => exact hact
  | remove workerId => exact hact
  | removeByUrl url => exact hact

/-- Every operation of a run satisfies `P` in the state in which it is applied. -/
def Along (H : RingHash) (P : WorkerRegistry → Action → Prop) (acts : List Action) : Prop :=
  ∀ before act, before ++ [act] <+: acts → P (run H before) act

theorem run_concat (acts : List Action) (act : Action) :
    run H (acts ++ [act]) = (run H acts).step H act := by
  unfold run
  rw [List.foldl_append]
  rfl

theorem Along.of_concat {P : WorkerRegistry → Action → Prop} {acts : List Action}
    (h : Along H P (acts ++ [act])) : Along H P acts ∧ P (run H acts) act :=
  ⟨fun before a hbefore => h before a (hbefore.trans (List.prefix_append acts [act])),
    h acts act (List.prefix_refl _)⟩

theorem Along.concat {P : WorkerRegistry → Action → Prop} {acts : List Action}
    (h : Along H P acts) (hact : P (run H acts) act) : Along H P (acts ++ [act]) := by
  intro before a hbefore
  rcases List.prefix_concat_iff.mp hbefore with heq | hinit
  · obtain ⟨rfl, rfl⟩ := List.append_singleton_inj.mp heq
    exact hact
  · exact h before a hinit

private theorem inv_run {acts : List Action} (hfresh : Along H DrawsFresh acts)
    (hacts : Along H (fun r act => ¬ r.Reregisters act) acts) : Inv H (run H acts) := by
  induction acts using List.reverseRecOn with
  | nil => exact .new H
  | append_singleton acts act ih =>
      obtain ⟨hfresh, hdraws⟩ := hfresh.of_concat
      obtain ⟨hacts, hact⟩ := hacts.of_concat
      rw [run_concat]
      exact (ih hfresh hacts).step hdraws hact

/-- The indexes agree with the workers after every operation of a run exactly if the run
registers no URL that is registered already. -/
theorem run_agrees_iff {acts : List Action} (hfresh : Along H DrawsFresh acts) :
    (∀ before, before <+: acts → Agrees H (run H before)) ↔
      Along H (fun r act => ¬ r.Reregisters act) acts := by
  constructor
  · intro h before act hbefore
    have hstep := h _ hbefore
    rw [run_concat] at hstep
    exact (h before ((List.prefix_append before [act]).trans hbefore)).not_reregisters hstep
  · intro h before hbefore
    have hsub {P : WorkerRegistry → Action → Prop} (h : Along H P acts) : Along H P before :=
      fun b a hb => h b a (hb.trans hbefore)
    exact (inv_run (hsub hfresh) (hsub h)).toListed.agrees

/-- A hash that places the virtual nodes of every worker in a row. -/
def rowHash : RingHash where
  vnodePosition url vnode := url.length + vnode
  hashPosition key := key.length
  sortByPosition entries := entries.mergeSort fun a b => decide (a.1 ≤ b.1)
  sort_perm := perm_sortByFst
  sort_sorted := pairwise_sortByFst

def chatWorker : Worker := ⟨"http://w1:8000", "chat", .regular, .http⟩

/-- The same URL, serving another model. -/
def codeWorker : Worker := ⟨"http://w1:8000", "code", .regular, .http⟩

/-- A worker that is removed before its URL is registered again. -/
def replaced : List Action :=
  [.register ⟨"1"⟩ chatWorker, .removeByUrl "http://w1:8000", .register ⟨"2"⟩ codeWorker]

theorem Along.nil {P : WorkerRegistry → Action → Prop} : Along H P [] := by
  intro before act hbefore
  have hlen := hbefore.length_le
  simp at hlen

theorem run_agrees_replaced : Agrees rowHash (run rowHash replaced) := by
  have hfresh : Along rowHash DrawsFresh replaced := by
    refine .concat (.concat (.concat .nil fun _ => ⟨rfl, nofun⟩) trivial) ?_
    have hurls : (run rowHash (replaced.take 2)).urlToId =
        update (update (update (fun _ => none) "http://w1:8000"
          (some ⟨"1"⟩)) "http://w1:8000" none) "http://w1:8000" none := rfl
    refine fun _ => ⟨rfl, fun url => ?_⟩
    show (run rowHash (replaced.take 2)).urlToId url ≠ _
    rw [hurls, update_idem, update_idem, update_eq_self]
    nofun
  exact (run_agrees_iff hfresh).mpr (.concat (.concat (.concat .nil nofun) id) nofun) replaced
    (List.prefix_refl _)

/-- The old version of an updated worker stays in the indexes. -/
theorem reregistered_stays_listed : ¬ ∀ (H : RingHash) (acts : List Action),
    Along H DrawsFresh acts → ∀ before, before <+: acts → Agrees H (run H before) := by
  intro h
  have hfresh : Along rowHash DrawsFresh
      [.register ⟨"1"⟩ chatWorker, .register ⟨"2"⟩ codeWorker] := by
    refine .concat (.concat .nil fun _ => ⟨rfl, nofun⟩) fun hnone => ?_
    cases hnone
  have hall := h rowHash _ hfresh
  have hfirst := hall [.register ⟨"1"⟩ chatWorker] ⟨[.register ⟨"2"⟩ codeWorker], rfl⟩
  have hsecond : Agrees rowHash ((run rowHash [.register ⟨"1"⟩ chatWorker]).step rowHash
      (.register ⟨"2"⟩ codeWorker)) := hall _ (List.prefix_refl _)
  exact hfirst.not_reregisters hsecond rfl

end WorkerRegistry

end SpecDecode.Gateway
