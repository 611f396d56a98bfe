import SpecDecode.Gateway.HashRing
import SpecDecode.Lib.CyclicSearch

/-!
# The ring is consistent

A key is served by the first healthy worker clockwise of its position. So a worker that joins
takes keys over, and a worker that leaves or falls ill hands its keys on, but no other key moves.
-/

namespace SpecDecode.Gateway

open CyclicSearch

namespace HashRing

variable {H : RingHash} {urls urls' : List String} {isHealthy isHealthy' : String → Bool}
variable {key url url' w : String} {ring : HashRing}

theorem walk_eq_find? {checkedUrls : List String}
    (h : ∀ u ∈ checkedUrls, isHealthy u = false) (l : List String) :
    walk isHealthy checkedUrls l = l.find? isHealthy := by
  induction l generalizing checkedUrls with
  | nil => rfl
  | cons u l ih =>
      rw [walk, List.find?_cons]
      by_cases hmem : u ∈ checkedUrls
      · rw [if_pos hmem, h u hmem]
        exact ih h
      · rw [if_neg hmem]
        cases hu : isHealthy u with
        | true => rfl
        | false => exact ih (List.forall_mem_cons.mpr ⟨hu, h⟩)

def clockwise (ring : HashRing) (keyPos : Nat) : List (Nat × String) :=
  (ring.entries.dropWhile fun entry => decide (entry.1 < keyPos)) ++
    ring.entries.takeWhile fun entry => decide (entry.1 < keyPos)

theorem findHealthyUrl_eq (H : RingHash) (ring : HashRing) (key : String)
    (isHealthy : String → Bool) : ring.findHealthyUrl H key isHealthy =
      ((ring.clockwise (H.hashPosition key)).find? fun entry => isHealthy entry.2).map
        Prod.snd := by
  unfold findHealthyUrl
  by_cases hempty : ring.entries.isEmpty
  · rw [if_pos hempty, clockwise, List.isEmpty_iff.mp hempty]
    rfl
  · rw [if_neg hempty]
    have hstart : ring.start (H.hashPosition key) ≤ ring.entries.length :=
      (List.takeWhile_sublist _).length_le
    have hread : ((List.range ring.entries.length).filterMap fun i =>
        (ring.entries[(ring.start (H.hashPosition key) + i) % ring.entries.length]?).map Prod.snd) =
          (ring.clockwise (H.hashPosition key)).map Prod.snd := by
      rw [← List.map_filterMap, filterMap_rotate hstart, start, drop_append_take_takeWhile]
      rfl
    dsimp only
    rw [hread, walk_eq_find? (List.forall_mem_nil _), List.find?_map]
    rfl

/-- A virtual node of a healthy worker that is met no later than any other one. -/
def First (H : RingHash) (urls : List String) (isHealthy : String → Bool) (keyPos pos : Nat)
    (url : String) : Prop :=
  url ∈ urls ∧ isHealthy url = true ∧
    (∃ vnode < virtualNodesPerWorker, H.vnodePosition url vnode = pos) ∧
    ∀ url' ∈ urls, isHealthy url' = true → ∀ vnode < virtualNodesPerWorker,
      NoLater keyPos pos (H.vnodePosition url' vnode)

/-- No position of the ring belongs to two workers. -/
def Distinct (H : RingHash) (urls : List String) : Prop :=
  ∀ url ∈ urls, ∀ url' ∈ urls, ∀ vnode < virtualNodesPerWorker,
    ∀ vnode' < virtualNodesPerWorker,
      H.vnodePosition url vnode = H.vnodePosition url' vnode' → url = url'

theorem mem_new {pos : Nat} : (pos, url) ∈ (new H urls).entries ↔
    url ∈ urls ∧ ∃ vnode < virtualNodesPerWorker, H.vnodePosition url vnode = pos := by
  rw [new, (H.sort_perm _).mem_iff]
  simp only [List.mem_flatMap, List.mem_map, List.mem_range, Prod.mk.injEq]
  constructor
  · rintro ⟨u, hu, vnode, hvnode, rfl, rfl⟩
    exact ⟨hu, vnode, hvnode, rfl⟩
  · rintro ⟨hu, vnode, hvnode, rfl⟩
    exact ⟨url, hu, vnode, hvnode, rfl, rfl⟩

theorem mem_clockwise {keyPos : Nat} {entry : Nat × String} :
    entry ∈ ring.clockwise keyPos ↔ entry ∈ ring.entries := by
  rw [clockwise, List.mem_append, or_comm, ← List.mem_append, List.takeWhile_append_dropWhile]

theorem First.of_findHealthyUrl (h : (new H urls).findHealthyUrl H key isHealthy = some url) :
    ∃ pos, First H urls isHealthy (H.hashPosition key) pos url := by
  rw [findHealthyUrl_eq] at h
  obtain ⟨entry, hfind, rfl⟩ := Option.map_eq_some_iff.mp h
  have hsorted : ((new H urls).clockwise (H.hashPosition key)).Pairwise
      fun a b => NoLater (H.hashPosition key) a.1 b.1 := pairwise_noLater (H.sort_sorted _) _
  obtain ⟨hmem, hhealthy, hfirst⟩ :=
    find?_noLater (fun a => NoLater.refl (H.hashPosition key) a.1) hsorted hfind
  obtain ⟨hurl, hvnode⟩ := mem_new.mp (mem_clockwise.mp hmem)
  refine ⟨entry.1, hurl, hhealthy, hvnode, fun url' hurl' hhealthy' vnode hvnode' => ?_⟩
  exact hfirst (_, url') (mem_clockwise.mpr (mem_new.mpr ⟨hurl', vnode, hvnode', rfl⟩)) hhealthy'

theorem findHealthyUrl_eq_none : (new H urls).findHealthyUrl H key isHealthy = none ↔
    ∀ url ∈ urls, isHealthy url = false := by
  rw [findHealthyUrl_eq, Option.map_eq_none_iff, List.find?_eq_none]
  constructor
  · intro h url hurl
    have hmem : (H.vnodePosition url 0, url) ∈
        (new H urls).clockwise (H.hashPosition key) :=
      mem_clockwise.mpr (mem_new.mpr ⟨hurl, 0, by decide, rfl⟩)
    exact Bool.eq_false_iff.mpr (h _ hmem)
  · rintro h ⟨pos, url⟩ hmem
    exact Bool.eq_false_iff.mp (h url (mem_new.mp (mem_clockwise.mp hmem)).1)

theorem First.unique (hdistinct : Distinct H urls) {keyPos pos pos' : Nat}
    (h : First H urls isHealthy keyPos pos url) (h' : First H urls isHealthy keyPos pos' url') :
    url = url' := by
  obtain ⟨hurl, hhealthy, ⟨vnode, hvnode, rfl⟩, hfirst⟩ := h
  obtain ⟨hurl', hhealthy', ⟨vnode', hvnode', rfl⟩, hfirst'⟩ := h'
  have hpos := (hfirst url' hurl' hhealthy' vnode' hvnode').antisymm
    (hfirst' url hurl hhealthy vnode hvnode)
  exact hdistinct url hurl url' hurl' vnode hvnode vnode' hvnode' hpos

theorem findHealthyUrl_eq_some (hdistinct : Distinct H urls) :
    (new H urls).findHealthyUrl H key isHealthy = some url ↔
      ∃ pos, First H urls isHealthy (H.hashPosition key) pos url := by
  refine ⟨First.of_findHealthyUrl, fun ⟨pos, h⟩ => ?_⟩
  cases hfind : (new H urls).findHealthyUrl H key isHealthy with
  | none =>
      have hnone := findHealthyUrl_eq_none.mp hfind url h.1
      rw [h.2.1] at hnone
      cases hnone
  | some url' =>
      obtain ⟨pos', h'⟩ := First.of_findHealthyUrl hfind
      rw [h'.unique hdistinct h]

/-- Fewer healthy workers serve a key as before when its worker is still among them. -/
theorem findHealthyUrl_of_subset (hdistinct : Distinct H urls) (hsub : ∀ u ∈ urls', u ∈ urls)
    (hhealthy : ∀ u ∈ urls', isHealthy' u = true → isHealthy u = true)
    (hkeep : ∀ u, (new H urls).findHealthyUrl H key isHealthy = some u →
      u ∈ urls' ∧ isHealthy' u = true) :
    (new H urls').findHealthyUrl H key isHealthy' = (new H urls).findHealthyUrl H key
    isHealthy := by
  have hdistinct' : Distinct H urls' := fun u hu v hv =>
    hdistinct u (hsub u hu) v (hsub v hv)
  cases hfind : (new H urls).findHealthyUrl H key isHealthy with
  | none =>
      refine findHealthyUrl_eq_none.mpr fun u hu => Bool.eq_false_iff.mpr fun hu' => ?_
      have hnone := findHealthyUrl_eq_none.mp hfind u (hsub u hu)
      rw [hhealthy u hu hu'] at hnone
      cases hnone
  | some url =>
      obtain ⟨hurl, hurl'⟩ := hkeep url hfind
      obtain ⟨pos, -, -, hvnode, hfirst⟩ := First.of_findHealthyUrl hfind
      refine (findHealthyUrl_eq_some hdistinct').mpr ⟨pos, hurl, hurl', hvnode, ?_⟩
      exact fun v hv hv' => hfirst v (hsub v hv) (hhealthy v hv hv')

/-- What a ring answers for a key, and when the answer changes. -/
structure Consistent (H : RingHash) (urls : List String) (isHealthy : String → Bool)
    (key : String) : Prop where
  serves (url : String) : (new H urls).findHealthyUrl H key isHealthy = some url ↔
    ∃ pos, First H urls isHealthy (H.hashPosition key) pos url
  fails : (new H urls).findHealthyUrl H key isHealthy = none ↔
    ∀ url ∈ urls, isHealthy url = false
  joins {w : String} {urls' : List String} : (∀ u, u ∈ urls' ↔ u = w ∨ u ∈ urls) →
    Distinct H urls' → (new H urls').findHealthyUrl H key isHealthy ≠
      (new H urls).findHealthyUrl H key isHealthy →
    (new H urls').findHealthyUrl H key isHealthy = some w
  leaves {w : String} {urls' : List String} : (∀ u, u ∈ urls' ↔ u ∈ urls ∧ u ≠ w) →
    (new H urls').findHealthyUrl H key isHealthy ≠
      (new H urls).findHealthyUrl H key isHealthy →
    (new H urls).findHealthyUrl H key isHealthy = some w
  sickens {w : String} {isHealthy' : String → Bool} :
    (∀ u, isHealthy' u = true ↔ isHealthy u = true ∧ u ≠ w) →
    (new H urls).findHealthyUrl H key isHealthy' ≠
      (new H urls).findHealthyUrl H key isHealthy →
    (new H urls).findHealthyUrl H key isHealthy = some w

/-- A worker that joins, leaves or falls ill moves no key but its own. The hash is a parameter that
gives all virtual nodes positions of their own. -/
theorem findHealthyUrl_consistent (hdistinct : Distinct H urls) (isHealthy : String → Bool)
    (key : String) : Consistent H urls isHealthy key where
  serves _ := findHealthyUrl_eq_some hdistinct
  fails := findHealthyUrl_eq_none
  joins {w urls'} hjoin hdistinct' hchanged := by
    by_contra hnot
    refine hchanged (findHealthyUrl_of_subset hdistinct' (fun u hu => (hjoin u).mpr (Or.inr hu))
      (fun _ _ h => h) fun u hu => ?_).symm
    obtain ⟨pos, hurl, hhealthy, -⟩ := First.of_findHealthyUrl hu
    refine ⟨((hjoin u).mp hurl).resolve_left fun heq => hnot ?_, hhealthy⟩
    rw [hu, heq]
  leaves {w urls'} hleave hchanged := by
    by_contra hnot
    refine hchanged (findHealthyUrl_of_subset hdistinct (fun u hu => ((hleave u).mp hu).1)
      (fun _ _ h => h) fun u hu => ?_)
    obtain ⟨pos, hurl, hhealthy, -⟩ := First.of_findHealthyUrl hu
    refine ⟨(hleave u).mpr ⟨hurl, fun heq => hnot ?_⟩, hhealthy⟩
    rw [hu, heq]
  sickens {w isHealthy'} hsick hchanged := by
    by_contra hnot
    refine hchanged (findHealthyUrl_of_subset hdistinct (fun _ hu => hu)
      (fun u _ h => ((hsick u).mp h).1) fun u hu => ?_)
    obtain ⟨pos, hurl, hhealthy, -⟩ := First.of_findHealthyUrl hu
    refine ⟨hurl, (hsick u).mpr ⟨hhealthy, fun heq => hnot ?_⟩⟩
    rw [hu, heq]

/-- A hash that gives every length of a URL its own residue modulo 100. -/
def residueHash : RingHash where
  vnodePosition url vnode := 100 * vnode + url.length % 100
  hashPosition key := key.length
  sortByPosition entries := entries.mergeSort fun a b => decide (a.1 ≤ b.1)
  sort_perm := perm_sortByFst
  sort_sorted := pairwise_sortByFst

private theorem residueHash_distinct : Distinct residueHash ["http://w1", "http://w10"] := by
  intro url hurl url' hurl' vnode _ vnode' _ heq
  have hlength : url.length % 100 = url'.length % 100 := by
    have hpos : 100 * vnode + url.length % 100 = 100 * vnode' + url'.length % 100 := heq
    omega
  have hall : ∀ u ∈ ["http://w1", "http://w10"], ∀ v ∈ ["http://w1", "http://w10"],
      u.length % 100 = v.length % 100 → u = v := by decide
  exact hall url hurl url' hurl' hlength

theorem findHealthyUrl_consistent_residueHash :
    Consistent residueHash ["http://w1", "http://w10"] (fun url => url != "http://w1") "session" :=
  findHealthyUrl_consistent residueHash_distinct _ _

end HashRing

end SpecDecode.Gateway
