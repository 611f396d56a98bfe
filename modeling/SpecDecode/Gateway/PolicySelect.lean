import SpecDecode.Gateway.HashRingSpec
import SpecDecode.Gateway.Policies
import SpecDecode.Gateway.RegistryIndex
import SpecDecode.Gateway.TreeRun

/-!
# Which workers the policies select

Round robin, power of two and manual routing choose among the available workers. The others
check less: consistent hashing, prefix hashing and a hit of the cache-aware policy ask for health
but not for the circuit breaker, and the bucket policy and the ring name a URL that need not be
one of an available worker. Where the workers and the state leave these gaps closed, every
request gets an available worker.
-/

namespace SpecDecode.Gateway.Policies

variable {env : Env} {workers : List Worker} {c : Call} {i j : Nat} {url : String}

/-- The index of a worker that is healthy and whose circuit breaker admits requests. -/
def Available (workers : List Worker) (i : Nat) : Prop :=
  ∃ w, workers[i]? = some w ∧ w.isAvailable = true

def Healthy (workers : List Worker) (i : Nat) : Prop :=
  ∃ w, workers[i]? = some w ∧ w.isHealthy = true

theorem Available.healthy (h : Available workers i) : Healthy workers i := by
  obtain ⟨w, hw, havail⟩ := h
  exact ⟨w, hw, (Bool.and_eq_true_iff.mp havail).1⟩

/-- No worker is healthy while its circuit breaker is open. -/
def BreakersAdmit (workers : List Worker) : Prop :=
  ∀ w ∈ workers, w.isHealthy = true → w.circuitBreaker.canExecute = true

theorem Healthy.available (h : Healthy workers i) (hadmitted : BreakersAdmit workers) :
    Available workers i := by
  obtain ⟨w, hw, hhealthy⟩ := h
  exact ⟨w, hw, Bool.and_eq_true_iff.mpr ⟨hhealthy, hadmitted w (List.mem_of_getElem? hw) hhealthy⟩⟩

theorem mem_getHealthyWorkerIndices : i ∈ getHealthyWorkerIndices workers ↔
    Available workers i := by
  simp only [getHealthyWorkerIndices, List.mem_map, List.mem_filter]
  constructor
  · rintro ⟨⟨w, k⟩, ⟨hmem, havail⟩, rfl⟩
    exact ⟨w, List.mk_mem_zipIdx_iff_getElem?.mp hmem, havail⟩
  · rintro ⟨w, hw, havail⟩
    exact ⟨(w, i), ⟨List.mk_mem_zipIdx_iff_getElem?.mpr hw, havail⟩, rfl⟩

theorem mem_healthyWorkers {e : Worker × Nat} :
    e ∈ healthyWorkers workers ↔ workers[e.2]? = some e.1 ∧ e.1.isHealthy = true := by
  rw [healthyWorkers, List.mem_filter]
  exact and_congr_left fun _ => List.mk_mem_zipIdx_iff_getElem?

/-- A list from which something can be drawn gives one of its elements. -/
theorem getElem?_mod {α : Type} {l : List α} (hl : l ≠ []) (n : Nat) :
    ∃ a ∈ l, l[n % l.length]? = some a := by
  have hlt := Nat.mod_lt n (List.length_pos_of_ne_nil hl)
  exact ⟨l[n % l.length], List.getElem_mem _, List.getElem?_eq_getElem hlt⟩

theorem argmin_of_ne_nil {α : Type} {f : α → Nat} {l : List α} (hl : l ≠ []) :
    ∃ a ∈ l, l.argmin f = some a := by
  cases hmin : l.argmin f with
  | none => exact absurd (List.argmin_eq_none.mp hmin) hl
  | some a => exact ⟨a, List.argmin_mem hmin, rfl⟩

structure Picks (workers : List Worker) (r : Option Nat) : Prop where
  available i : r = some i → Available workers i
  isSome : (∃ i, Available workers i) → r.isSome = true

theorem Picks.of_available (h : Available workers i) : Picks workers (some i) :=
  ⟨fun _ heq => Option.some.inj heq ▸ h, fun _ => rfl⟩

theorem Picks.of_nil (h : getHealthyWorkerIndices workers = []) : Picks workers none := by
  refine ⟨nofun, fun ⟨i, hi⟩ => ?_⟩
  rw [← mem_getHealthyWorkerIndices, h] at hi
  cases hi

theorem Picks.of_mem {r : Option Nat} (h : ∃ i ∈ getHealthyWorkerIndices workers, r = some i) :
    Picks workers r := by
  obtain ⟨i, hi, rfl⟩ := h
  exact .of_available (mem_getHealthyWorkerIndices.mp hi)

theorem Picks.randomSelect (h : getHealthyWorkerIndices workers ≠ []) (draw : Nat) :
    Picks workers (randomSelect draw (getHealthyWorkerIndices workers)) :=
    .of_mem (getElem?_mod h draw)

theorem roundRobinSelect_picks (counter : Nat) :
    Picks c.workers (roundRobinSelect counter c).1 := by
  simp only [roundRobinSelect]
  split
  · next hnil => exact .of_nil (List.isEmpty_iff.mp hnil)
  · next hne => exact .of_mem (getElem?_mod (mt List.isEmpty_iff.mpr hne) counter)

theorem powerOfTwoSelect_picks (loads : AList fun _ : String => Int) :
    Picks c.workers (powerOfTwoSelect loads c) := by
  unfold powerOfTwoSelect
  split
  · next hnil => exact .of_nil hnil
  · next idx hone => exact .of_mem ⟨idx, by rw [hone]; exact List.mem_cons_self, rfl⟩
  · next hnil _ =>
      obtain ⟨a, ha, hget⟩ := getElem?_mod hnil c.draw
      obtain ⟨b, hb, hget'⟩ := getElem?_mod hnil (randomRange c.draw
        (getHealthyWorkerIndices c.workers).length + 1 +
          randomRange c.draw₂ ((getHealthyWorkerIndices c.workers).length - 1))
      simp only [randomRange] at hget hget' ⊢
      simp only [hget, hget']
      have hmem (p : Prop) [Decidable p] :
          (if p then a else b) ∈ getHealthyWorkerIndices c.workers := by
        split
        · exact ha
        · exact hb
      exact .of_mem ⟨_, hmem _, rfl⟩

private theorem selectMinBy_mem {indices : List Nat} {value : Nat → Nat} (h : indices ≠ [])
    (draw : Nat) :
    ∃ i ∈ indices, selectMinBy draw indices value = some i := by
  obtain ⟨a, ha, hmin⟩ := argmin_of_ne_nil (f := value) h
  have hne : (indices.filter fun idx => indices.all fun idx' => value idx ≤ value idx') ≠ [] := by
    refine List.ne_nil_of_mem (List.mem_filter.mpr ⟨ha, List.all_eq_true.mpr fun b hb => ?_⟩)
    exact decide_eq_true (List.le_of_mem_argmin hb hmin)
  obtain ⟨i, hi, hget⟩ := getElem?_mod hne draw
  exact ⟨i, (List.mem_filter.mp hi).1, hget⟩

theorem Manual.selectNewWorker_picks (m : Manual) (h : getHealthyWorkerIndices c.workers ≠ []) :
    Picks c.workers (m.selectNewWorker c (getHealthyWorkerIndices c.workers)) := by
  unfold Manual.selectNewWorker
  split
  · exact .randomSelect h c.draw
  · exact .of_mem (selectMinBy_mem h c.draw)
  · exact .of_mem (selectMinBy_mem h c.draw)

private theorem findHealthyWorker_mem {urls : List String} {healthyIndices : List Nat}
    (h : findHealthyWorker urls workers healthyIndices = some i) : i ∈ healthyIndices := by
  obtain ⟨url, _, hfound⟩ := List.exists_of_findSome?_eq_some h
  exact List.contains_iff_mem.mp (Option.filter_eq_some_iff.mp hfound).2

theorem Manual.select_picks (m : Manual) : Picks c.workers (m.select c).1 := by
  simp only [Manual.select]
  split
  · next hnil => exact .of_nil (List.isEmpty_iff.mp hnil)
  · next hne =>
      have hne := mt List.isEmpty_iff.mpr hne
      split
      · split
        · split
          · next hfound => exact .of_mem ⟨_, findHealthyWorker_mem hfound, rfl⟩
          · exact m.selectNewWorker_picks hne
        · exact m.selectNewWorker_picks hne
      · exact .randomSelect hne c.draw

theorem findHealthyUrl_isSome {ring : HashRing} {isHealthy : String → Bool} {e : Nat × String}
    (he : e ∈ ring.entries) (hhealthy : isHealthy e.2 = true) (H : RingHash) (key : String) :
    ∃ url, ring.findHealthyUrl H key isHealthy = some url ∧ isHealthy url = true := by
  have hsome : ((ring.clockwise (H.hashPosition key)).find?
      fun entry => isHealthy entry.2).isSome :=
    List.find?_isSome.mpr ⟨e, HashRing.mem_clockwise.mpr he, hhealthy⟩
  obtain ⟨entry, hfind⟩ := Option.isSome_iff_exists.mp hsome
  have hentry : isHealthy entry.2 = true := by simpa using List.find?_some hfind
  refine ⟨entry.2, ?_, hentry⟩
  rw [HashRing.findHealthyUrl_eq H ring key, hfind]
  rfl

theorem lookup_healthyUrlToIdx (h : (healthyUrlToIdx workers).lookup url = some i) :
    Healthy workers i := by
  have hfold (l : List (Worker × Nat)) (m : AList fun _ : String => Nat)
      (hl : ∀ e ∈ l, Healthy workers e.2) (hm : ∀ u k, m.lookup u = some k → Healthy workers k) :
      ∀ u k, (l.foldl (fun m e => m.insert e.1.url e.2) m).lookup u = some k →
        Healthy workers k := by
    induction l generalizing m with
    | nil => exact hm
    | cons e l ih =>
        refine ih _ (fun e' he' => hl e' (List.mem_cons_of_mem _ he')) fun u k hk => ?_
        by_cases hu : u = e.1.url
        · rw [hu, AList.lookup_insert] at hk
          exact Option.some.inj hk ▸ hl e List.mem_cons_self
        · rw [AList.lookup_insert_ne hu] at hk
          exact hm u k hk
  refine hfold _ ∅ (fun e he => ?_) (fun u k hk => ?_) url i h
  · obtain ⟨hw, hhealthy⟩ := mem_healthyWorkers.mp he
    exact ⟨e.1, hw, hhealthy⟩
  · rw [AList.lookup_empty] at hk
    cases hk

theorem healthyUrlToIdx_isSome {w : Worker} (hw : workers[i]? = some w)
    (hhealthy : w.isHealthy = true) : ((healthyUrlToIdx workers).lookup w.url).isSome = true := by
  have hfold (l : List (Worker × Nat)) (m : AList fun _ : String => Nat)
      (h : (∃ e ∈ l, e.1.url = w.url) ∨ w.url ∈ m) :
      w.url ∈ l.foldl (fun m e => m.insert e.1.url e.2) m := by
    induction l generalizing m with
    | nil => exact h.resolve_left nofun
    | cons e l ih =>
        refine ih _ ?_
        rcases h with ⟨e', he', hurl⟩ | hm
        · rcases List.mem_cons.mp he' with rfl | he'
          · exact .inr ((AList.mem_insert _).mpr (.inl hurl.symm))
          · exact .inl ⟨e', he', hurl⟩
        · exact .inr ((AList.mem_insert _).mpr (.inr hm))
  refine AList.lookup_isSome.mpr (hfold _ ∅ (.inl ⟨(w, i), ?_, rfl⟩))
  exact mem_healthyWorkers.mpr ⟨hw, hhealthy⟩

def RingCovers (workers : List Worker) (ring : HashRing) : Prop :=
  ∃ e ∈ ring.entries, ∃ w ∈ workers, w.isHealthy = true ∧ w.url = e.2

theorem findByConsistentHash_healthy {key : String} (h : findByConsistentHash env c key = some i) :
    Healthy c.workers i := by
  simp only [findByConsistentHash] at h
  split at h
  · cases h
  · split at h
    · obtain ⟨url, _, hlookup⟩ := Option.bind_eq_some_iff.mp h
      exact lookup_healthyUrlToIdx hlookup
    · have hmem := List.mem_mergeSort.mp (List.mem_of_getElem? h)
      obtain ⟨⟨url, k⟩, he, rfl⟩ := List.mem_map.mp hmem
      exact lookup_healthyUrlToIdx (c.order.mem_iter.mp he)

theorem findByConsistentHash_isSome {key : String} (havail : ∃ i, Available c.workers i)
    (hring : ∀ ring, c.info.hashRing = some ring → RingCovers c.workers ring) :
    (findByConsistentHash env c key).isSome = true := by
  obtain ⟨i, hi⟩ := havail
  obtain ⟨w, hw, hhealthy⟩ := hi.healthy
  have hsome := healthyUrlToIdx_isSome hw hhealthy
  have hmem : w.url ∈ healthyUrlToIdx c.workers := AList.lookup_isSome.mp hsome
  have hne : ¬ (healthyUrlToIdx c.workers).entries.isEmpty = true := by
    intro hnil
    obtain ⟨e, he, _⟩ := List.mem_map.mp hmem
    rw [List.isEmpty_iff.mp hnil] at he
    cases he
  simp only [findByConsistentHash, if_neg hne]
  split
  · next ring heq =>
      obtain ⟨e, he, w', hw', hhealthy', hurl⟩ := hring ring heq
      obtain ⟨k, hk⟩ := List.getElem?_of_mem hw'
      have hin : ((healthyUrlToIdx c.workers).lookup e.2).isSome = true :=
        hurl ▸ healthyUrlToIdx_isSome hk hhealthy'
      obtain ⟨url, hfound, hurl⟩ := @findHealthyUrl_isSome ring
        (fun url => ((healthyUrlToIdx c.workers).lookup url).isSome) e he hin env.ringHash key
      rw [hfound]
      exact hurl
  · have hlist : ((c.order.iter (healthyUrlToIdx c.workers)).map (·.2)).mergeSort ≠ [] := by
      obtain ⟨k, hk⟩ := Option.isSome_iff_exists.mp hsome
      exact List.ne_nil_of_mem (List.mem_mergeSort.mpr
        (List.mem_map.mpr ⟨⟨w.url, k⟩, c.order.mem_iter.mpr hk, rfl⟩))
    obtain ⟨k, _, hget⟩ := getElem?_mod hlist (env.ringHash.hashPosition key)
    rw [hget]
    rfl

theorem consistentHashingSelect_healthy (h : consistentHashingSelect env c = some i) :
    Healthy c.workers i := by
  simp only [consistentHashingSelect] at h
  split at h
  · cases h
  · split at h
    · obtain ⟨_, hhealthy⟩ := Option.filter_eq_some_iff.mp h
      cases hw : c.workers[i]? with
      | none => simp [hw] at hhealthy
      | some w => exact ⟨w, hw, by simpa [hw] using hhealthy⟩
    · split at h
      · exact findByConsistentHash_healthy h
      · split at h
        · exact findByConsistentHash_healthy h
        · split at h
          · cases h
          · obtain ⟨e, he, rfl⟩ := Option.map_eq_some_iff.mp h
            obtain ⟨hw, hhealthy⟩ := mem_healthyWorkers.mp (List.mem_of_getElem? he)
            exact ⟨e.1, hw, hhealthy⟩

theorem consistentHashingSelect_isSome (havail : ∃ i, Available c.workers i)
    (htarget : extractTargetWorker c.info.headers = none)
    (hring : ∀ ring, c.info.hashRing = some ring → RingCovers c.workers ring) :
    (consistentHashingSelect env c).isSome = true := by
  obtain ⟨i, hi⟩ := havail
  obtain ⟨w, hw, hhealthy⟩ := hi.healthy
  have hne : ¬ c.workers.isEmpty = true := by
    intro hnil
    rw [List.isEmpty_iff.mp hnil] at hw
    cases hw
  simp only [consistentHashingSelect, if_neg hne, htarget]
  split
  · exact findByConsistentHash_isSome ⟨i, hi⟩ hring
  · split
    · exact findByConsistentHash_isSome ⟨i, hi⟩ hring
    · have hlist : healthyWorkers c.workers ≠ [] :=
        List.ne_nil_of_mem (mem_healthyWorkers.mpr
          (show _ ∧ (w, i).1.isHealthy = true from ⟨hw, hhealthy⟩))
      rw [if_neg (mt List.isEmpty_iff.mp hlist)]
      obtain ⟨e, _, hget⟩ := getElem?_mod hlist c.draw
      rw [randomRange, hget]
      rfl

theorem findWorkerWithLoadBalance_healthy {config : PrefixHashConfig} {key : String}
    (h : findWorkerWithLoadBalance env config c key = some i) : Healthy c.workers i := by
  have hmem {e : Worker × Nat} (he : e ∈ healthyWorkers c.workers) : Healthy c.workers e.2 :=
    ⟨e.1, mem_healthyWorkers.mp he⟩
  simp only [findWorkerWithLoadBalance] at h
  split at h
  · cases h
  · split at h
    · next idx hinitial =>
        have hidx : Healthy c.workers idx := by
          obtain ⟨ring, _, hfound⟩ := Option.bind_eq_some_iff.mp hinitial
          obtain ⟨url, _, hlookup⟩ := Option.bind_eq_some_iff.mp hfound
          exact lookup_healthyUrlToIdx hlookup
        split at h
        · exact Option.some.inj h ▸ hidx
        · rw [← Option.some.inj h]
          cases hmin : ((healthyWorkers c.workers).filter fun e => config.loadOk e.1.load
              ((healthyWorkers c.workers).map (·.1.load)).sum
                (healthyWorkers c.workers).length).argmin
              (·.1.load) with
          | none => exact hidx
          | some e => exact hmem (List.mem_filter.mp (List.argmin_mem hmin)).1
    · obtain ⟨e, he, rfl⟩ := Option.map_eq_some_iff.mp h
      exact hmem (List.argmin_mem he)

theorem prefixHashSelect_healthy {config : PrefixHashConfig}
    (h : prefixHashSelect env config c = some i) : Healthy c.workers i := by
  simp only [prefixHashSelect] at h
  split at h
  · cases h
  · split at h
    · exact findWorkerWithLoadBalance_healthy h
    · cases h

theorem prefixHashSelect_isSome {config : PrefixHashConfig} {token : UInt32} {tokens : List UInt32}
    (havail : ∃ i, Available c.workers i) (htokens : c.info.tokens = some (token :: tokens)) :
    (prefixHashSelect env config c).isSome = true := by
  obtain ⟨i, hi⟩ := havail
  obtain ⟨w, hw, hhealthy⟩ := hi.healthy
  have hne : ¬ c.workers.isEmpty = true := by
    intro hnil
    rw [List.isEmpty_iff.mp hnil] at hw
    cases hw
  have hlist : healthyWorkers c.workers ≠ [] :=
    List.ne_nil_of_mem (mem_healthyWorkers.mpr
      (show _ ∧ (w, i).1.isHealthy = true from ⟨hw, hhealthy⟩))
  simp only [prefixHashSelect, if_neg hne, htokens, findWorkerWithLoadBalance,
    if_neg (mt List.isEmpty_iff.mp hlist)]
  split
  · split
    · rfl
    · rfl
  · obtain ⟨e, _, hmin⟩ := argmin_of_ne_nil (f := fun e : Worker × Nat => e.1.load) hlist
    rw [hmin]
    rfl

theorem minLoadIdx_picks (h : getHealthyWorkerIndices workers ≠ []) :
    Picks workers (minLoadIdx workers (getHealthyWorkerIndices workers)) :=
  .of_mem (argmin_of_ne_nil h)

theorem CacheAware.selectCached_picks (p : CacheAware) (hadmitted : BreakersAdmit c.workers)
    (h : getHealthyWorkerIndices c.workers ≠ []) (modelId : String) (tree : Tree) :
    Picks c.workers (p.selectCached c (getHealthyWorkerIndices c.workers) modelId tree).1 := by
  simp only [CacheAware.selectCached]
  split
  · next idx hselected =>
      refine .of_available ?_
      simp only [CacheAware.selectedIdx] at hselected
      split at hselected
      · obtain ⟨_, hhealthy⟩ := Option.filter_eq_some_iff.mp hselected
        cases hw : c.workers[idx]? with
        | none => simp [hw] at hhealthy
        | some w => exact Healthy.available ⟨w, hw, by simpa [hw] using hhealthy⟩ hadmitted
      · exact (minLoadIdx_picks h).available idx hselected
  · obtain ⟨first, rest, hcons⟩ := List.exists_cons_of_ne_nil h
    exact .of_mem ⟨first, by rw [hcons]; exact List.mem_cons_self, by rw [hcons]; rfl⟩

theorem CacheAware.select_picks (p : CacheAware) (hadmitted : BreakersAdmit c.workers) :
    Picks c.workers (p.select env c).1 := by
  simp only [CacheAware.select]
  split
  · next hnil => exact .of_nil (List.head?_eq_none_iff.mp hnil)
  · next first hfirst =>
      have hne : getHealthyWorkerIndices c.workers ≠ [] :=
        List.ne_nil_of_mem (List.mem_of_head? hfirst)
      split
      · exact minLoadIdx_picks hne
      · split
        · exact p.selectCached_picks hadmitted hne _ _
        · exact .randomSelect hne c.draw

def Routes (workers : List Worker) (url : String) : Prop :=
  ∃ i, findWorkerIndexByUrl workers url = some i ∧ Available workers i

def Bucket.Names (b : Bucket) (url : String) : Prop :=
  url ∈ b.charsPerUrl ∨ url.isEmpty = false ∧ ∃ boundary ∈ b.boundary, boundary.url = url

theorem findBoundary_mem {b : Bucket} {charCount : Nat} (h : b.findBoundary charCount = some url) :
    ∃ boundary ∈ b.boundary, boundary.url = url := by
  have hloop (fuel left right : Nat)
      (h : Bucket.findBoundaryLoop b.boundary charCount fuel left right = some url) :
      ∃ boundary ∈ b.boundary, boundary.url = url := by
    induction fuel generalizing left right with
    | zero => cases h
    | succ fuel ih =>
        simp only [Bucket.findBoundaryLoop] at h
        split at h
        · split at h
          · cases h
          · next boundary hget =>
              split at h
              · exact ih _ _ h
              · split at h
                · exact ih _ _ h
                · exact ⟨boundary, List.mem_of_getElem? hget, Option.some.inj h⟩
        · cases h
  exact hloop _ _ _ h

structure BucketCurrent (env : Env) (p : BucketPolicy) (workers : List Worker) : Prop where
  listed i : Available workers i → Routes workers (urlOf workers i)
  named i b url : Available workers i → p.buckets.lookup (modelOf env workers i) = some b →
    b.Names url → Routes workers url

theorem Routes.picks (h : Routes workers url) :
    Picks workers (findWorkerIndexByUrl workers url) := by
  obtain ⟨i, hi, havail⟩ := h
  rw [hi]
  exact .of_available havail

theorem BucketPolicy.chooseUrl_routes (p : BucketPolicy) {b : Bucket} {charCount : Nat}
    (hrandom : Routes c.workers
      (urlOf c.workers ((randomSelect c.draw (getHealthyWorkerIndices c.workers)).getD 0)))
    (hnames : ∀ url, b.Names url → Routes c.workers url) :
    Routes c.workers (p.chooseUrl c b (getHealthyWorkerIndices c.workers) charCount) := by
  simp only [BucketPolicy.chooseUrl]
  split
  · cases hmin : (c.order.iter b.charsPerUrl).argmin (·.2) with
    | none => exact hrandom
    | some e =>
        have hmem : ⟨e.1, e.2⟩ ∈ c.order.iter b.charsPerUrl := List.argmin_mem hmin
        have hlookup := c.order.mem_iter.mp hmem
        exact hnames e.1
          (.inl (AList.lookup_isSome.mp (Option.isSome_iff_exists.mpr ⟨e.2, hlookup⟩)))
  · split
    · next url hfound =>
        split
        · exact hrandom
        · next hempty =>
            exact hnames url (.inr ⟨Bool.eq_false_iff.mpr hempty, findBoundary_mem hfound⟩)
    · exact hrandom

theorem BucketPolicy.select_picks (p : BucketPolicy) (h : BucketCurrent env p c.workers) :
    Picks c.workers (p.select env c).1 := by
  simp only [BucketPolicy.select]
  split
  · next hnil => exact .of_nil (List.head?_eq_none_iff.mp hnil)
  · next first hfirst =>
      have hmem := List.mem_of_head? hfirst
      have hne := List.ne_nil_of_mem hmem
      have hrandom : Routes c.workers
          (urlOf c.workers ((randomSelect c.draw (getHealthyWorkerIndices c.workers)).getD 0)) := by
        obtain ⟨i, hi, hget⟩ := getElem?_mod hne c.draw
        rw [randomSelect, randomRange, hget]
        exact h.listed i (mem_getHealthyWorkerIndices.mp hi)
      split
      · next b hb =>
          exact (p.chooseUrl_routes hrandom fun url =>
            h.named first b url (mem_getHealthyWorkerIndices.mp hmem) hb).picks
      · exact hrandom.picks

/-- The requests to which a policy may answer `None`: an explicit target worker, no tokens. -/
def Excused (p : Policy) (c : Call) : Prop :=
  match p with
  | .consistentHashing => (extractTargetWorker c.info.headers).isSome = true
  | .prefixHash _ => c.info.tokens = none ∨ c.info.tokens = some []
  | _ => False

/-- The answer is an available worker, and there is one if there is such a worker. -/
structure Served (p : Policy) (c : Call) (r : Option Nat) : Prop where
  available i : r = some i → Available c.workers i
  isSome : ¬ Excused p c → (∃ i, Available c.workers i) → r.isSome = true

theorem Picks.served {r : Option Nat} (h : Picks c.workers r) (p : Policy) : Served p c r :=
  ⟨h.available, fun _ => h.isSome⟩

/-- The gaps of the policies are closed for this call. -/
def Admissible (env : Env) (p : Policy) (c : Call) : Prop :=
  match p with
  | .cacheAware _ => BreakersAdmit c.workers
  | .prefixHash _ => BreakersAdmit c.workers
  | .consistentHashing => BreakersAdmit c.workers ∧
      ∀ ring, c.info.hashRing = some ring → (∃ i, Available c.workers i) → RingCovers c.workers ring
  | .bucket p => BucketCurrent env p c.workers
  | .manual _ | .powerOfTwo _ | .roundRobin _ => True

theorem selectWorker_served {p : Policy} (h : Admissible env p c) :
    Served p c (p.selectWorker env c).1 := by
  cases p with
  | cacheAware p => exact (p.select_picks h).served _
  | bucket p => exact (p.select_picks h).served _
  | manual p => exact p.select_picks.served _
  | prefixHash config =>
      refine ⟨fun i hi => (prefixHashSelect_healthy hi).available h, fun hexcused havail => ?_⟩
      rw [Excused, not_or] at hexcused
      cases htokens : c.info.tokens with
      | none => exact absurd htokens hexcused.1
      | some tokens =>
          cases tokens with
          | nil => exact absurd htokens hexcused.2
          | cons token tokens => exact prefixHashSelect_isSome havail htokens
  | consistentHashing =>
      refine ⟨fun i hi => (consistentHashingSelect_healthy hi).available h.1,
        fun hexcused havail => ?_⟩
      exact consistentHashingSelect_isSome havail (Option.not_isSome_iff_eq_none.mp hexcused)
        fun ring hring => h.2 ring hring havail
  | powerOfTwo loads => exact (powerOfTwoSelect_picks loads).served _
  | roundRobin counter => exact (roundRobinSelect_picks counter).served _

/-- A property of every request of a run, at the state it meets. -/
def AtRequests (env : Env) (P : Policy → Call → Prop) : Policy → List PolicyOp → Prop
  | _, [] => True
  | p, op :: ops => (∀ c, op = .select c → P p c) ∧ AtRequests env P (p.apply env op) ops

/-- In every run of a policy whose requests find its gaps closed (`Admissible`), a request is sent
to an available worker, and to some worker whenever one is available. -/
theorem requests_served (env : Env) (p : Policy) (ops : List PolicyOp)
    (h : AtRequests env (Admissible env) p ops) :
    AtRequests env (fun p c => Served p c (p.selectWorker env c).1) p ops := by
  induction ops generalizing p with
  | nil => trivial
  | cons op ops ih => exact ⟨fun c hc => selectWorker_served (h.1 c hc), ih _ h.2⟩

/-- External functions to run the policies with. -/
def rowEnv : Env := ⟨WorkerRegistry.rowHash, "unknown", fun tokens => toString tokens.length⟩

/-- A request without headers, tokens or text. -/
def anonymousCall (workers : List Worker) : Call :=
  ⟨workers, ⟨none, none, none, none⟩, Tree.listOrder, 0, 0, 1, 2, 0, "id"⟩

def upWorker : Worker := ⟨"http://w1:8000", "chat", true, .closed, 0, 0⟩

def downWorker : Worker := ⟨"http://w2:8000", "chat", false, .closed, 0, 0⟩

/-- A healthy worker that has failed too often. -/
def trippedWorker : Worker := ⟨"http://w3:8000", "chat", true, .open, 0, 0⟩

theorem requests_served_down :
    AtRequests rowEnv (fun p c => Served p c (p.selectWorker rowEnv c).1) .consistentHashing
      [.select (anonymousCall [downWorker, upWorker])] := by
  refine requests_served rowEnv .consistentHashing [.select (anonymousCall [downWorker, upWorker])]
    ⟨fun c hc => ?_, trivial⟩
  obtain rfl := PolicyOp.select.inj hc
  refine ⟨fun w hw _ => ?_, nofun⟩
  rcases List.mem_cons.mp hw with rfl | hw
  · rfl
  · rw [List.mem_singleton.mp hw]
    rfl

/-- A bucket policy that knows both workers. -/
def chatBuckets : BucketPolicy :=
  BucketPolicy.apply rowEnv ⟨⟨32, fun _ _ => false, 5000⟩, ∅⟩
    (.initPrefillWorkerUrls [("http://w2:8000", "chat"), ("http://w1:8000", "chat")])

/-- Consistent hashing selects a worker whose circuit breaker is open, and the bucket policy one
that is down although the other is available. -/
theorem unavailable_selected :
    (Policy.consistentHashing.selectWorker rowEnv (anonymousCall [trippedWorker])).1 = some 0 ∧
    ¬ Available [trippedWorker] 0 ∧
    ((Policy.bucket chatBuckets).selectWorker rowEnv (anonymousCall [downWorker, upWorker])).1 =
    some 0 ∧
    ¬ Available [downWorker, upWorker] 0 ∧ Available [downWorker, upWorker] 1 := by
  refine ⟨by decide, ?_, by decide, ?_, upWorker, rfl, rfl⟩
  · rintro ⟨w, hw, havail⟩
    obtain rfl := Option.some.inj hw
    cases havail
  · rintro ⟨w, hw, havail⟩
    obtain rfl := Option.some.inj hw
    cases havail

end SpecDecode.Gateway.Policies
