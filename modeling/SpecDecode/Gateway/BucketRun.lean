import SpecDecode.Gateway.Policies
import SpecDecode.Lib.Tiling

/-!
# The boundaries of a bucket tile the lengths

A bucket has a range of request lengths for every worker URL. The ranges are recomputed when
workers come and go and when the load has shifted. `Meets` names the calls after which the
ranges tile all lengths and the load of every URL is that of its requests in the window.
-/

namespace SpecDecode.Gateway.Policies

open Tiling

namespace Bucket

def addPrefillUrl (b : Bucket) (url : String) : Bucket :=
  b.initPrefillWorkerUrls
    (if url ∈ b.prefillWorkerUrls then b.prefillWorkerUrls else b.prefillWorkerUrls ++ [url])

/-- `remove_prefill_url` on the bucket of the model. -/
def removePrefillUrl (b : Bucket) (url : String) : Bucket :=
  let urls := b.prefillWorkerUrls.filter (· ≠ url)
  let b := { b with
    prefillWorkerUrls := urls
    charsPerUrl := b.charsPerUrl.erase url
    bucketCnt := urls.length }
  if 0 < urls.length then b.initPrefillWorkerUrls urls else b

end Bucket

inductive BucketCall
  | initPrefillWorkerUrls (urls : List String)
  | addPrefillUrl (url : String)
  | removePrefillUrl (url : String)
  | postProcessRequest (charCnt : Nat) (url : String) (now : Nat) (id : String)
  | adjustBoundary (o : Order)

/-- The length that a call posts. -/
def BucketCall.posted : BucketCall → Nat
  | .initPrefillWorkerUrls _ => 0
  | .addPrefillUrl _ => 0
  | .removePrefillUrl _ => 0
  | .postProcessRequest charCnt _ _ _ => charCnt
  | .adjustBoundary _ => 0

namespace Bucket

def call (b : Bucket) : BucketCall → Bucket
  | .initPrefillWorkerUrls urls => b.initPrefillWorkerUrls urls
  | .addPrefillUrl url => b.addPrefillUrl url
  | .removePrefillUrl url => b.removePrefillUrl url
  | .postProcessRequest charCnt url now id => b.postProcessRequest charCnt url now id
  | .adjustBoundary o => b.adjustBoundary o

def urlsAfter (b : Bucket) : BucketCall → List String
  | .initPrefillWorkerUrls urls => urls
  | .addPrefillUrl url =>
      if url ∈ b.prefillWorkerUrls then b.prefillWorkerUrls else b.prefillWorkerUrls ++ [url]
  | .removePrefillUrl url => b.prefillWorkerUrls.filter (· ≠ url)
  | .postProcessRequest .. => b.prefillWorkerUrls
  | .adjustBoundary _ => b.prefillWorkerUrls

/-- The lengths of the requests in a list that one URL serves. -/
def load (requests : List SequencerRequest) (url : String) : Nat :=
  ((requests.filter fun r => r.prefillWorkerUrl == url).map SequencerRequest.charCnt).sum

/-- The lengths still in the request list for a URL. -/
def pending (b : Bucket) (url : String) : Nat := load b.requestList url

/-- The even split over the workers after a call has no negative upper bound. -/
def NoUnderflow (b : Bucket) (call : BucketCall) : Prop :=
  ∀ i, i + 1 < (b.urlsAfter call).length →
    1 ≤ (i + 1) * (b.lMax / (b.urlsAfter call).length)

/-- Distinct URLs, as many as fit a vector, and lengths of at most a quarter of `usize::MAX` in
the whole run. -/
def Legal (b : Bucket) (posted : Nat) : BucketCall → Prop
  | .initPrefillWorkerUrls urls => urls.Nodup ∧ urls.length ≤ usizeMax / 4
  | .addPrefillUrl _ => b.prefillWorkerUrls.length + 1 ≤ usizeMax / 4
  | .removePrefillUrl _ => True
  | .postProcessRequest charCnt _ _ _ => posted + charCnt ≤ usizeMax / 4
  | .adjustBoundary _ => True

/-- The calls that keep the bucket tidy. The workers change only while no request of a worker that
stays is in the window, the first ones are at most as many as the initial maximum length, the
last worker is not removed, and requests are posted for a current worker. -/
def Meets (b : Bucket) : BucketCall → Prop
  | .initPrefillWorkerUrls urls =>
      urls.length ≤ b.lMax ∧ ∀ url ∈ urls, b.pending url = 0
  | .addPrefillUrl url =>
      (b.urlsAfter (.addPrefillUrl url)).length ≤ b.lMax ∧
        ∀ u ∈ b.urlsAfter (.addPrefillUrl url), b.pending u = 0
  | .removePrefillUrl url => b.prefillWorkerUrls = [] ∨
      b.urlsAfter (.removePrefillUrl url) ≠ [] ∧
        ∀ u ∈ b.urlsAfter (.removePrefillUrl url), b.pending u = 0
  | .postProcessRequest _ url _ _ => url ∈ b.prefillWorkerUrls
  | .adjustBoundary _ => True

/-- The ranges tile the lengths, one for every worker, and the load of every worker is that of
its requests in the window. A bucket without workers has no ranges. -/
structure Tidy (b : Bucket) : Prop where
  tiles : b.prefillWorkerUrls ≠ [] →
    Tiles Boundary.lower Boundary.upper 0 b.boundary (usizeMax + 1)
  urls : b.boundary.map Boundary.url = b.prefillWorkerUrls
  nodup : b.prefillWorkerUrls.Nodup
  finds : b.prefillWorkerUrls ≠ [] → ∀ charCount ≤ usizeMax,
    ∃ url ∈ b.prefillWorkerUrls, b.findBoundary charCount = some url
  chars (url : String) : b.charsPerUrl.lookup url =
    if url ∈ b.prefillWorkerUrls then some (b.pending url) else none

/-- The buckets of the runs in which every call is legal and meets the condition, with the
lengths posted so far. -/
inductive Reached : Bucket → Nat → Prop
  | new (period : Nat) : Reached (new period) 0
  | call {b : Bucket} {posted : Nat} (h : Reached b posted) (call : BucketCall)
      (hlegal : b.Legal posted call) (hmeets : b.Meets call) :
      Reached (b.call call) (posted + call.posted)

theorem findBoundaryLoop_eq {boundary : List Boundary} {x : Nat} {range : Boundary}
    (hsorted : boundary.Pairwise fun a b => a.upper < b.lower)
    (hvalid : ∀ b ∈ boundary, b.lower ≤ b.upper)
    (hrange : range.lower ≤ x ∧ x ≤ range.upper) {fuel left right i : Nat}
    (hi : boundary[i]? = some range) (hleft : left ≤ i) (hright : i < right)
    (hlen : right ≤ boundary.length) (hfuel : right - left < fuel) :
    findBoundaryLoop boundary x fuel left right = some range.url := by
  induction fuel generalizing left right with
  | zero => omega
  | succ fuel ih =>
      have hmid : left + (right - left) / 2 < boundary.length := by omega
      have hi' := (List.getElem?_eq_some_iff.mp hi)
      obtain ⟨hlt, hget⟩ := hi'
      have hbefore := List.pairwise_iff_getElem.mp hsorted
      simp only [findBoundaryLoop, if_pos (Nat.lt_of_le_of_lt hleft hright),
        List.getElem?_eq_getElem hmid]
      obtain hless | heq | hgreater := Nat.lt_trichotomy (left + (right - left) / 2) i
      · have hupper := hbefore _ _ hmid hlt hless
        have hvalid := hvalid _ (List.getElem_mem hmid)
        rw [hget] at hupper
        rw [if_neg (by omega), if_pos (by omega)]
        exact ih (by omega) hright hlen (by omega)
      · subst heq
        rw [hget, if_neg (by omega), if_neg (by omega)]
      · have hupper := hbefore _ _ hlt hmid hgreater
        rw [hget] at hupper
        rw [if_pos (by omega)]
        exact ih hleft hgreater (by omega) (by omega)

theorem findBoundary_of_tiles {b : Bucket}
    (h : Tiles Boundary.lower Boundary.upper 0 b.boundary (usizeMax + 1)) {charCount : Nat}
    (hcount : charCount ≤ usizeMax) :
    ∃ range ∈ b.boundary, b.findBoundary charCount = some range.url := by
  obtain ⟨range, hmem, hrange⟩ := h.exists_range (Nat.zero_le _) (Nat.lt_succ_of_le hcount)
  obtain ⟨i, hi⟩ := List.mem_iff_getElem?.mp hmem
  have hlt := (List.getElem?_eq_some_iff.mp hi).1
  exact ⟨range, hmem, findBoundaryLoop_eq h.pairwise (fun a ha => (h.mem_bounds a ha).2.1) hrange hi
    (Nat.zero_le i) hlt (Nat.le_refl _) (by omega)⟩

theorem tiles_even {gap workerCnt : Nat} (hgap : 1 ≤ gap) (hfits : workerCnt * gap ≤ usizeMax)
    {urls : List String} (hne : urls ≠ []) {k : Nat} (hk : k + urls.length = workerCnt) :
    Tiles Boundary.lower Boundary.upper (k * gap) ((urls.zipIdx k).map fun entry =>
      ⟨entry.1, entry.2 * gap,
        if entry.2 = workerCnt - 1 then usizeMax else (entry.2 + 1) * gap - 1⟩)
      (usizeMax + 1) := by
  induction urls generalizing k with
  | nil => exact absurd rfl hne
  | cons url urls ih =>
      rw [List.zipIdx_cons, List.map_cons]
      rw [List.length_cons] at hk
      have hnext : (k + 1) * gap = k * gap + gap := Nat.succ_mul k gap
      have hkfits := Nat.mul_le_mul_right gap (show k + 1 ≤ workerCnt by omega)
      cases urls with
      | nil =>
          have hlast : k = workerCnt - 1 := by simp at hk; omega
          refine .cons rfl ?_ ?_
          · rw [if_pos hlast]
            show k * gap ≤ usizeMax
            omega
          · rw [if_pos hlast]
            exact .nil _
      | cons url' urls =>
          have hlast : ¬ k = workerCnt - 1 := by simp at hk; omega
          refine .cons rfl ?_ ?_
          · rw [if_neg hlast]
            show k * gap ≤ (k + 1) * gap - 1
            omega
          · have hstart : (k + 1) * gap - 1 + 1 = (k + 1) * gap := by omega
            rw [if_neg hlast, hstart]
            exact ih (List.cons_ne_nil _ _) (by omega)

private theorem reachShare_mem {share load passed passed' accumulator : Nat} {loads : List Nat}
    (h : reachShare share loads passed accumulator = (passed', some load)) : load ∈ loads := by
  induction loads generalizing passed accumulator with
  | nil => cases h
  | cons first loads ih =>
      rw [reachShare] at h
      split at h
      · cases h
        exact List.mem_cons_self
      · exact List.mem_cons_of_mem _ (ih h)

/-- Every range ends at the load that reached the share, or a share behind its start. -/
theorem tiles_adjustLoop {share total : Nat} {histLoad : List Nat}
    (hload : ∀ load ∈ histLoad, load ≤ total) {urls : List String} (hne : urls ≠ [])
    {upperBound lastLoadIndex : Nat}
    (hfits : max upperBound (total + 1) + urls.length * (share + 1) ≤ usizeMax) :
    Tiles Boundary.lower Boundary.upper upperBound
      (adjustLoop share histLoad urls upperBound lastLoadIndex) (usizeMax + 1) := by
  induction urls generalizing upperBound lastLoadIndex with
  | nil => exact absurd rfl hne
  | cons url urls ih =>
      rw [List.length_cons, Nat.succ_mul] at hfits
      cases urls with
      | nil =>
          rw [adjustLoop]
          exact .cons rfl (show upperBound ≤ usizeMax by omega) (.nil _)
      | cons url' urls =>
          have hnext (next index : Nat)
              (hle : max next (total + 1) ≤ max upperBound (total + 1) + (share + 1)) :
              Tiles Boundary.lower Boundary.upper next
                (adjustLoop share histLoad (url' :: urls) next index) (usizeMax + 1) :=
            ih (List.cons_ne_nil _ _) (by omega)
          rcases hreach : reachShare share (histLoad.drop lastLoadIndex) 0 0 with ⟨passed, _ | load⟩
          · simp only [adjustLoop, hreach]
            exact .cons rfl (Nat.le_add_right _ _)
              (hnext (upperBound + share + 1) _ (by omega))
          · have hle := hload load (List.mem_of_mem_drop (reachShare_mem hreach))
            simp only [adjustLoop, hreach]
            by_cases hsmall : load ≤ upperBound
            · rw [if_pos hsmall]
              exact .cons rfl (Nat.le_add_right _ _)
                (hnext (upperBound + share + 1) _ (by omega))
            · rw [if_neg hsmall]
              exact .cons rfl (show upperBound ≤ load by omega) (hnext (load + 1) _ (by omega))

theorem map_url_adjustLoop (share : Nat) (histLoad : List Nat) (urls : List String)
    (upperBound lastLoadIndex : Nat) :
    (adjustLoop share histLoad urls upperBound lastLoadIndex).map Boundary.url = urls := by
  induction urls generalizing upperBound lastLoadIndex with
  | nil => rfl
  | cons url urls ih =>
      cases urls with
      | nil => rfl
      | cons url' urls =>
          rcases hreach : reachShare share (histLoad.drop lastLoadIndex) 0 0 with ⟨passed, _ | load⟩
          · simp only [adjustLoop, hreach, List.map_cons, ih]
          · simp only [adjustLoop, hreach, List.map_cons, ih]

section Init

variable (b : Bucket) (urls : List String)

@[simp] theorem initPrefillWorkerUrls_urls :
    (b.initPrefillWorkerUrls urls).prefillWorkerUrls = urls := by
  unfold initPrefillWorkerUrls
  dsimp only
  split <;> rfl

@[simp] theorem initPrefillWorkerUrls_requestList :
    (b.initPrefillWorkerUrls urls).requestList = b.requestList := by
  unfold initPrefillWorkerUrls
  dsimp only
  split <;> rfl

@[simp] theorem initPrefillWorkerUrls_loadTotal :
    (b.initPrefillWorkerUrls urls).loadTotal = b.loadTotal := by
  unfold initPrefillWorkerUrls
  dsimp only
  split <;> rfl

@[simp] theorem initPrefillWorkerUrls_tReqLoads :
    (b.initPrefillWorkerUrls urls).tReqLoads = b.tReqLoads := by
  unfold initPrefillWorkerUrls
  dsimp only
  split <;> rfl

theorem initPrefillWorkerUrls_charsPerUrl : (b.initPrefillWorkerUrls urls).charsPerUrl =
    urls.foldl (fun m url => m.insert url 0) ∅ := by
  unfold initPrefillWorkerUrls
  dsimp only
  split <;> rfl

variable {urls}

theorem initPrefillWorkerUrls_lMax (hne : urls ≠ []) :
    (b.initPrefillWorkerUrls urls).lMax = usizeMax := by
  have hlen : ¬ urls.length = 0 := mt List.length_eq_zero_iff.mp hne
  simp only [initPrefillWorkerUrls, if_neg hlen]

theorem initPrefillWorkerUrls_boundary (hne : urls ≠ []) :
    (b.initPrefillWorkerUrls urls).boundary = urls.zipIdx.map fun entry =>
      ⟨entry.1, entry.2 * (b.lMax / urls.length),
        if entry.2 = urls.length - 1 then usizeMax
        else (entry.2 + 1) * (b.lMax / urls.length) - 1⟩ := by
  have hlen : ¬ urls.length = 0 := mt List.length_eq_zero_iff.mp hne
  simp only [initPrefillWorkerUrls, if_neg hlen]

end Init

structure Inv (b : Bucket) (posted : Nat) : Prop extends Tidy b where
  lMax : b.lMax = usizeMax ∨ b.lMax = 4096 ∧ b.prefillWorkerUrls = []
  count : b.prefillWorkerUrls.length ≤ usizeMax / 4
  total : posted ≤ usizeMax / 4
  loadTotal : b.loadTotal ≤ posted
  loads {id : String} {n : Nat} : b.tReqLoads.lookup id = some n → n ≤ posted

private theorem lookup_foldl_insert_zero (urls : List String) (m : AList fun _ : String => Nat)
    (url : String) : (urls.foldl (fun m url => m.insert url 0) m).lookup url =
      if url ∈ urls then some 0 else m.lookup url := by
  induction urls generalizing m with
  | nil => rfl
  | cons u urls ih =>
      rw [List.foldl_cons, ih]
      by_cases hmem : url ∈ urls
      · rw [if_pos hmem, if_pos (List.mem_cons_of_mem _ hmem)]
      · rw [if_neg hmem]
        by_cases heq : url = u
        · rw [heq, AList.lookup_insert, if_pos List.mem_cons_self]
        · rw [AList.lookup_insert_ne heq, if_neg (by simp [heq, hmem])]

theorem Inv.initPrefillWorkerUrls {b : Bucket} {posted : Nat} {urls : List String}
    (hlMax : b.lMax = usizeMax ∨ b.lMax = 4096) (htotal : posted ≤ usizeMax / 4)
    (hloadTotal : b.loadTotal ≤ posted)
    (hloads : ∀ {id : String} {n : Nat}, b.tReqLoads.lookup id = some n → n ≤ posted)
    (hnodup : urls.Nodup) (hcount : urls.length ≤ usizeMax / 4) (hfits : urls.length ≤ b.lMax)
    (hquiet : ∀ url ∈ urls, b.pending url = 0) : Inv (b.initPrefillWorkerUrls urls) posted := by
  have htiles : urls ≠ [] → Tiles Boundary.lower Boundary.upper 0
      (b.initPrefillWorkerUrls urls).boundary (usizeMax + 1) := by
    intro hne
    have hpos := List.length_pos_of_ne_nil hne
    have hgap : 1 ≤ b.lMax / urls.length := (Nat.one_le_div_iff hpos).mpr hfits
    have hmul : urls.length * (b.lMax / urls.length) ≤ usizeMax := by
      have hle := Nat.mul_div_le b.lMax urls.length
      have hmax : b.lMax ≤ usizeMax := by
        obtain h | h := hlMax
        · exact h.le
        · rw [h]
          decide
      omega
    have heven := tiles_even hgap hmul hne (Nat.zero_add _)
    rw [Nat.zero_mul] at heven
    rw [b.initPrefillWorkerUrls_boundary hne]
    exact heven
  have hurls : (b.initPrefillWorkerUrls urls).boundary.map Boundary.url = urls := by
    by_cases hne : urls = []
    · subst hne
      rfl
    · rw [b.initPrefillWorkerUrls_boundary hne, List.map_map]
      exact List.zipIdx_map_fst _ _
  refine {
    tiles := fun hne => htiles (by rwa [initPrefillWorkerUrls_urls] at hne)
    urls := by rw [hurls, initPrefillWorkerUrls_urls]
    nodup := by rwa [initPrefillWorkerUrls_urls]
    finds := fun hne charCount hcharCount => ?_
    chars := fun url => ?_
    lMax := ?_
    count := by rwa [initPrefillWorkerUrls_urls]
    total := htotal
    loadTotal := by rwa [initPrefillWorkerUrls_loadTotal]
    loads := fun {id n} h => hloads (by rwa [initPrefillWorkerUrls_tReqLoads] at h) }
  · rw [initPrefillWorkerUrls_urls] at hne ⊢
    obtain ⟨range, hmem, hfind⟩ := findBoundary_of_tiles (htiles hne) hcharCount
    exact ⟨range.url, hurls ▸ List.mem_map_of_mem hmem, hfind⟩
  · rw [initPrefillWorkerUrls_charsPerUrl, lookup_foldl_insert_zero, initPrefillWorkerUrls_urls]
    by_cases hmem : url ∈ urls
    · rw [if_pos hmem, if_pos hmem, pending, initPrefillWorkerUrls_requestList]
      exact congrArg some (hquiet url hmem).symm
    · rw [if_neg hmem, if_neg hmem]
      rfl
  · by_cases hne : urls = []
    · subst hne
      exact hlMax.imp id fun h => ⟨h, rfl⟩
    · exact Or.inl (b.initPrefillWorkerUrls_lMax hne)

/-- The loads of the requests that leave the window are taken off their URLs. -/
def dropLoad (m : AList fun _ : String => Nat) (r : SequencerRequest) :
    AList fun _ : String => Nat :=
  match m.lookup r.prefillWorkerUrl with
  | some count => m.insert r.prefillWorkerUrl (count - r.charCnt)
  | none => m

theorem lookup_foldl_dropLoad (url : String) (old : List SequencerRequest)
    (m : AList fun _ : String => Nat) : (old.foldl dropLoad m).lookup url =
      (m.lookup url).map (· - load old url) := by
  induction old generalizing m with
  | nil => simp [load]
  | cons r old ih =>
      rw [List.foldl_cons, ih, dropLoad]
      by_cases hr : r.prefillWorkerUrl = url
      · subst hr
        cases hlookup : m.lookup r.prefillWorkerUrl with
        | none => simp [hlookup]
        | some count => simp [load, Nat.sub_sub]
      · have hload : load (r :: old) url = load old url := by simp [load, hr]
        rw [hload]
        cases m.lookup r.prefillWorkerUrl with
        | none => rfl
        | some count => simp only [AList.lookup_insert_ne (Ne.symm hr)]

theorem load_append (l l' : List SequencerRequest) (url : String) :
    load (l ++ l') url = load l url + load l' url := by
  rw [load, List.filter_append, List.map_append, List.sum_append]
  rfl

variable {b : Bucket} {posted : Nat}

/-- Ranges that tile the lengths, one for every worker, give every length a worker. -/
theorem finds_of_tiles
    (htiles : b.prefillWorkerUrls ≠ [] →
      Tiles Boundary.lower Boundary.upper 0 b.boundary (usizeMax + 1))
    (hurls : b.boundary.map Boundary.url = b.prefillWorkerUrls) (hne : b.prefillWorkerUrls ≠ []) :
    ∀ charCount ≤ usizeMax, ∃ url ∈ b.prefillWorkerUrls, b.findBoundary charCount = some url := by
  intro charCount hcharCount
  obtain ⟨range, hmem, hfind⟩ := findBoundary_of_tiles (htiles hne) hcharCount
  exact ⟨range.url, hurls ▸ List.mem_map_of_mem hmem, hfind⟩

theorem Inv.lMax_cases (h : Inv b posted) : b.lMax = usizeMax ∨ b.lMax = 4096 :=
  h.lMax.imp id And.left

theorem inv_new (period : Nat) : Inv (new period) 0 where
  tiles hne := absurd rfl hne
  urls := rfl
  nodup := .nil
  finds hne := absurd rfl hne
  chars _ := rfl
  lMax := Or.inr ⟨rfl, rfl⟩
  count := Nat.zero_le _
  total := Nat.zero_le _
  loadTotal := Nat.le_refl _
  loads h := by cases h

theorem Inv.addPrefillUrl (h : Inv b posted) {url : String}
    (hlegal : b.Legal posted (.addPrefillUrl url)) (hmeets : b.Meets (.addPrefillUrl url)) :
    Inv (b.addPrefillUrl url) posted := by
  have hcount := h.count
  refine .initPrefillWorkerUrls h.lMax_cases h.total h.loadTotal h.loads ?_ ?_ hmeets.1 hmeets.2
  · by_cases hmem : url ∈ b.prefillWorkerUrls
    · rw [if_pos hmem]
      exact h.nodup
    · rw [if_neg hmem]
      exact h.nodup.append (List.nodup_singleton url) (List.disjoint_singleton.mpr hmem)
  · by_cases hmem : url ∈ b.prefillWorkerUrls
    · rw [if_pos hmem]
      exact hcount
    · rw [if_neg hmem, List.length_append]
      exact hlegal

theorem Inv.removePrefillUrl (h : Inv b posted) {url : String}
    (hmeets : b.Meets (.removePrefillUrl url)) : Inv (b.removePrefillUrl url) posted := by
  have hcount := h.count
  obtain hnone | ⟨hne, hquiet⟩ := hmeets
  · have hurls : b.prefillWorkerUrls.filter (· ≠ url) = [] := by rw [hnone]; rfl
    have hunchanged : b.removePrefillUrl url =
        { b with
          prefillWorkerUrls := []
          charsPerUrl := b.charsPerUrl.erase url
          bucketCnt := 0 } := by
      simp only [Bucket.removePrefillUrl, hurls]
      rfl
    rw [hunchanged]
    refine {
      tiles := fun hne => absurd rfl hne
      urls := h.urls.trans hnone
      nodup := .nil
      finds := fun hne => absurd rfl hne
      chars := fun u => ?_
      lMax := h.lMax.imp id fun hl => ⟨hl.1, rfl⟩
      count := Nat.zero_le _
      total := h.total
      loadTotal := h.loadTotal
      loads := h.loads }
    have hchars := h.chars u
    rw [hnone] at hchars
    by_cases hu : u = url
    · subst hu
      exact AList.lookup_erase u b.charsPerUrl
    · exact (AList.lookup_erase_ne hu).trans hchars
  · have hle := List.length_filter_le (· ≠ url) b.prefillWorkerUrls
    have hpos : 0 < (b.prefillWorkerUrls.filter (· ≠ url)).length := List.length_pos_of_ne_nil hne
    have hlMax : b.lMax = usizeMax := h.lMax.resolve_right fun hl =>
      hne (by rw [urlsAfter, hl.2]; rfl)
    have hfits : (b.prefillWorkerUrls.filter (· ≠ url)).length ≤ b.lMax := by omega
    have hinit : b.removePrefillUrl url = Bucket.initPrefillWorkerUrls
        { b with
          prefillWorkerUrls := b.prefillWorkerUrls.filter (· ≠ url)
          charsPerUrl := b.charsPerUrl.erase url
          bucketCnt := (b.prefillWorkerUrls.filter (· ≠ url)).length }
        (b.prefillWorkerUrls.filter (· ≠ url)) := by
      simp only [Bucket.removePrefillUrl, if_pos hpos]
    rw [hinit]
    exact .initPrefillWorkerUrls (Or.inl hlMax) h.total h.loadTotal h.loads (h.nodup.filter _)
      (by omega) hfits hquiet

private theorem lookup_foldl_erase_le {id : String} {n : Nat} (old : List SequencerRequest)
    {m : AList fun _ : String => Nat}
    (h : (old.foldl (fun m r => m.erase r.id) m).lookup id = some n) : m.lookup id = some n := by
  induction old generalizing m with
  | nil => exact h
  | cons r old ih =>
      have hrest := ih h
      by_cases hid : id = r.id
      · subst hid
        rw [AList.lookup_erase] at hrest
        cases hrest
      · rwa [AList.lookup_erase_ne hid] at hrest

/-- A request for a current worker adds its length to the load of the worker, and the requests
that leave the window take theirs off. -/
theorem Inv.postProcessRequest (h : Inv b posted) {charCnt : Nat} {url : String} (now : Nat)
    (id : String) (htotal : posted + charCnt ≤ usizeMax / 4) (hurl : url ∈ b.prefillWorkerUrls) :
    Inv (b.postProcessRequest charCnt url now id) (posted + charCnt) := by
  have hloadTotal := h.loadTotal
  refine {
    tiles := h.tiles
    urls := h.urls
    nodup := h.nodup
    finds := finds_of_tiles h.tiles h.urls
    chars := fun u => ?_
    lMax := h.lMax
    count := h.count
    total := htotal
    loadTotal := ?_
    loads := fun {i n} hi => ?_ }
  · have hsplit : b.pending u = load (b.requestList.takeWhile (expired b.period now)) u +
        load (b.requestList.dropWhile (expired b.period now)) u := by
      rw [← load_append, List.takeWhile_append_dropWhile]
      rfl
    have hpending : (b.postProcessRequest charCnt url now id).pending u =
        load (b.requestList.dropWhile (expired b.period now)) u +
          load [⟨id, charCnt, now, url⟩] u := load_append _ _ u
    have hlookup := lookup_foldl_dropLoad u
      (b.requestList.takeWhile (expired b.period now))
      (b.charsPerUrl.insert url ((b.charsPerUrl.lookup url).getD 0 + charCnt))
    refine hlookup.trans ?_
    show _ = if u ∈ b.prefillWorkerUrls then _ else none
    rw [hpending]
    by_cases hu : u = url
    · subst hu
      rw [AList.lookup_insert, h.chars, if_pos hurl, if_pos hurl]
      have hone : load [⟨id, charCnt, now, u⟩] u = charCnt := by simp [load]
      rw [hone]
      simp only [Option.getD_some, Option.map_some]
      congr 1
      omega
    · have hzero : load [⟨id, charCnt, now, url⟩] u = 0 := by simp [load, Ne.symm hu]
      rw [AList.lookup_insert_ne hu, h.chars, hzero]
      by_cases hmem : u ∈ b.prefillWorkerUrls
      · rw [if_pos hmem, if_pos hmem, Option.map_some]
        congr 1
        omega
      · rw [if_neg hmem, if_neg hmem]
        rfl
  · show min (b.loadTotal - _ + charCnt) usizeMax ≤ posted + charCnt
    omega
  · have hi : ((((b.requestList.takeWhile (expired b.period now)).foldl
        (fun m r => m.erase r.id) b.tReqLoads)).insert id charCnt).lookup i = some n := hi
    by_cases hid : i = id
    · subst hid
      rw [AList.lookup_insert] at hi
      cases hi
      exact Nat.le_add_left _ _
    · rw [AList.lookup_insert_ne hid] at hi
      exact (h.loads (lookup_foldl_erase_le _ hi)).trans (Nat.le_add_right _ _)

theorem Tidy.updateWorkersCnt (h : Tidy b) (o : Order) :
    b.updateWorkersCnt o = { b with bucketCnt := b.prefillWorkerUrls.length } := by
  have hmem (url : String) :
      url ∈ (o.iter b.charsPerUrl).map (·.1) ↔ url ∈ b.prefillWorkerUrls := by
    have hchars := h.chars url
    constructor
    · intro hurl
      obtain ⟨⟨u, x⟩, hiter, rfl⟩ := List.mem_map.mp hurl
      by_contra hnot
      rw [o.mem_iter.mp hiter, if_neg hnot] at hchars
      cases hchars
    · intro hurl
      rw [if_pos hurl] at hchars
      exact List.mem_map.mpr ⟨_, o.mem_iter.mpr hchars, rfl⟩
  have hnew : (b.prefillWorkerUrls.filter fun url =>
      !((o.iter b.charsPerUrl).map (·.1)).contains url) = [] := by
    refine List.filter_eq_nil_iff.mpr fun url hurl => ?_
    simp [(hmem url).mpr hurl]
  have hold : (((o.iter b.charsPerUrl).map (·.1)).filter fun url =>
      !b.prefillWorkerUrls.contains url) = [] := by
    refine List.filter_eq_nil_iff.mpr fun url hurl => ?_
    simp [(hmem url).mp hurl]
  simp only [Bucket.updateWorkersCnt, hnew, hold, List.foldl_nil]

theorem Inv.adjustLoop (h : Inv b posted) (hne : b.prefillWorkerUrls ≠ []) (o : Order)
    (bucketCnt bucketLoad : Nat) :
    Inv { b with
      bucketCnt
      bucketLoad
      boundary := adjustLoop (b.loadTotal / b.prefillWorkerUrls.length)
        ((o.iter b.tReqLoads).map (·.2)).mergeSort b.prefillWorkerUrls 0 0 } posted := by
  have hhist : ∀ load ∈ ((o.iter b.tReqLoads).map (·.2)).mergeSort, load ≤ posted := by
    intro load hload
    obtain ⟨⟨id, n⟩, hiter, rfl⟩ := List.mem_map.mp (List.mem_mergeSort.mp hload)
    exact h.loads (o.mem_iter.mp hiter)
  have hshare := Nat.mul_div_le b.loadTotal b.prefillWorkerUrls.length
  have hfits : max 0 (posted + 1) + b.prefillWorkerUrls.length *
      (b.loadTotal / b.prefillWorkerUrls.length + 1) ≤ usizeMax := by
    have hcount := h.count
    have htotal := h.total
    have hloadTotal := h.loadTotal
    rw [Nat.mul_succ]
    simp only [usizeMax] at *
    omega
  have htiles : Tiles Boundary.lower Boundary.upper 0
      (Bucket.adjustLoop (b.loadTotal / b.prefillWorkerUrls.length)
        ((o.iter b.tReqLoads).map (·.2)).mergeSort b.prefillWorkerUrls 0 0) (usizeMax + 1) :=
    tiles_adjustLoop hhist hne hfits
  have hurls := map_url_adjustLoop (b.loadTotal / b.prefillWorkerUrls.length)
    ((o.iter b.tReqLoads).map (·.2)).mergeSort b.prefillWorkerUrls 0 0
  exact { h with
    tiles := fun _ => htiles
    urls := hurls
    finds := finds_of_tiles (fun _ => htiles) hurls }

theorem Inv.adjustBoundary (h : Inv b posted) (o : Order) : Inv (b.adjustBoundary o) posted := by
  have hcnt : Inv { b with bucketCnt := b.prefillWorkerUrls.length } posted := { h with }
  rw [Bucket.adjustBoundary, h.toTidy.updateWorkersCnt o]
  split
  · exact h
  · dsimp only
    split
    · exact hcnt
    · rename_i hpos
      split
      · exact hcnt
      · exact h.adjustLoop (fun hnone => hpos (List.length_eq_zero_iff.mpr hnone)) o _ _

theorem Inv.call (h : Inv b posted) {call : BucketCall} (hlegal : b.Legal posted call)
    (hmeets : b.Meets call) : Inv (b.call call) (posted + call.posted) := by
  cases call with
  | initPrefillWorkerUrls urls =>
      exact .initPrefillWorkerUrls h.lMax_cases h.total h.loadTotal h.loads hlegal.1 hlegal.2
        hmeets.1 hmeets.2
  | addPrefillUrl url => exact h.addPrefillUrl hlegal hmeets
  | removePrefillUrl url => exact h.removePrefillUrl hmeets
  | postProcessRequest charCnt url now id => exact h.postProcessRequest now id hlegal hmeets
  | adjustBoundary o => exact h.adjustBoundary o

theorem Reached.inv (h : Reached b posted) : Inv b posted := by
  induction h with
  | new period => exact inv_new period
  | call _ _ hlegal hmeets ih => exact ih.call hlegal hmeets

theorem Inv.noUnderflow (h : Inv b posted) {call : BucketCall} (hlegal : b.Legal posted call)
    (hmeets : b.Meets call) : b.NoUnderflow call := by
  intro i hi
  have hcount := h.count
  have hcurrent (hne : b.prefillWorkerUrls ≠ []) : b.lMax = usizeMax :=
    h.lMax.resolve_right fun hl => hne hl.2
  have hkept (hlt : i + 1 < b.prefillWorkerUrls.length) :
      b.prefillWorkerUrls.length ≤ b.lMax := by
    have hlMax := hcurrent (List.ne_nil_of_length_pos (Nat.zero_lt_of_lt hlt))
    omega
  have hfits : (b.urlsAfter call).length ≤ b.lMax := by
    cases call with
    | initPrefillWorkerUrls urls => exact hmeets.1
    | addPrefillUrl url => exact hmeets.1
    | removePrefillUrl url =>
        have hle : (b.urlsAfter (.removePrefillUrl url)).length ≤ b.prefillWorkerUrls.length :=
          List.length_filter_le _ _
        exact hle.trans (hkept (by omega))
    | postProcessRequest charCnt url now id => exact hkept hi
    | adjustBoundary o => exact hkept hi
  have hgap : 1 ≤ b.lMax / (b.urlsAfter call).length :=
    (Nat.one_le_div_iff (Nat.zero_lt_of_lt hi)).mpr hfits
  exact Nat.mul_pos (Nat.succ_pos i) hgap

/-- In every run of legal calls that meet the condition every bucket is tidy, and no further such
call computes a negative upper bound. -/
theorem tidy_of_reached (h : Reached b posted) :
    Tidy b ∧ ∀ call, b.Legal posted call → b.Meets call → b.NoUnderflow call :=
  ⟨h.inv.toTidy, fun _ hlegal hmeets => h.inv.noUnderflow hlegal hmeets⟩

/-- Two workers and a request. -/
theorem tidy_twoWorkers :
    Tidy (((new 10).call (.initPrefillWorkerUrls ["http://w1", "http://w2"])).call
        (.postProcessRequest 5 "http://w1" 0 "a")) ∧
      ∀ call, Legal (((new 10).call (.initPrefillWorkerUrls ["http://w1", "http://w2"])).call
          (.postProcessRequest 5 "http://w1" 0 "a")) 5 call →
        Meets (((new 10).call (.initPrefillWorkerUrls ["http://w1", "http://w2"])).call
          (.postProcessRequest 5 "http://w1" 0 "a")) call →
        NoUnderflow (((new 10).call (.initPrefillWorkerUrls ["http://w1", "http://w2"])).call
          (.postProcessRequest 5 "http://w1" 0 "a")) call :=
  tidy_of_reached (.call (.call (.new 10) (.initPrefillWorkerUrls ["http://w1", "http://w2"])
    ⟨by decide, by decide⟩ ⟨by decide, fun _ _ => rfl⟩) (.postProcessRequest 5 "http://w1" 0 "a")
    (by decide : 0 + 0 + 5 ≤ usizeMax / 4) List.mem_cons_self)

/-- The last worker is removed, and its range stays. -/
theorem not_tidy_removedLast :
    Legal (new 10) 0 (.initPrefillWorkerUrls ["http://w1"]) ∧
      Legal ((new 10).call (.initPrefillWorkerUrls ["http://w1"])) 0
        (.removePrefillUrl "http://w1") ∧
      ¬ Tidy (((new 10).call (.initPrefillWorkerUrls ["http://w1"])).call
        (.removePrefillUrl "http://w1")) ∧
      (((new 10).call (.initPrefillWorkerUrls ["http://w1"])).call
        (.removePrefillUrl "http://w1")).findBoundary 5 = some "http://w1" := by
  refine ⟨⟨by decide, by decide⟩, trivial, fun h => ?_, by decide⟩
  have hurls := h.urls
  have hstale : (((new 10).call (.initPrefillWorkerUrls ["http://w1"])).call
      (.removePrefillUrl "http://w1")).boundary.map Boundary.url = ["http://w1"] := by decide
  rw [hstale] at hurls
  have hnone : (((new 10).call (.initPrefillWorkerUrls ["http://w1"])).call
      (.removePrefillUrl "http://w1")).prefillWorkerUrls = [] := by decide
  rw [hnone] at hurls
  cases hurls

end Bucket

end SpecDecode.Gateway.Policies
