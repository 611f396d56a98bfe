import SpecDecode.Ngram.BatchMatch
import SpecDecode.Ngram.Combine
import Mathlib.Order.Filter.AtTopBot.Basic
import Mathlib.Order.Filter.Finite

/-!
# What a batch is answered with

Every request gets a result of the same size, the one that it would get if it were alone. The
parts of the budget add up to no more than the whole, so the combined tree has room for the paths
of the trie and of all corpora.
-/

namespace SpecDecode.Ngram

open Function OptionMap

structure StateLive (t : Trie) (state : MatchState) : Prop where
  epoch : state.trieEpoch ≤ t.trieEpoch
  anchors : state.trieEpoch = t.trieEpoch → ∀ ref ∈ state.anchors, ∃ path, Trie.RefOk t path ref

namespace StateLive

open Trie

variable {c : TrieConfig} {t t' : Trie} {state : MatchState}

theorem new (t : Trie) : StateLive t .new :=
  ⟨Nat.zero_le _, fun _ _ href => absurd href List.not_mem_nil⟩

theorem later (hlater : Later t t') (hs : StateLive t state) : StateLive t' state := by
  have hle := hs.epoch
  rcases hlater with hlt | hevolves
  · exact ⟨Nat.le_trans hle (Nat.le_of_lt hlt), fun heq => by omega⟩
  · refine ⟨hevolves.epoch ▸ hle, fun heq ref href => ?_⟩
    obtain ⟨path, hok⟩ := hs.anchors (heq.trans hevolves.epoch) ref href
    exact ⟨path, hok.evolves hevolves⟩

theorem captureChild (h : Inv c t) {node : Nat} {path : List Int} (hspells : t.Spells node path)
    (token : Int) : ∃ path, RefOk t path (t.captureChild node token) := by
  unfold Trie.captureChild
  cases hfind : t.findChild node token with
  | none => exact ⟨[], .of_null t []⟩
  | some child =>
      have hchild := (h.node node (hspells.live h)).findChild_eq_some.mp hfind
      exact ⟨_, .of_capture (.child hspells hchild)⟩

theorem resolve (hs : StateLive t state) {ref : NodeRef} (href : ref ∈ state.anchors) {node : Nat}
    (hresolve : t.resolve state ref = some node) : ∃ path, t.Spells node path := by
  obtain ⟨hptr, hepoch, hversion⟩ := resolve_eq_some.mp hresolve
  obtain ⟨path, hok⟩ := hs.anchors hepoch ref href
  exact ⟨path, hok.spells node hptr hversion.symm⟩

theorem advanceAnchors (h : Inv c t) (hs : StateLive t state) {token : Int}
    {anchors : List NodeRef} (hadvance : t.advanceAnchors c state token = some anchors) :
    StateLive t { state with anchors } := by
  refine ⟨hs.epoch, fun _ ref href => ?_⟩
  obtain ⟨deeper, hdeeper, rfl⟩ := Option.map_eq_some_iff.mp hadvance
  rcases List.mem_cons.mp (List.mem_of_mem_take href) with rfl | href
  · exact captureChild h .root token
  · obtain ⟨ref', href', hnext⟩ := (forall₂_mem (forall₂_of_mapM hdeeper)).2 ref href
    unfold advanceRef at hnext
    split at hnext
    · cases hnext
      exact ⟨[], .of_null t []⟩
    · obtain ⟨node, hnode, rfl⟩ := Option.map_eq_some_iff.mp hnext
      obtain ⟨path, hspells⟩ := hs.resolve (List.mem_of_mem_take href') hnode
      exact captureChild h hspells token

theorem advanceLoop (h : Inv c t) {tokens : List Int} {state' : MatchState}
    (hs : StateLive t state) (hloop : t.advanceLoop c tokens state = some state') :
    StateLive t state' := by
  induction tokens generalizing state with
  | nil =>
      cases hloop
      exact hs
  | cons token tokens ih =>
      obtain ⟨anchors, hadvance, hloop⟩ := Option.bind_eq_some_iff.mp hloop
      exact ih (hs.advanceAnchors h hadvance) hloop

private theorem rebuild (h : Inv c t) (context : List Int) (totalLen : Nat) :
    StateLive t (t.rebuildMatchState c context totalLen) := by
  refine ⟨Nat.le_refl _, fun _ ref href => ?_⟩
  obtain ⟨i, _, rfl⟩ := List.mem_map.mp href
  exact ⟨_, .of_captureSuffix h _⟩

/-- A match leaves such a state, for any tail and any length. -/
theorem matchContext (h : Inv c t) (hs : StateLive t state) (context : List Int) (totalLen : Nat) :
    StateLive t (t.matchContext c context state totalLen).2 := by
  simp only [Trie.matchContext]
  generalize hadvanced : (if t.canAdvance c state context.length totalLen then _ else none) = next
  cases next with
  | none => exact rebuild h context totalLen
  | some state' =>
      split at hadvanced
      · unfold advanceMatchState at hadvanced
        split at hadvanced
        · obtain ⟨state'', hloop, rfl⟩ := Option.map_eq_some_iff.mp hadvanced
          have hs' := hs.advanceLoop h hloop
          exact ⟨hs'.epoch, hs'.anchors⟩
        · cases hadvanced
      · cases hadvanced

theorem anchors_live (h : Inv c t) (hs : StateLive t state) (context : List Int) (totalLen : Nat) :
    ∀ a ∈ (t.matchContext c context state totalLen).1, t.Live a.1 := by
  rintro ⟨node, d⟩ ha
  have hs' := hs.matchContext h context totalLen
  have ha : (node, d) ∈ t.getExpandableAnchors (t.matchContext c context state totalLen).2 := ha
  obtain ⟨i, _, hentry⟩ := List.mem_filterMap.mp ha
  unfold expandable at hentry
  split at hentry
  · cases hentry
  · next ref href =>
      split at hentry
      · cases hentry
      · next node' hnode =>
          split at hentry
          · obtain ⟨rfl, _⟩ := Prod.mk.inj (Option.some.inj hentry)
            obtain ⟨path, hspells⟩ := hs'.resolve (List.mem_of_getElem? href) hnode
            exact hspells.live h
          · cases hentry

end StateLive

section Trees

variable {β : Type} (scores : Scores β) (p : Param) (matchType : MatchType) (budget : Nat)

theorem Trie.build_fits {c : TrieConfig} {t : Trie} (h : Trie.Inv c t)
    {anchors : List (Nat × Nat)} (hanchors : ∀ a ∈ anchors, t.Live a.1) :
    ∀ᶠ fuel in Filter.atTop, ∃ tree,
      t.build scores p matchType fuel budget anchors = some tree ∧ tree.Fits (budget + 1) := by
  have hreads : ∀ (_ : List Int) node child, t.Live node → child ∈ t.childNodes node →
      t.Live child := fun _ node child hlive hchild => (h.lruRank_lt node hlive child hchild).1
  obtain ⟨bound, hbuild⟩ := Trie.build_drafts h (fun _ _ hlive => hlive) hreads hanchors
    (fun _ _ _ => trivial) budget
  refine Filter.eventually_atTop.mpr ⟨bound, fun fuel hfuel => ?_⟩
  obtain ⟨hrecency, hfrequency⟩ := hbuild fuel hfuel β
  cases matchType with
  | recency =>
      obtain ⟨tree, htree, hdrafts⟩ := hrecency scores.start scores.breadth scores.narrow
      exact ⟨tree, htree, hdrafts.wf, hdrafts.budget⟩
  | frequency =>
      obtain ⟨tree, htree, hdrafts⟩ :=
        hfrequency p.maxBfsBreadth (scores.trieShare t) scores.queue scores.one
      exact ⟨tree, htree, hdrafts.wf, hdrafts.budget⟩

theorem SuffixAutomaton.build_fits {sam : SuffixAutomaton} {text : List Int}
    {longest : Nat → List Int} (h : sam.Indexed text longest) (context : List Int) :
    ∀ᶠ fuel in Filter.atTop, ∃ tree,
      sam.build scores p matchType fuel budget context = some tree ∧ tree.Fits (budget + 1) := by
  obtain ⟨anchors, hmatch, hbuild⟩ := SuffixAutomaton.build_drafts h context p.maxTrieDepth
  obtain ⟨bound, hbuild⟩ := hbuild budget
  refine Filter.eventually_atTop.mpr ⟨bound, fun fuel hfuel => ?_⟩
  obtain ⟨hrecency, hfrequency⟩ := hbuild fuel hfuel β
  rw [SuffixAutomaton.build, hmatch, Option.bind_some]
  cases matchType with
  | recency =>
      obtain ⟨tree, htree, hdrafts⟩ := hrecency scores.start scores.breadth scores.narrow
      exact ⟨tree, htree, hdrafts.wf, hdrafts.budget⟩
  | frequency =>
      obtain ⟨tree, htree, hdrafts⟩ :=
        hfrequency p.maxBfsBreadth (scores.samShare sam) scores.queue scores.one
      exact ⟨tree, htree, hdrafts.wf, hdrafts.budget⟩

end Trees

theorem DraftTree.Fits.ncard_kept {t : DraftTree} {budget : Nat} (h : t.Fits (budget + 1)) :
    t.kept.ncard ≤ budget := by
  obtain ⟨hfinite, hcount⟩ := h.1.ncard_paths
  have hle := Set.ncard_le_ncard t.kept_subset hfinite
  have hcursor := h.2
  omega

namespace NgramObj

section Combine

variable {β : Type} {scores : Scores β} {iter : List (Int × Nat) → List (Int × Nat)}
variable {p : Param} {matchType : MatchType} {fuel total perSamBudget n : Nat}
variable {context : List Int} {lastToken : Int}

def SamTrees (scores : Scores β) (p : Param) (matchType : MatchType) (fuel perSamBudget : Nat)
    (context : List Int) (sams : List (String × SuffixAutomaton)) (trees : List DraftTree) : Prop :=
  List.Forall₂ (fun entry tree =>
    entry.2.build scores p matchType fuel perSamBudget context = some tree) sams trees

/-- Every corpus adds its paths, and there is room for all of them. -/
theorem combineSams_spec (hiter : ∀ l, (iter l).Perm l) {sams : List (String × SuffixAutomaton)}
    (hsams : ∀ entry ∈ sams, ∃ tree,
      entry.2.build scores p matchType fuel perSamBudget context = some tree ∧
        tree.Fits (perSamBudget + 1)) {t : DraftTree} {r : Result}
    (h : Encodes iter lastToken n t r) (hroom : t.kept.ncard + perSamBudget * sams.length ≤ total) :
    ∃ trees tree r', SamTrees scores p matchType fuel perSamBudget context sams trees ∧
      combineSams scores iter p matchType fuel total perSamBudget context lastToken sams r =
        some r' ∧
      (n = total + 1 ∨ sams ≠ [] → Encodes iter lastToken (total + 1) tree r') ∧
      (t.kept = t.paths ∨ sams ≠ [] → tree.paths = tree.kept) ∧
      ∀ q, q ∈ tree.kept ↔ ∃ part ∈ t :: trees, q ∈ part.kept := by
  induction sams generalizing n t r with
  | nil =>
      refine ⟨[], t, r, .nil, rfl, ?_, ?_, fun q => by simp⟩
      · rintro (rfl | hne)
        · exact h
        · exact absurd rfl hne
      · rintro (hkept | hne)
        · exact hkept.symm
        · exact absurd rfl hne
  | cons entry sams ih =>
      obtain ⟨samTree, hbuild, hfits⟩ := hsams entry List.mem_cons_self
      obtain ⟨samRes, hsamRes, _⟩ := encodes_of_fits hiter hfits lastToken
      have hcard := hfits.ncard_kept
      rw [List.length_cons, Nat.mul_succ] at hroom
      obtain ⟨t₁, r₁, hcombine, h₁, hpaths₁⟩ :=
        combineRootResults_spec hiter (n := total + 1) h hsamRes (by omega)
      have hkept₁ := kept_of_paths h₁.fits.1 hpaths₁
      have hroom₁ : t₁.kept.ncard + perSamBudget * sams.length ≤ total := by
        have hunion := Set.ncard_union_le t.kept samTree.kept
        rw [hkept₁, hpaths₁]
        omega
      obtain ⟨trees, tree, r', htrees, hloop, hencodes, hpaths, hkept⟩ := ih
        (fun entry' hmem => hsams entry' (List.mem_cons_of_mem _ hmem)) h₁ hroom₁
      refine ⟨samTree :: trees, tree, r', .cons hbuild htrees, ?_, fun _ => hencodes (.inl rfl),
        fun _ => hpaths (.inl hkept₁), fun q => ?_⟩
      · have hfill : fill iter lastToken perSamBudget samTree = some samRes := hsamRes.fill
        simp only [combineSams, hbuild, hfill, hcombine, Option.bind_some, hloop]
      · rw [hkept, List.exists_mem_cons_iff, List.exists_mem_cons_iff, List.exists_mem_cons_iff,
          hkept₁, hpaths₁, Set.mem_union, or_assoc]

end Combine

section Answers

variable {β : Type} (scores : Scores β) (iter : List (Int × Nat) → List (Int × Nat))
variable (c : TrieConfig) (p : Param) (matchType : MatchType) (fuel total : Nat) (o : NgramObj)

/-- The anchors of a request: its id, its tail and its length. -/
def anchorsOf (request : Int × List Int × Nat) : List (Nat × Nat) :=
  (o.trie.matchContext c request.2.1 (o.matchState request.1) request.2.2).1

/-- The result for a request that is the first to be served. -/
def answerTo (request : Int × List Int × Nat) : Option Result :=
  request.2.1.getLast?.bind
    (answer scores iter p matchType fuel total o (o.anchorsOf c request) request.2.1)

def usedSams : List (String × SuffixAutomaton) :=
  if o.perSamBudget p total = 0 then [] else o.sams

/-- The tree behind a result. Its paths are paths of the parts, and none is missing but, at most,
a single token `0`, which looks like padding. -/
def Combines (context : List Int) (lastToken : Int) (anchors : List (Nat × Nat)) (r : Result) :
    Prop :=
  ∃ trieTree samTrees tree,
    o.trie.build scores p matchType fuel (o.trieBudget p total) anchors = some trieTree ∧
    SamTrees scores p matchType fuel (o.perSamBudget p total) context (o.usedSams p total)
      samTrees ∧
    fill iter lastToken total tree = some r ∧ (samTrees = [] → tree = trieTree) ∧
    (∀ path ∈ tree.paths, ∃ part ∈ trieTree :: samTrees, path ∈ part.paths) ∧
    ∀ part ∈ trieTree :: samTrees, part.kept ⊆ tree.paths

/-- What a request is answered with. -/
structure Answers (request : Int × List Int × Nat) (r : Result) : Prop where
  token : r.token.length = total + 1
  mask : r.cells.length = (total + 1) * (total + 1)
  tree : ∃ lastToken, request.2.1.getLast? = some lastToken ∧
    o.Combines scores iter p matchType fuel total request.2.1 lastToken (o.anchorsOf c request) r
  alone : p.getDraftTokenNum 1 = total → ∃ o',
    o.batchMatch scores iter c p fuel [request.1] [request.2.1] [request.2.2] =
      some (.ok (Merged.new.append r), o')

end Answers

structure Inv (c : TrieConfig) (o : NgramObj) : Prop where
  trie : Trie.Inv c o.trie
  states : ∀ id, StateLive o.trie (o.matchState id)
  sams : ∀ entry ∈ o.sams, ∃ text longest, entry.2.Indexed text longest

section Run

variable {β : Type} {scores : Scores β} {iter : List (Int × Nat) → List (Int × Nat)}
variable {c : TrieConfig} {p : Param} {matchType : MatchType} {fuel total : Nat} {o o' : NgramObj}

theorem Inv.setState (h : Inv c o) (id : Int) {state : MatchState} (hs : StateLive o.trie state) :
    Inv c { o with matchState := update o.matchState id state } where
  trie := h.trie
  states id' := by
    by_cases hid : id' = id
    · subst hid
      simpa using hs
    · simpa [hid] using h.states id'
  sams := h.sams

theorem Inv.serveAll {requests : List (Int × List Int × Nat)} {merged : Merged}
    {answer : Except NgramError Merged} (h : Inv c o)
    (hserve : serveAll scores iter c p matchType fuel total requests merged o =
      some (answer, o')) : Inv c o' := by
  induction requests generalizing o merged with
  | nil =>
      obtain ⟨_, rfl⟩ := Prod.mk.inj (Option.some.inj hserve)
      exact h
  | cons request requests ih =>
      obtain ⟨id, context, totalLen⟩ := request
      simp only [NgramObj.serveAll] at hserve
      split at hserve
      · obtain ⟨_, rfl⟩ := Prod.mk.inj (Option.some.inj hserve)
        exact h
      · obtain ⟨⟨res, o₁⟩, hserve₁, hserve⟩ := Option.bind_eq_some_iff.mp hserve
        obtain ⟨_, _, heq⟩ := Option.map_eq_some_iff.mp hserve₁
        obtain ⟨_, rfl⟩ := Prod.mk.inj heq
        exact ih (h.setState id ((h.states id).matchContext h.trie context totalLen)) hserve

theorem Reachable.inv (hc : 0 < c.capacity) (ho : Reachable c p o) : Inv c o := by
  induction ho with
  | new => exact ⟨Trie.refill_inv hc _, fun _ => .new _, fun _ hmem => absurd hmem List.not_mem_nil⟩
  | insert _ tokens hstep ih =>
      obtain ⟨htrie, hlater⟩ := Trie.step_state hc ih.trie hstep
      exact ⟨htrie, fun id => (ih.states id).later hlater, ih.sams⟩
  | @reset o _ ih =>
      have hreset : (o.trie.step c .reset).state = some (o.trie.reset c) := rfl
      obtain ⟨htrie, _⟩ := Trie.step_state hc ih.trie hreset
      exact ⟨htrie, fun _ => .new _, ih.sams⟩
  | finishExternalCorpusLoad _ corpusId chunks sams hload _ _ hsams ih =>
      refine ⟨ih.trie, ih.states, fun entry hmem => ?_⟩
      rcases List.mem_cons.mp (hsams.mem_iff.mp hmem) with rfl | hmem
      · obtain ⟨sam, longest, hload', hindexed⟩ := SuffixAutomaton.load_spec chunks
        obtain rfl := Option.some.inj (hload.symm.trans hload')
        exact ⟨_, longest, hindexed⟩
      · exact ih.sams entry hmem
  | removeExternalCorpus _ corpusId ih =>
      exact ⟨ih.trie, ih.states, fun entry hmem => ih.sams entry (List.mem_filter.mp hmem).1⟩
  | clearExternalCorpus _ ih =>
      exact ⟨ih.trie, ih.states, fun _ hmem => absurd hmem List.not_mem_nil⟩
  | batchMatch _ scores iter fuel stateIds tokens totalLens hmatch ih =>
      unfold NgramObj.batchMatch at hmatch
      split at hmatch
      · obtain ⟨_, rfl⟩ := Prod.mk.inj (Option.some.inj hmatch)
        exact ih
      · split at hmatch
        · obtain ⟨_, rfl⟩ := Prod.mk.inj (Option.some.inj hmatch)
          exact ih
        · exact ih.serveAll hmatch
  | eraseMatchState _ id ih => exact ih.setState id (.new _)

theorem perSamBudget_mul_le (o : NgramObj) (p : Param) (total : Nat) :
    o.perSamBudget p total * o.sams.length ≤ total := by
  unfold perSamBudget totalSamBudget
  split
  · exact Nat.le_trans (Nat.div_mul_le_self _ _) (Nat.min_le_right _ _)
  · simp

theorem perSamBudget_eq_zero (h : o.totalSamBudget p total = 0 ∨ o.perSamBudget p total = 0) :
    o.perSamBudget p total = 0 := by
  rcases h with h | h
  · rw [perSamBudget, h, Nat.zero_div, ite_self]
  · exact h

private theorem sams_ne_nil (h : o.perSamBudget p total ≠ 0) : o.sams ≠ [] := by
  rintro hnil
  exact h (by simp [perSamBudget, hnil])

theorem answer_spec (h : Inv c o) (hiter : ∀ l, (iter l).Perm l) {anchors : List (Nat × Nat)}
    (hanchors : ∀ a ∈ anchors, o.trie.Live a.1) (context : List Int) (lastToken : Int) :
    ∀ᶠ fuel in Filter.atTop, ∃ r,
      answer scores iter p matchType fuel total o anchors context lastToken = some r ∧
        r.token.length = total + 1 ∧
        o.Combines scores iter p matchType fuel total context lastToken anchors r := by
  have htrie := Trie.build_fits scores p matchType (o.trieBudget p total) h.trie hanchors
  have hsams : ∀ᶠ fuel in Filter.atTop, ∀ entry ∈ o.sams, ∃ tree,
      entry.2.build scores p matchType fuel (o.perSamBudget p total) context = some tree ∧
        tree.Fits (o.perSamBudget p total + 1) := by
    refine (Filter.eventually_all_finite o.sams.finite_toSet).mpr fun entry hmem => ?_
    obtain ⟨text, longest, hindexed⟩ := h.sams entry hmem
    exact SuffixAutomaton.build_fits scores p matchType _ hindexed context
  filter_upwards [htrie, hsams] with fuel ⟨trieTree, htree, hfits⟩ hsams
  obtain ⟨res, hres, hlength⟩ := encodes_of_fits hiter hfits lastToken
  have hfill : fill iter lastToken (o.trieBudget p total) trieTree = some res := hres.fill
  by_cases hnone : o.totalSamBudget p total = 0 ∨ o.perSamBudget p total = 0
  · have hper := perSamBudget_eq_zero hnone
    have hbudget : o.trieBudget p total = total := by simp [trieBudget, hper]
    rw [hbudget] at htree hfill hlength
    refine ⟨res, ?_, hlength, trieTree, [], trieTree, ?_, ?_, hfill, fun _ => rfl, ?_, ?_⟩
    · rw [answer, if_pos hnone, htree, Option.bind_some, hfill]
    · rw [hbudget, htree]
    · rw [usedSams, if_pos hper]
      exact .nil
    · exact fun path hpath => ⟨trieTree, List.mem_cons_self, hpath⟩
    · intro part hpart
      rw [List.mem_singleton.mp hpart]
      exact trieTree.kept_subset
  · have hper : o.perSamBudget p total ≠ 0 := fun hzero => hnone (.inr hzero)
    have hroom : trieTree.kept.ncard + o.perSamBudget p total * o.sams.length ≤ total := by
      have hcard := hfits.ncard_kept
      have hle := perSamBudget_mul_le o p total
      unfold trieBudget at hcard
      omega
    obtain ⟨samTrees, tree, r, htrees, hcombine, hencodes, hpaths, hkept⟩ :=
      combineSams_spec hiter hsams hres hroom
    have hencodes := hencodes (.inr (sams_ne_nil hper))
    have hpaths := hpaths (.inr (sams_ne_nil hper))
    obtain ⟨r', hr', hlength'⟩ := encodes_of_fits hiter hencodes.fits lastToken
    obtain rfl := Option.some.inj (hencodes.fill.symm.trans hr'.fill)
    refine ⟨r, ?_, hlength', trieTree, samTrees, tree, htree, ?_, hencodes.fill, ?_, ?_, ?_⟩
    · rw [answer, if_neg hnone, htree, Option.bind_some, hfill, Option.bind_some, hcombine]
    · rwa [usedSams, if_neg hper]
    · rintro rfl
      have hlen := htrees.length_eq
      exact absurd (List.length_eq_zero_iff.mp hlen) (sams_ne_nil hper)
    · intro path hpath
      rw [hpaths, hkept] at hpath
      obtain ⟨part, hpart, hmem⟩ := hpath
      exact ⟨part, hpart, part.kept_subset hmem⟩
    · intro part hpart path hpath
      rw [hpaths, hkept]
      exact ⟨part, hpart, hpath⟩

/-- The answers do not depend on the cached matches of the other requests. -/
private theorem answerTo_congr {request : Int × List Int × Nat} (htrie : o'.trie = o.trie)
    (hsams : o'.sams = o.sams) (hstate : o'.matchState request.1 = o.matchState request.1) :
    o'.answerTo scores iter c p matchType fuel total request =
      o.answerTo scores iter c p matchType fuel total request := by
  obtain ⟨trie, sams, matchState⟩ := o
  obtain ⟨trie', sams', matchState'⟩ := o'
  obtain rfl : trie' = trie := htrie
  obtain rfl : sams' = sams := hsams
  have hstate : matchState' request.1 = matchState request.1 := hstate
  simp only [answerTo, anchorsOf, hstate]
  rfl

/-- Requests of different ids are answered as if each were the first. -/
theorem serveAll_eq {requests : List (Int × List Int × Nat)} {results : List Result}
    (hanswers : List.Forall₂ (fun request r =>
      o.answerTo scores iter c p matchType fuel total request = some r) requests results)
    (hids : (requests.map Prod.fst).Nodup) (htrie : o'.trie = o.trie) (hsams : o'.sams = o.sams)
    (hstates : ∀ request ∈ requests, o'.matchState request.1 = o.matchState request.1)
    (merged : Merged) :
    ∃ o'', serveAll scores iter c p matchType fuel total requests merged o' =
      some (.ok (results.foldl Merged.append merged), o'') := by
  induction hanswers generalizing o' merged with
  | nil => exact ⟨o', rfl⟩
  | @cons request r requests results hanswer _ ih =>
      obtain ⟨id, context, totalLen⟩ := request
      obtain ⟨hnew, hids⟩ := List.nodup_cons.mp hids
      rw [← answerTo_congr htrie hsams (hstates _ List.mem_cons_self)] at hanswer
      obtain ⟨lastToken, hlast, hanswer⟩ := Option.bind_eq_some_iff.mp hanswer
      have hlast : context.getLast? = some lastToken := hlast
      let state := (o'.trie.matchContext c context (o'.matchState id) totalLen).2
      let o₁ : NgramObj := { o' with matchState := update o'.matchState id state }
      have hserve₁ : serve scores iter c p matchType fuel total o' id context lastToken totalLen =
          some (r, o₁) := Option.map_eq_some_iff.mpr ⟨r, hanswer, rfl⟩
      have hstates₁ : ∀ request ∈ requests,
          o₁.matchState request.1 = o.matchState request.1 := by
        intro request hmem
        have hid : request.1 ≠ id := by
          rintro rfl
          have hmem : request.1 ∈ requests.map Prod.fst := List.mem_map_of_mem hmem
          exact hnew hmem
        rw [← hstates request (List.mem_cons_of_mem _ hmem)]
        exact update_of_ne hid _ _
      have htrie₁ : o₁.trie = o.trie := htrie
      obtain ⟨o'', hserve⟩ := ih hids htrie₁ hsams hstates₁ (merged.append r)
      refine ⟨o'', ?_⟩
      simp only [serveAll, hlast, hserve₁, Option.bind_some]
      exact hserve

@[simp] theorem cells_length (r : Result) : r.cells.length = r.token.length * r.token.length := by
  rw [Result.cells, List.length_map, List.length_range]

theorem answers_spec (h : Inv c o) (hiter : ∀ l, (iter l).Perm l)
    (htype : p.parseMatchType = some matchType) {request : Int × List Int × Nat}
    (htail : request.2.1 ≠ []) :
    ∀ᶠ fuel in Filter.atTop, ∃ r,
      o.answerTo scores iter c p matchType fuel total request = some r ∧
        Answers scores iter c p matchType fuel total o request r := by
  obtain ⟨lastToken, hlast⟩ : ∃ lastToken, request.2.1.getLast? = some lastToken :=
    Option.ne_none_iff_exists'.mp fun hnone => htail (List.getLast?_eq_none_iff.mp hnone)
  have hanchors := (h.states request.1).anchors_live h.trie request.2.1 request.2.2
  have hevent : ∀ᶠ fuel in Filter.atTop, ∃ r,
      answer scores iter p matchType fuel total o (o.anchorsOf c request) request.2.1 lastToken =
        some r ∧ r.token.length = total + 1 ∧
        o.Combines scores iter p matchType fuel total request.2.1 lastToken
          (o.anchorsOf c request) r := answer_spec h hiter hanchors request.2.1 lastToken
  filter_upwards [hevent] with fuel ⟨r, hanswer, hlength, hcombines⟩
  have hto : o.answerTo scores iter c p matchType fuel total request = some r := by
    rw [answerTo, hlast, Option.bind_some]
    exact hanswer
  refine ⟨r, hto, hlength, by rw [cells_length, hlength], ⟨lastToken, hlast, hcombines⟩, ?_⟩
  intro hsame
  obtain ⟨o', hserve⟩ := serveAll_eq (.cons hto .nil) (List.nodup_singleton _) rfl rfl
    (fun _ _ => rfl) Merged.new
  refine ⟨o', ?_⟩
  rw [NgramObj.batchMatch, if_neg (by simp), htype]
  simpa [hsame] using hserve

theorem exists_forall₂ {α γ : Type} {R : α → γ → Prop} {l : List α} (h : ∀ a ∈ l, ∃ b, R a b) :
    ∃ l', List.Forall₂ R l l' := by
  induction l with
  | nil => exact ⟨[], .nil⟩
  | cons a l ih =>
      obtain ⟨b, hb⟩ := h a List.mem_cons_self
      obtain ⟨l', hl'⟩ := ih fun a ha => h a (List.mem_cons_of_mem _ ha)
      exact ⟨b :: l', .cons hb hl'⟩

/-- Without a number for this size of batch the configured one is divided. -/
theorem getDraftTokenNum_of_none (hp : p.check = none) {batchSize : Nat}
    (hnone : p.batchDraftTokenNum[batchSize]?.join = none) :
    p.getDraftTokenNum batchSize + 1 = p.draftTokenNum := by
  have hpos : 0 < p.draftTokenNum := by
    by_contra hzero
    unfold Param.check at hp
    split_ifs at hp
  unfold Param.getDraftTokenNum
  split
  · next hconfig =>
      rw [hconfig] at hnone
      cases hnone
  · omega

/-- Requests of different ids with tails that are not empty are answered one by one, each as if it
were alone, by a tree that has the paths of all parts. -/
theorem batchMatch_answers (hc : 0 < c.capacity) (hp : p.check = none) (ho : Reachable c p o)
    (scores : Scores β) (hiter : ∀ l, (iter l).Perm l) (htype : p.parseMatchType = some matchType)
    {stateIds : List Int} {tokens : List (List Int)} {totalLens : List Nat}
    (hids : stateIds.Nodup) (htokens : stateIds.length = tokens.length)
    (hlens : stateIds.length = totalLens.length) (htails : [] ∉ tokens) :
    (p.batchDraftTokenNum[tokens.length]?.join = none →
      p.getDraftTokenNum tokens.length + 1 = p.draftTokenNum) ∧
    ∃ bound, ∀ fuel ≥ bound, ∃ results o',
      o.batchMatch scores iter c p fuel stateIds tokens totalLens =
        some (.ok (results.foldl Merged.append .new), o') ∧
      List.Forall₂ (Answers scores iter c p matchType fuel (p.getDraftTokenNum tokens.length) o)
        (stateIds.zip (tokens.zip totalLens)) results := by
  refine ⟨getDraftTokenNum_of_none hp, ?_⟩
  have hinv := ho.inv hc
  have hzip : (tokens.zip totalLens).length = stateIds.length := by
    rw [List.length_zip]
    omega
  have hnodup : ((stateIds.zip (tokens.zip totalLens)).map Prod.fst).Nodup := by
    rwa [List.map_fst_zip (Nat.le_of_eq hzip.symm)]
  have hevent : ∀ᶠ fuel in Filter.atTop, ∀ request ∈ stateIds.zip (tokens.zip totalLens), ∃ r,
      o.answerTo scores iter c p matchType fuel (p.getDraftTokenNum tokens.length) request =
        some r ∧
      Answers scores iter c p matchType fuel (p.getDraftTokenNum tokens.length) o request r := by
    refine (Filter.eventually_all_finite (List.finite_toSet _)).mpr fun request hmem => ?_
    refine answers_spec hinv hiter htype fun hnil => htails ?_
    obtain ⟨id, context, totalLen⟩ := request
    obtain rfl : context = [] := hnil
    exact (List.of_mem_zip (List.of_mem_zip hmem).2).1
  obtain ⟨bound, hbound⟩ := Filter.eventually_atTop.mp hevent
  refine ⟨bound, fun fuel hfuel => ?_⟩
  obtain ⟨results, hresults⟩ := exists_forall₂ (hbound fuel hfuel)
  obtain ⟨o', hserve⟩ := serveAll_eq (hresults.imp fun _ _ h => h.1) hnodup rfl rfl
    (fun _ _ => rfl) .new
  refine ⟨results, o', ?_, hresults.imp fun _ _ h => h.2⟩
  rw [NgramObj.batchMatch, if_neg (by omega), htype]
  exact hserve

end Run

def fifo (ε : Type) : DraftTree.PriorityQueue ε where
  pop heap := heap.head?.map fun e => (e, heap.tail)
  perm {heap} _ _ h := by
    cases heap with
    | nil => cases h
    | cons e rest =>
        cases h
        exact .refl _
  empty {heap} h := by
    cases heap with
    | nil => rfl
    | cons e rest => cases h

/-- Every child scores the same. -/
def equalScores : Scores Nat where
  start _ := 1
  breadth _ := 1
  narrow := id
  trieShare _ _ _ := id
  samShare _ _ _ := id
  queue := fifo _
  one := 1

/-- A corpus and two requests. -/
theorem batchMatch_answers_corpus : ∃ o, Reachable ⟨8, 4⟩ ⟨4, 1, 1, 4, 2, "BFS", []⟩ o ∧
    o.sams.length = 1 ∧ ∃ bound, ∀ fuel ≥ bound, ∃ (results : List Result) (o' : NgramObj),
      o.batchMatch equalScores id ⟨8, 4⟩ ⟨4, 1, 1, 4, 2, "BFS", []⟩ fuel [7, 8] [[1], [5, 1]]
        [1, 2] = some (.ok (results.foldl Merged.append .new), o') ∧
      ∀ r ∈ results, r.token.length = 4 := by
  obtain ⟨sam, _, hload, _⟩ := SuffixAutomaton.load_spec [[1, 2]]
  have ho : Reachable ⟨8, 4⟩ ⟨4, 1, 1, 4, 2, "BFS", []⟩ { new ⟨8, 4⟩ with sams := [("a", sam)] } :=
    .finishExternalCorpusLoad .new "a" [[1, 2]] _ hload (by decide) (by simp [new]) (.refl _)
  have htype : Param.parseMatchType ⟨4, 1, 1, 4, 2, "BFS", []⟩ = some .recency := by decide
  have hids : ([7, 8] : List Int).Nodup := by decide
  have htails : ([] : List Int) ∉ [[1], [5, 1]] := by decide
  have hlens : [7, 8].length = [1, 2].length := rfl
  obtain ⟨_, bound, hbound⟩ := batchMatch_answers (by decide) (by decide) ho equalScores
    (fun l => List.Perm.refl (id l)) htype hids rfl hlens htails
  refine ⟨_, ho, rfl, bound, fun fuel hfuel => ?_⟩
  obtain ⟨results, o', hmatch, hanswers⟩ := hbound fuel hfuel
  refine ⟨results, o', hmatch, fun r hr => ?_⟩
  obtain ⟨_, _, hanswer⟩ := (forall₂_mem hanswers).2 r hr
  exact hanswer.token

/-- The tokens of a batch of a new object into whose trie `inserted` has gone. -/
def tokensAfter (p : Param) (inserted : List Int) (stateIds : List Int) (tokens : List (List Int))
    (totalLens : List Nat) : Option (Option (List Int)) :=
  (((new ⟨8, 4⟩).trie.step ⟨8, 4⟩ (.insert inserted)).state).bind fun t =>
    (batchMatch equalScores id ⟨8, 4⟩ p 8 stateIds tokens totalLens
      { new ⟨8, 4⟩ with trie := t }).map fun (answer, _) => answer.toOption.map Merged.token

/-- A number that is configured for the size of the batch does not count the last token; a second
request of one id is served from the cached match of the first, and an empty tail stops the batch;
a combined tree lacks a token `0` of a part. -/
theorem batchMatch_inexact :
    Param.check ⟨4, 1, 1, 2, 0, "BFS", [none, some 2]⟩ = none ∧
    tokensAfter ⟨4, 1, 1, 2, 0, "BFS", [none, some 2]⟩ [1, 2] [7] [[1]] [1] =
    some (some [1, 2, 0]) ∧
    tokensAfter ⟨4, 1, 1, 2, 0, "BFS", []⟩ [1, 2] [7] [[1]] [1] = some (some [1, 2]) ∧
    tokensAfter ⟨4, 1, 1, 2, 0, "BFS", []⟩ [1, 2] [7, 7] [[5], [1]] [1, 1] =
      some (some [5, 0, 1, 0]) ∧
    tokensAfter ⟨4, 1, 1, 2, 0, "BFS", []⟩ [1, 2] [7] [[]] [1] = some none ∧
    ((fillResult ((DraftTree.new.findOrInsert 0 0).2.next) 1 2).bind fun r₁ =>
      (fillResult ((DraftTree.new.findOrInsert 0 2).2.next) 1 2).bind fun r₂ =>
        mergedPaths r₁ r₂) = some [[2]] := by
  decide +kernel

end NgramObj

end SpecDecode.Ngram
