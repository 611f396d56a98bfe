import SpecDecode.Ngram.MatchSpec

/-!
# Runs of the corpus

Inserts, evictions, resets and matches of any number of requests, in any order. Every
match is sound; it finds what a match without cached state finds as long as no suffix
that was cached as absent has become expandable.
-/

namespace SpecDecode.Ngram

namespace Corpus

open Trie

variable {c : TrieConfig} {s s₁ s₂ : Corpus}

structure Inv (c : TrieConfig) (s : Corpus) : Prop where
  trie : Trie.Inv c s.trie
  epoch : 0 < s.trie.trieEpoch
  requests : ∀ id, StateOk s.trie (s.requests id).context (s.requests id).state

theorem Inv.new (hc : 0 < c.capacity) : Inv c (new c) where
  trie := refill_inv hc _
  epoch := Nat.one_pos
  requests _ := StateOk.new _ _

theorem Inv.setRequest (h : Inv c s) (id : Nat) {r : Request}
    (hr : StateOk s.trie r.context r.state) :
    Inv c { s with requests := Function.update s.requests id r } where
  trie := h.trie
  epoch := h.epoch
  requests id' := by
    by_cases hid : id' = id
    · subst hid
      simpa using hr
    · simpa [hid] using h.requests id'

variable {t : Trie} {state : MatchState} {context : List Int}

theorem Inv.setTrie (h : Inv c s) (ht : Trie.Inv c t) (hlater : Later s.trie t) :
    Inv c { s with trie := t } where
  trie := ht
  epoch := by
    have hpos := h.epoch
    rcases hlater with hlt | hevolves
    · exact Nat.lt_trans hpos hlt
    · exact hevolves.epoch ▸ hpos
  requests id := by
    rcases hlater with hlt | hevolves
    · exact (h.requests id).of_epoch_lt hlt
    · exact (h.requests id).evolves hevolves

theorem rtake_suffix (context : List Int) (len : Nat) : context.rtake len <:+ context :=
  List.drop_suffix _ _

theorem Inv.step (hc : 0 < c.capacity) (h : Inv c s) {op : Op} (hstep : s.step c op = some s₁) :
    Inv c s₁ ∧ Later s.trie s₁.trie := by
  cases op with
  | trie op =>
      obtain ⟨t, ht, rfl⟩ := Option.map_eq_some_iff.mp hstep
      obtain ⟨hinv, hlater⟩ := step_state hc h.trie ht
      exact ⟨h.setTrie hinv hlater, hlater⟩
  | matchRequest id appended len =>
      cases hstep
      have hstate := ((h.requests id).append appended).matchContext h.trie (rtake_suffix _ len)
      exact ⟨h.setRequest id hstate, .inr (.refl _)⟩
  | eraseMatchState id =>
      cases hstep
      exact ⟨h.setRequest id (.new _ _), .inr (.refl _)⟩

theorem Inv.runs (hc : 0 < c.capacity) (h : Inv c s) (hruns : Runs c s s₁) :
    Inv c s₁ ∧ Later s.trie s₁.trie := by
  induction hruns with
  | refl => exact ⟨h, .inr (.refl _)⟩
  | step _ op hstep ih =>
      obtain ⟨h', hlater⟩ := ih.1.step hc hstep
      exact ⟨h', ih.2.trans hlater⟩

theorem resolve_capture_stable {t₁ t₂ : Trie} (h₁ : Later t t₁) (h₂ : Later t₁ t₂)
    {v w : Nat} {path : List Int} (hv : t.Spells v path) (hepoch : state.trieEpoch = t.trieEpoch)
    (hresolve : t₂.resolve state (t.capture v) = some w) :
    w = v ∧ t₁.Spells v path ∧ t₂.Spells v path := by
  obtain ⟨hptr, hepoch₂, hversion⟩ := resolve_eq_some.mp hresolve
  obtain rfl : v = w := Option.some.inj hptr
  have hversion : (t₂.nodes v).version = (t.nodes v).version := hversion
  -- A reset in between would have changed the epoch.
  have hboth : Evolves t t₁ ∧ Evolves t₁ t₂ := by
    rcases h₁ with hlt | h₁ <;> rcases h₂ with hlt' | h₂
    · omega
    · have := h₂.epoch
      omega
    · have := h₁.epoch
      omega
    · exact ⟨h₁, h₂⟩
  have hle₁ := hboth.1.version v
  have hle₂ := hboth.2.version v
  have hv₁ := hboth.1.path v path hv (by omega)
  exact ⟨rfl, hv₁, hboth.2.path v path hv₁ (by omega)⟩

/-- Matching is sound under recycling. Every anchor is a live node that spells the last
tokens of its request; a cached reference resolves to nothing but the node it was
recorded for, and only while that node has kept its place. -/
theorem matchRequest_sound (hc : 0 < c.capacity) (hs : Runs c (new c) s) :
    (∀ id appended len node d, (node, d) ∈ (s.matchRequest c id appended len).1 →
      s.trie.Live node ∧ d ≤ ((s.requests id).context ++ appended).length ∧
        s.trie.Spells node (((s.requests id).context ++ appended).rtake d)) ∧
    (∀ id i ref node, (s.requests id).state.anchors[i]? = some ref →
      s.trie.resolve (s.requests id).state ref = some node →
        s.trie.Spells node
          (((s.requests id).context.take (s.requests id).state.processedTotalLen).rtake (i + 1))) ∧
    (∀ s₁ s₂ v w path state, Runs c s s₁ → Runs c s₁ s₂ → s.trie.Spells v path →
      state.trieEpoch = s.trie.trieEpoch → s₂.trie.resolve state (s.trie.capture v) = some w →
        w = v ∧ s₁.trie.Spells v path ∧ s₂.trie.Spells v path) := by
  obtain ⟨h, _⟩ := (Inv.new hc).runs hc hs
  refine ⟨?_, ?_, ?_⟩
  · intro id appended len node d hmem
    obtain ⟨hd, hspells⟩ := matchContext_sound h.trie ((h.requests id).append appended)
      (rtake_suffix _ len) hmem
    exact ⟨hspells.live h.trie, hd, hspells⟩
  · intro id i ref node hget hresolve
    obtain ⟨hptr, hepoch, hversion⟩ := resolve_eq_some.mp hresolve
    exact ((h.requests id).anchors hepoch i ref hget).spells node hptr hversion.symm
  · intro s₁ s₂ v w path state hruns₁ hruns₂ hv hepoch hresolve
    obtain ⟨h₁, hlater₁⟩ := h.runs hc hruns₁
    exact resolve_capture_stable hlater₁ (h₁.runs hc hruns₂).2 hv hepoch hresolve

/-- After an insert the single token is expandable. -/
theorem matchRequest_sound_insert : ∃ s, Runs ⟨8, 2⟩ (new ⟨8, 2⟩) s ∧
    (6, 1) ∈ (s.matchRequest ⟨8, 2⟩ 0 [1] 1).1 ∧ s.trie.Spells 6 [1] := by
  refine ⟨_, .step .refl (.trie (.insert [1, 2])) rfl, by decide, ?_⟩
  have hsound := matchRequest_sound (by decide)
    (.step .refl (.trie (.insert [1, 2])) rfl : Runs ⟨8, 2⟩ (new ⟨8, 2⟩) _)
  exact (hsound.1 0 [1] 1 6 1 (by decide)).2.2

/-- The anchors cached as null, pushed down by the new tokens, are of no use now
either: the state is rebuilt, or none of these suffixes is expandable. -/
def NullsStillMiss (c : TrieConfig) (t : Trie) (state : MatchState) (context : List Int)
    (len : Nat) : Prop :=
  t.advances c state len context.length = true → ∀ i, isNull state i = true →
    i + 1 + (context.length - state.processedTotalLen) ≤ min context.length c.maxTrieDepth →
      ¬ ∃ node, t.Spells node
          (context.rtake (i + 1 + (context.length - state.processedTotalLen))) ∧
        (t.nodes node).child ≠ []

theorem NullsStillMiss.of_all {len : Nat}
    (hall : (state.anchors.all fun ref => ref.ptr.isSome) = true) :
    NullsStillMiss c t state context len := by
  intro _ i hnull
  rw [List.all_eq_true] at hall
  unfold isNull at hnull
  split at hnull
  · cases hnull
  · next ref hget =>
      have hsome := hall ref (List.mem_of_getElem? hget)
      rw [Option.isNone_iff_eq_none.mp hnull] at hsome
      cases hsome

theorem expandableSuffix_eq_none (h : Trie.Inv c t) {i : Nat} :
    t.expandableSuffix context i = none ↔
      ¬ ∃ node, t.Spells node (context.rtake (i + 1)) ∧ (t.nodes node).child ≠ [] := by
  unfold expandableSuffix
  cases hfind : t.descend t.root (context.rtake (i + 1)) with
  | none =>
      refine iff_of_true rfl ?_
      rintro ⟨node, hspells, _⟩
      rw [(descend_eq_some h).mpr hspells] at hfind
      cases hfind
  | some node =>
      have hspells := (descend_eq_some h).mp hfind
      constructor
      · rintro hnone ⟨node', hspells', hchild⟩
        obtain rfl := hspells.node_unique h hspells'
        simp [hchild] at hnone
      · intro hnone
        have hleaf : (t.nodes node).child = [] := by
          by_contra hchild
          exact hnone ⟨node, hspells, hchild⟩
        simp [hleaf]

private theorem not_advances_new (hepoch : 0 < t.trieEpoch) (len totalLen : Nat) :
    t.advances c .new len totalLen = false := by
  have hne : (0 : Nat) ≠ t.trieEpoch := by omega
  simp [advances, canAdvance, MatchState.new, hne]

theorem matchContext_eq_fresh_iff (h : Trie.Inv c t) (hepoch : 0 < t.trieEpoch)
    {tail : List Int} (hs : StateOk t context state)
    (htail : tail <:+ context) (hcover : min context.length c.maxTrieDepth ≤ tail.length) :
    (t.matchContext c tail state context.length).1 =
        (t.matchContext c tail .new context.length).1 ↔
      NullsStillMiss c t state context tail.length := by
  rw [matchContext_rebuilds (not_advances_new hepoch _ _)]
  cases hadvances : t.advances c state tail.length context.length with
  | false =>
      rw [matchContext_rebuilds hadvances]
      refine iff_of_true rfl fun h' => ?_
      rw [hadvances] at h'
      cases h'
  | true =>
      obtain ⟨missing, rfl, heq⟩ := matchContext_advances h hs htail hadvances
      rw [heq, expandableAnchors_of_suffix htail hcover, expandableAnchors_eq_iff]
      -- Depth `i + 1` of the cached state is depth `j + 1` of the new one.
      constructor
      · intro hall _ i hnull hi
        have hj := hall (i + (context.length - state.processedTotalLen)) (by omega)
          (by simp [shift, hnull])
        rw [expandableSuffix_eq_none h] at hj
        rwa [Nat.add_right_comm]
      · intro hmiss j hj hmissing
        simp only [shift, Bool.and_eq_true, decide_eq_true_eq] at hmissing
        have hi := hmiss hadvances _ hmissing.2 (by omega)
        rw [expandableSuffix_eq_none h]
        rwa [show j - (context.length - state.processedTotalLen) + 1 +
          (context.length - state.processedTotalLen) = j + 1 by omega] at hi

/-- With a tail that covers the depth of the trie, a match finds what a match with a
fresh state finds exactly when the cached nulls still miss. -/
theorem matchRequest_eq_fresh_iff (hc : 0 < c.capacity) (hs : Runs c (new c) s) (id : Nat)
    (appended : List Int) (len : Nat)
    (hcover : min ((s.requests id).context ++ appended).length c.maxTrieDepth ≤ len) :
    (s.matchRequest c id appended len).1 =
        (s.trie.matchContext c (((s.requests id).context ++ appended).rtake len) .new
          ((s.requests id).context ++ appended).length).1 ↔
      NullsStillMiss c s.trie (s.requests id).state ((s.requests id).context ++ appended)
        (((s.requests id).context ++ appended).rtake len).length := by
  obtain ⟨h, _⟩ := (Inv.new hc).runs hc hs
  refine matchContext_eq_fresh_iff h.trie h.epoch ((h.requests id).append appended)
    (rtake_suffix _ len) ?_
  rw [List.rtake, List.length_drop]
  omega

/-- A suffix that was there at the first match is found again after it has grown. -/
theorem matchRequest_eq_fresh_known : ∃ s, Runs ⟨16, 4⟩ (new ⟨16, 4⟩) s ∧
    (s.requests 0).state.anchors.length = 2 ∧
    (s.matchRequest ⟨16, 4⟩ 0 [3] 3).1 =
      (s.trie.matchContext ⟨16, 4⟩ [1, 2, 3] .new 3).1 := by
  refine ⟨_, .step (.step (.step .refl (.trie (.insert [1, 2, 3])) rfl)
    (.matchRequest 0 [1, 2] 2) rfl) (.trie (.insert [2, 3, 4])) rfl, by decide, ?_⟩
  refine (matchRequest_eq_fresh_iff (by decide) (.step (.step (.step .refl
    (.trie (.insert [1, 2, 3])) rfl) (.matchRequest 0 [1, 2] 2) rfl)
    (.trie (.insert [2, 3, 4])) rfl) 0 [3] 3 (by decide)).mpr ?_
  exact .of_all (by decide)

/-- A suffix that is inserted after the first match stays unseen. -/
theorem matchRequest_ne_fresh_late : ∃ s, Runs ⟨16, 4⟩ (new ⟨16, 4⟩) s ∧
    (s.matchRequest ⟨16, 4⟩ 0 [] 2).1 ≠
      (s.trie.matchContext ⟨16, 4⟩ [1, 2] .new 2).1 := by
  refine ⟨_, .step (.step .refl (.matchRequest 0 [1, 2] 2) rfl)
    (.trie (.insert [1, 2, 3])) rfl, ?_⟩
  decide

end Corpus

end SpecDecode.Ngram
