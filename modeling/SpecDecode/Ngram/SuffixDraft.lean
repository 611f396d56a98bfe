import SpecDecode.Ngram.SuffixMatch
import SpecDecode.Ngram.TrieDraft

/-!
# Drafting from an external corpus

The builders of the suffix automaton read the children that it keeps without the separator.
-/

namespace SpecDecode.Ngram

open SpecDecode.SuffixAutomaton

namespace SuffixAutomaton

section Build

variable {β : Type} (draftTokenNum fuel : Nat) (s : SuffixAutomaton) (anchors : List SamAnchor)

/-- The tree of `SuffixAutomaton::buildRecency`. An anchor starts with the score of its matched
length. -/
def buildRecency (start : Nat → β) (breadth : β → Nat) (narrow : β → β) : Option DraftTree :=
  DraftTree.buildRecency (fun state => (s.states state).childrenByRecency) breadth narrow
    draftTokenNum fuel (anchors.map fun anchor => (start anchor.matchedLen, anchor.state))

/-- The tree of `SuffixAutomaton::buildFrequency`. -/
def buildFrequency (topK : Nat) (share : Nat → Nat → β → β)
    (queue : DraftTree.PriorityQueue (Nat × Int × Nat × β)) (one : β) : Option DraftTree :=
  DraftTree.buildFrequency (fun state => (s.states state).childrenByFreq.take topK) share queue.pop
    draftTokenNum fuel one (anchors.map SamAnchor.state)

end Build

section Reads

variable {s : SuffixAutomaton} {text context : List Int} {longest : Nat → List Int}

/-- A state is that of a suffix of the context and what has been read behind it, which has no
separator. -/
def ReadsFrom (s : SuffixAutomaton) (context p : List Int) (state : Nat) : Prop :=
  separatorToken ∉ p ∧ ∃ x, x ≠ [] ∧ x <:+ context ∧ s.automaton.run (x ++ p) = some state

/-- The path behind a suffix of the context is one of the corpus. The suffix can be chosen
without a separator if the context does not end with one. -/
def Continues (text context p : List Int) : Prop :=
  ∃ x, x ≠ [] ∧ x <:+ context ∧ x ++ p <:+: text ∧
    separatorToken ∉ p ∧ (context.getLast? ≠ some separatorToken → separatorToken ∉ x ++ p)

theorem ReadsFrom.continues (h : Indexes s.automaton text longest s.last) {p : List Int}
    {state : Nat} (hr : s.ReadsFrom context p state) : Continues text context p := by
  obtain ⟨hsep, x, hne, hx, hrun⟩ := hr
  have hinfix : x ++ p <:+: text := (h.words _).mp (by rw [hrun]; rfl)
  by_cases hlast : context.getLast? = some separatorToken
  · exact ⟨x, hne, hx, hinfix, hsep, fun hnot => absurd hlast hnot⟩
  · obtain ⟨front, last, rfl⟩ := (List.eq_nil_or_concat x).resolve_left hne
    rw [List.concat_eq_append] at hx hinfix
    have hsuffix : [last] <:+ front ++ [last] := List.suffix_append _ _
    refine ⟨[last], by simp, hsuffix.trans hx, ?_, hsep, fun _ hmem => ?_⟩
    · refine List.IsInfix.trans ?_ hinfix
      rw [List.append_assoc]
      exact (List.suffix_append _ _).isInfix
    · rcases List.mem_append.mp hmem with hmem | hmem
      · obtain ⟨front', rfl⟩ := hx
        rw [List.mem_singleton.mp hmem, ← List.append_assoc, List.getLast?_concat] at hlast
        exact hlast rfl
      · exact hsep hmem

/-- The states that a state leads to without the separator. -/
def kids (s : SuffixAutomaton) (state : Nat) : List Nat :=
  ((s.states state).next.filter fun entry => entry.1 ≠ separatorToken).map Prod.snd

private theorem mem_kids (h : s.Indexed text longest) {state kid : Nat} : kid ∈ s.kids state ↔
    ∃ token ≠ separatorToken, s.automaton.next state token = some kid := by
  simp only [kids, List.mem_map, List.mem_filter, decide_eq_true_eq, Prod.exists]
  constructor
  · rintro ⟨token, kid, ⟨hmem, hsep⟩, rfl⟩
    exact ⟨token, hsep, (lookup_eq_some_of_nodup (h.keys state)).mpr hmem⟩
  · rintro ⟨token, hsep, hnext⟩
    exact ⟨token, kid, ⟨(lookup_eq_some_of_nodup (h.keys state)).mp hnext, hsep⟩, rfl⟩

private theorem kids_rank (h : s.Indexed text longest) (state : Nat)
    (hlive : state < s.size) (kid : Nat)
    (hkid : kid ∈ s.kids state) : kid < s.size ∧
      text.length - (s.states kid).maxLen < text.length - (s.states state).maxLen := by
  obtain ⟨token, _, hnext⟩ := (mem_kids h).mp hkid
  have hkidlive := h.indexes.closed state hlive token kid hnext
  have hlt : (s.states state).maxLen < (s.states kid).maxLen := h.indexes.maxLen_lt hlive hnext
  have hle : (s.states kid).maxLen ≤ text.length := by
    have hlen : (s.states kid).maxLen = (longest kid).length := h.indexes.length kid hkidlive
    rw [hlen]
    exact ((h.indexes.words _).mp (by rw [h.indexes.run_longest hkidlive]; rfl)).length_le
  exact ⟨hkidlive, by omega⟩

/-- The builders read from lists that are among the transitions without the separator. -/
theorem index_of_subperm (h : s.Indexed text longest) (context : List Int)
    {children : Nat → List (Int × Nat)} (hsub : ∀ state, (children state).Subperm
      ((s.states state).next.filter fun entry => entry.1 ≠ separatorToken)) :
    DraftTree.Index children (s.ReadsFrom context) fun state =>
      DraftTree.weigh s.kids (text.length - (s.states state).maxLen) state := by
  refine DraftTree.Index.of_rank (kids_rank h) (fun p state hr => ?_) (fun state _ => ?_)
    fun p state token child hr hmem => ?_
  · obtain ⟨_, x, _, _, hrun⟩ := hr
    exact h.indexes.run_live hrun
  · obtain ⟨l, hperm, hsublist⟩ := hsub state
    exact ⟨l.map Prod.snd, hperm.map _, hsublist.map _⟩
  · obtain ⟨hsep, x, hne, hx, hrun⟩ := hr
    obtain ⟨hnext, htoken⟩ := List.mem_filter.mp ((hsub state).subset hmem)
    refine ⟨fun hsep' => ?_, x, hne, hx, ?_⟩
    · rcases List.mem_append.mp hsep' with hmem | hmem
      · exact hsep hmem
      · exact of_decide_eq_true htoken (List.mem_singleton.mp hmem).symm
    · rw [← List.append_assoc, Automaton.run_concat, hrun]
      exact (lookup_eq_some_of_nodup (h.keys state)).mpr hnext

private theorem matchContext_empty (h : s.Indexed [] longest) (context : List Int)
    (maxDepth : Nat) :
    s.matchContext context maxDepth = some [] := by
  have hloaded : s.loaded = false := by
    rw [← Bool.not_eq_true, h.loaded]
    exact not_not.mpr rfl
  rw [matchContext, hloaded]
  rfl

theorem build_drafts (h : s.Indexed text longest) (context : List Int) (maxDepth : Nat) :
    ∃ anchors, s.matchContext context maxDepth = some anchors ∧
      ∀ draftTokenNum, ∃ bound, ∀ fuel ≥ bound, ∀ (β : Type),
        (∀ (start : Nat → β) breadth narrow, ∃ tree,
          s.buildRecency draftTokenNum fuel anchors start breadth narrow = some tree ∧
            tree.Drafts draftTokenNum (Continues text context)) ∧
        ∀ topK (share : Nat → Nat → β → β) queue one, ∃ tree,
          s.buildFrequency draftTokenNum fuel anchors topK share queue one = some tree ∧
            tree.Drafts draftTokenNum (Continues text context) := by
  by_cases htext : text = []
  · subst htext
    refine ⟨[], matchContext_empty h context maxDepth, fun draftTokenNum => ⟨0, fun fuel _ β => ?_⟩⟩
    have hs : DraftTree.Sound (fun _ (_ : Nat) => False) .new := DraftTree.sound_new
    have hnew : DraftTree.new.Drafts draftTokenNum (Continues [] context) :=
      ⟨DraftTree.new_wf, Nat.succ_le_succ (Nat.zero_le _), DraftTree.new_wf.keys,
        fun v p hp hne => (hs v p hp hne).elim fun _ hr => hr.elim⟩
    exact ⟨fun _ _ _ => ⟨_, rfl, hnew⟩, fun _ _ _ _ => ⟨_, rfl, hnew⟩⟩
  · obtain ⟨anchors, hmatch, _, hanchors⟩ := matchContext_anchors h context maxDepth
    refine ⟨anchors, hmatch, fun draftTokenNum => ?_⟩
    let weight := fun state => DraftTree.weigh s.kids (text.length - (s.states state).maxLen) state
    refine ⟨(anchors.map fun a => weight a.state).sum, fun fuel hfuel β => ?_⟩
    have hready : ∀ a ∈ anchors, s.ReadsFrom context [] a.state ∧ weight a.state ≤ fuel := by
      intro a ha
      obtain ⟨⟨x, hne, hx, hrun, _⟩, _⟩ := (hanchors a.state a.matchedLen).mp ha
      refine ⟨⟨List.not_mem_nil, x, hne, hx.trans (List.drop_suffix _ _), by rwa [List.append_nil]⟩,
        ?_⟩
      exact Nat.le_trans (List.le_sum_of_mem
        (List.mem_map_of_mem (f := fun a : SamAnchor => weight a.state) ha)) hfuel
    constructor
    · intro start breadth narrow
      have hi := index_of_subperm h context fun state => (h.childrenByRecency htext state).subperm
      have hstarts : ∀ a ∈ anchors.map fun anchor => (start anchor.matchedLen, anchor.state),
          s.ReadsFrom context [] a.2 ∧ weight a.2 ≤ fuel := by
        intro a ha
        obtain ⟨a, hmem, rfl⟩ := List.mem_map.mp ha
        exact hready a hmem
      obtain ⟨tree, htree, hs⟩ :=
        DraftTree.buildRecency_spec breadth narrow draftTokenNum hi hstarts
      exact ⟨tree, htree, (DraftTree.BuiltBy.recency _ _ _ _ _ _ htree).drafts hs
        fun p state hr => hr.continues h.indexes⟩
    · intro topK share queue one
      have hi := index_of_subperm h context fun state =>
        (List.take_sublist topK _).subperm.trans (h.childrenByFreq htext state).subperm
      have hstarts : ∀ state ∈ anchors.map SamAnchor.state,
          s.ReadsFrom context [] state ∧ weight state ≤ fuel := by
        intro state hstate
        obtain ⟨a, hmem, rfl⟩ := List.mem_map.mp hstate
        exact hready a hmem
      obtain ⟨tree, htree, hs⟩ :=
        DraftTree.buildFrequency_spec share queue draftTokenNum one hi hstarts
      exact ⟨tree, htree, (DraftTree.BuiltBy.frequency _ _ _ (fun htop => queue.perm htop) _ _ _ _
        htree).drafts hs fun p state hr => hr.continues h.indexes⟩

end Reads

end SuffixAutomaton

/-- Every drafted path continues the context in the trie, or in an external corpus, whatever the
scores are that choose among the continuations. Enough fuel builds the trees. -/
theorem drafts_continue {c : TrieConfig} (hc : 0 < c.capacity) {s : Corpus}
    (hs : Corpus.Runs c (Corpus.new c) s) (id : Nat) (appended : List Int) (len : Nat)
    (chunks : List (List Int)) (context : List Int) (maxDepth draftTokenNum : Nat) :
    (∃ bound, ∀ fuel ≥ bound, ∀ (β : Type),
      (∀ (start : Nat → β) breadth narrow, ∃ tree,
        s.trie.buildRecency draftTokenNum fuel (s.matchRequest c id appended len).1 start breadth
          narrow = some tree ∧
          tree.Drafts draftTokenNum (s.trie.Continues ((s.requests id).context ++ appended))) ∧
      ∀ topK (share : Nat → Nat → β → β) queue one, ∃ tree,
        s.trie.buildFrequency draftTokenNum fuel (s.matchRequest c id appended len).1 topK share
          queue one = some tree ∧
          tree.Drafts draftTokenNum (s.trie.Continues ((s.requests id).context ++ appended))) ∧
    ∃ sam anchors, SuffixAutomaton.load chunks = some sam ∧
      sam.matchContext context maxDepth = some anchors ∧
      ∃ bound, ∀ fuel ≥ bound, ∀ (β : Type),
        (∀ (start : Nat → β) breadth narrow, ∃ tree,
          sam.buildRecency draftTokenNum fuel anchors start breadth narrow = some tree ∧
            tree.Drafts draftTokenNum (SuffixAutomaton.Continues chunks.flatten context)) ∧
        ∀ topK (share : Nat → Nat → β → β) queue one, ∃ tree,
          sam.buildFrequency draftTokenNum fuel anchors topK share queue one = some tree ∧
            tree.Drafts draftTokenNum (SuffixAutomaton.Continues chunks.flatten context) := by
  obtain ⟨h, _⟩ := (Corpus.Inv.new hc).runs hc hs
  obtain ⟨sam, longest, hload, hindexed⟩ := SuffixAutomaton.load_spec chunks
  obtain ⟨anchors, hmatch, hbuild⟩ := SuffixAutomaton.build_drafts hindexed context maxDepth
  exact ⟨Corpus.request_drafts h id appended len draftTokenNum, sam, anchors, hload, hmatch,
    hbuild draftTokenNum⟩

/-- After one insert, a request that ends with its first token. -/
theorem drafts_continue_insert : ∃ s, Corpus.Runs ⟨8, 2⟩ (Corpus.new ⟨8, 2⟩) s ∧
    ∃ bound, ∀ fuel ≥ bound, ∃ tree,
      s.trie.buildRecency 3 fuel (s.matchRequest ⟨8, 2⟩ 0 [1] 1).1 id (fun _ => 1) id = some tree ∧
        tree.Drafts 3 (s.trie.Continues [1]) := by
  obtain ⟨s, hstep, hcontext⟩ : ∃ s : Corpus,
      (Corpus.new ⟨8, 2⟩).step ⟨8, 2⟩ (.trie (.insert [1, 2])) = some s ∧
        (s.requests 0).context = [] := ⟨_, rfl, rfl⟩
  have hruns : Corpus.Runs ⟨8, 2⟩ (Corpus.new ⟨8, 2⟩) s := .step .refl _ hstep
  obtain ⟨⟨bound, hbuild⟩, _⟩ := drafts_continue (by decide) hruns 0 [1] 1 [[1, 2]] [1] 8 3
  rw [hcontext] at hbuild
  exact ⟨s, hruns, bound, fun fuel hfuel => (hbuild fuel hfuel Nat).1 id (fun _ => 1) id⟩

/-- A context that ends with the separator is continued across documents. -/
theorem drafts_cross_separator : ∃ tree,
    ((SuffixAutomaton.load [[1, separatorToken, 2]]).bind fun s =>
      (s.matchContext [separatorToken] 8).bind fun anchors =>
        s.buildRecency 1 8 anchors id (fun _ => 1) id) = some tree ∧ Path tree.next 1 [2] ∧
      ∀ x, x ≠ [] → x <:+ [separatorToken] → separatorToken ∈ x ++ [2] := by
  have hnext : (((SuffixAutomaton.load [[1, separatorToken, 2]]).bind fun s =>
      (s.matchContext [separatorToken] 8).bind fun anchors =>
        s.buildRecency 1 8 anchors id (fun _ => 1) id).map fun tree => tree.next 0) =
          some [(2, 1)] := by
    decide +kernel
  obtain ⟨tree, htree, hnext⟩ := Option.map_eq_some_iff.mp hnext
  refine ⟨tree, htree, .child .root (by rw [hnext]; simp), fun x hne hx => ?_⟩
  rcases List.suffix_cons_iff.mp hx with rfl | hx
  · simp
  · exact absurd (List.suffix_nil.mp hx) hne

end SpecDecode.Ngram
