import SpecDecode.Ngram.DraftPaths
import SpecDecode.Ngram.MatchRun

/-!
# Drafting from the trie

The builders of the trie read the children of a node from `lru` and from `sorted_children`, which
are both the children in some order.
-/

namespace SpecDecode.Ngram

namespace Trie

def recentChildren (t : Trie) (node : Nat) : List (Int × Nat) :=
  (t.nodes node).lru.map fun child => ((t.nodes child).token, child)

def frequentChildren (topK : Nat) (t : Trie) (node : Nat) : List (Int × Nat) :=
  ((t.nodes node).sortedChildren.take (max 1 topK)).map fun child => ((t.nodes child).token, child)

section Build

variable {β : Type} (draftTokenNum fuel : Nat) (t : Trie) (anchors : List (Nat × Nat))

/-- The tree of `Trie::buildRecency`. An anchor starts with the score of its depth. -/
def buildRecency (start : Nat → β) (breadth : β → Nat) (narrow : β → β) : Option DraftTree :=
  DraftTree.buildRecency t.recentChildren breadth narrow draftTokenNum fuel
    (anchors.map fun (node, depth) => (start depth, node))

/-- The tree of `Trie::buildFrequency`. -/
def buildFrequency (topK : Nat) (share : Nat → Nat → β → β)
    (queue : DraftTree.PriorityQueue (Nat × Int × Nat × β)) (one : β) : Option DraftTree :=
  DraftTree.buildFrequency (t.frequentChildren topK) share queue.pop draftTokenNum fuel one
    (anchors.map Prod.fst)

end Build

section Reads

variable {c : TrieConfig} {t : Trie} {context : List Int}

/-- A node spells a suffix of the context and what has been read behind it. -/
def ReadsFrom (t : Trie) (context p : List Int) (node : Nat) : Prop :=
  ∃ s, s ≠ [] ∧ s <:+ context ∧ t.Spells node (s ++ p)

/-- The path behind a suffix of the context is one of the trie. -/
def Continues (t : Trie) (context p : List Int) : Prop :=
  ∃ x node, x ≠ [] ∧ x <:+ context ∧ t.Spells node (x ++ p)

theorem ReadsFrom.continues {p : List Int} {node : Nat} (hr : t.ReadsFrom context p node) :
    t.Continues context p := by
  obtain ⟨x, hne, hx, hspells⟩ := hr
  exact ⟨x, node, hne, hx, hspells⟩

/-- A child comes behind its parent in `global_lru_`, the root is in front of all. -/
def lruRank (t : Trie) (node : Nat) : Nat :=
  if node ∈ t.globalLru then t.globalLru.length - t.globalLru.idxOf node
  else t.globalLru.length + 1

theorem Inv.lruRank_lt (h : Inv c t) (node : Nat) (hlive : t.Live node) (kid : Nat)
    (hkid : kid ∈ t.childNodes node) : t.Live kid ∧ t.lruRank kid < t.lruRank node := by
  by_cases hnode : node ∈ t.globalLru
  · obtain ⟨hmem, hlt⟩ := h.idxOf_lt hnode hkid
    have hlen := List.idxOf_lt_length_of_mem hmem
    refine ⟨.inr hmem, ?_⟩
    rw [lruRank, lruRank, if_pos hmem, if_pos hnode]
    omega
  · obtain ⟨e, he, rfl⟩ := List.mem_map.mp hkid
    have hmem := ((h.node node hlive).child e he).1
    refine ⟨.inr hmem, ?_⟩
    rw [lruRank, lruRank, if_pos hmem, if_neg hnode]
    omega

theorem ReadsFrom.live (h : Inv c t) {p : List Int} {node : Nat} (hr : t.ReadsFrom context p node) :
    t.Live node := by
  obtain ⟨s, _, _, hspells⟩ := hr
  exact hspells.live h

theorem ReadsFrom.child (h : Inv c t) {p : List Int} {node child : Nat}
    (hr : t.ReadsFrom context p node) (hchild : child ∈ t.childNodes node) :
    t.ReadsFrom context (p ++ [(t.nodes child).token]) child := by
  obtain ⟨s, hne, hsuffix, hspells⟩ := hr
  obtain ⟨e, he, rfl⟩ := List.mem_map.mp hchild
  have htoken := ((h.node node (hspells.live h)).child e he).2.2
  refine ⟨s, hne, hsuffix, ?_⟩
  rw [htoken, ← List.append_assoc]
  exact .child hspells he

/-- The builders read from lists of children that are among the children of the node. -/
theorem index_of_subperm (h : Inv c t) {reads : List Int → Nat → Prop} {order : Nat → List Nat}
    (hlive : ∀ p node, reads p node → t.Live node)
    (hreads : ∀ p node child, reads p node → child ∈ t.childNodes node →
      reads (p ++ [(t.nodes child).token]) child)
    (hsub : ∀ node, t.Live node → (order node).Subperm (t.childNodes node)) :
    DraftTree.Index (fun node => (order node).map fun child => ((t.nodes child).token, child))
      reads fun node => DraftTree.weigh t.childNodes (t.lruRank node) node := by
  refine DraftTree.Index.of_rank h.lruRank_lt hlive (fun node hnode => ?_)
    fun p node token child hr hmem => ?_
  · rw [List.map_map]
    simpa [Function.comp_def] using hsub node hnode
  · obtain ⟨kid, hkid, heq⟩ := List.mem_map.mp hmem
    obtain ⟨rfl, rfl⟩ := Prod.mk.inj heq
    exact hreads p node kid hr ((hsub node (hlive p node hr)).subset hkid)

variable {anchors : List (Nat × Nat)} {draftTokenNum : Nat}

/-- Both builders end, and their trees are read from the anchors. -/
theorem build_drafts (h : Inv c t) {reads : List Int → Nat → Prop}
    (hlive : ∀ p node, reads p node → t.Live node)
    (hreads : ∀ p node child, reads p node → child ∈ t.childNodes node →
      reads (p ++ [(t.nodes child).token]) child)
    (hanchors : ∀ a ∈ anchors, reads [] a.1) {continues : List Int → Prop}
    (hcontinues : ∀ p node, reads p node → continues p) (draftTokenNum : Nat) :
    ∃ bound, ∀ fuel ≥ bound, ∀ (β : Type),
      (∀ (start : Nat → β) breadth narrow, ∃ tree,
        t.buildRecency draftTokenNum fuel anchors start breadth narrow = some tree ∧
          tree.Drafts draftTokenNum continues) ∧
      ∀ topK (share : Nat → Nat → β → β) queue one, ∃ tree,
        t.buildFrequency draftTokenNum fuel anchors topK share queue one = some tree ∧
          tree.Drafts draftTokenNum continues := by
  let weight := fun node => DraftTree.weigh t.childNodes (t.lruRank node) node
  refine ⟨(anchors.map fun a => weight a.1).sum, fun fuel hfuel β => ?_⟩
  have hready : ∀ a ∈ anchors, reads [] a.1 ∧ weight a.1 ≤ fuel := fun a ha =>
    ⟨hanchors a ha, Nat.le_trans (List.le_sum_of_mem
      (List.mem_map_of_mem (f := fun a : Nat × Nat => weight a.1) ha)) hfuel⟩
  constructor
  · intro start breadth narrow
    have hi := index_of_subperm h hlive hreads fun node hnode => (h.node node hnode).lru.subperm
    have hstarts : ∀ a ∈ anchors.map fun (node, depth) => (start depth, node),
        reads [] a.2 ∧ weight a.2 ≤ fuel := by
      intro a ha
      obtain ⟨a, hmem, rfl⟩ := List.mem_map.mp ha
      exact hready a hmem
    obtain ⟨tree, htree, hs⟩ := DraftTree.buildRecency_spec breadth narrow draftTokenNum hi hstarts
    exact ⟨tree, htree, (DraftTree.BuiltBy.recency _ _ _ _ _ _ htree).drafts hs hcontinues⟩
  · intro topK share queue one
    have hi := index_of_subperm h hlive hreads fun node hnode =>
      (List.take_sublist (max 1 topK) _).subperm.trans (h.node node hnode).sorted.subperm
    have hstarts : ∀ node ∈ anchors.map Prod.fst, reads [] node ∧ weight node ≤ fuel := by
      intro node hnode
      obtain ⟨a, hmem, rfl⟩ := List.mem_map.mp hnode
      exact hready a hmem
    obtain ⟨tree, htree, hs⟩ :=
      DraftTree.buildFrequency_spec share queue draftTokenNum one hi hstarts
    exact ⟨tree, htree, (DraftTree.BuiltBy.frequency _ _ _ (fun htop => queue.perm htop) _ _ _ _
      htree).drafts hs hcontinues⟩

private theorem getExpandableAnchors_pos {state : MatchState} {node d : Nat}
    (hmem : (node, d) ∈ t.getExpandableAnchors state) : 0 < d := by
  obtain ⟨i, _, hentry⟩ := List.mem_filterMap.mp hmem
  unfold expandable at hentry
  split at hentry
  · cases hentry
  · split at hentry
    · cases hentry
    · split at hentry
      · obtain ⟨_, rfl⟩ := Prod.mk.inj (Option.some.inj hentry)
        exact Nat.succ_pos _
      · cases hentry

theorem readsFrom_matchContext (h : Inv c t) {state : MatchState} (hs : StateOk t context state)
    {tail : List Int} (htail : tail <:+ context) :
    ∀ a ∈ (t.matchContext c tail state context.length).1, t.ReadsFrom context [] a.1 := by
  rintro ⟨node, d⟩ ha
  obtain ⟨hle, hspells⟩ := matchContext_sound h hs htail ha
  have hpos := getExpandableAnchors_pos ha
  refine ⟨context.rtake d, fun hnil => ?_, List.drop_suffix _ _, by rwa [List.append_nil]⟩
  have hlen := congrArg List.length hnil
  rw [List.rtake, List.length_drop, List.length_nil] at hlen
  omega

end Reads

end Trie

theorem Corpus.request_drafts {c : TrieConfig} {s : Corpus} (h : Corpus.Inv c s) (id : Nat)
    (appended : List Int) (len draftTokenNum : Nat) :
    ∃ bound, ∀ fuel ≥ bound, ∀ (β : Type),
      (∀ (start : Nat → β) breadth narrow, ∃ tree,
        s.trie.buildRecency draftTokenNum fuel (s.matchRequest c id appended len).1 start breadth
          narrow = some tree ∧
          tree.Drafts draftTokenNum (s.trie.Continues ((s.requests id).context ++ appended))) ∧
      ∀ topK (share : Nat → Nat → β → β) queue one, ∃ tree,
        s.trie.buildFrequency draftTokenNum fuel (s.matchRequest c id appended len).1 topK share
          queue one = some tree ∧
          tree.Drafts draftTokenNum (s.trie.Continues ((s.requests id).context ++ appended)) :=
  Trie.build_drafts h.trie (fun _ _ hr => hr.live h.trie)
    (fun _ _ _ hr hchild => hr.child h.trie hchild)
    (Trie.readsFrom_matchContext h.trie ((h.requests id).append appended) (rtake_suffix _ len))
    (fun _ _ hr => hr.continues) draftTokenNum

end SpecDecode.Ngram
