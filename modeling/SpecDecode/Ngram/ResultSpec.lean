import SpecDecode.Lib.BreadthFirst
import SpecDecode.Ngram.DraftTree

/-!
# The mask of a draft tree

`fillResult` visits the nodes of a tree level by level. An entry of its queue carries the
token, the node and the number of the parent, and the entries that were taken out so far,
followed by those in the queue, are the children of the nodes that were numbered so far.
Row by row the mask then marks a token and its ancestors, whatever was padded.
-/

namespace SpecDecode.Ngram

open Function Buffer

section FillLoop

variable {t : DraftTree} {next : Nat → List (Int × Nat)}

def nodesOf (seen : List (Int × Nat × Nat)) : List Nat := 0 :: seen.map (·.2.1)

/-- The queue entries of the children of nodes that are numbered from `0` on. -/
def entries (next : Nat → List (Int × Nat)) (nodes : List Nat) : List (Int × Nat × Nat) :=
  nodes.zipIdx.flatMap fun (v, k) => (next v).map fun (token, c) => (token, c, k)

theorem entries_concat (nodes : List Nat) (v : Nat) :
    entries next (nodes ++ [v]) =
      entries next nodes ++ (next v).map fun (token, c) => (token, c, nodes.length) := by
  simp [entries, List.zipIdx_append]

theorem mem_entries {nodes : List Nat} {token : Int} {c k : Nat} :
    (token, c, k) ∈ entries next nodes ↔ ∃ v, nodes[k]? = some v ∧ (token, c) ∈ next v := by
  simp only [entries, List.mem_flatMap, List.mem_map, Prod.exists, Prod.mk.injEq,
    List.mem_zipIdx_iff_getElem?]
  constructor
  · rintro ⟨v, k', hv, token', c', hmem, rfl, rfl, rfl⟩
    exact ⟨v, hv, hmem⟩
  · rintro ⟨v, hv, hmem⟩
    exact ⟨v, k, hv, token, c, hmem, rfl, rfl, rfl⟩

theorem map_node_entries (nodes : List Nat) :
    (entries next nodes).map (·.2.1) = nodes.flatMap fun v => (next v).map Prod.snd := by
  rw [entries, List.map_flatMap]
  conv_rhs => rw [← List.zipIdx_map_fst 0 nodes, List.flatMap_map]
  refine List.flatMap_congr fun e _ => ?_
  rw [List.map_map]
  rfl

structure Numbered (next : Nat → List (Int × Nat)) (seen queue : List (Int × Nat × Nat)) :
    Prop where
  entries_eq : entries next (nodesOf seen) = seen ++ queue
  nodup : (nodesOf seen).Nodup
  prev_le : ∀ (i : Nat) (e : Int × Nat × Nat), seen[i]? = some e → e.2.2 ≤ i

variable (h : t.Wf) (hnext : ∀ v, (next v).Perm (t.next v))

include h hnext

theorem nodup_children {nodes : List Nat} (hnodup : nodes.Nodup) :
    (nodes.flatMap fun v => (next v).map Prod.snd).Nodup := by
  refine List.nodup_flatMap.mpr ⟨fun v _ => ?_, hnodup.imp fun {v w} hne => ?_⟩
  · refine (List.Perm.nodup_iff ((hnext v).map _)).mpr ?_
    refine List.Nodup.map_on ?_ (List.Nodup.of_map _ (h.keys v))
    rintro ⟨token, c⟩ hc ⟨token', c'⟩ hc' rfl
    obtain ⟨_, rfl⟩ := h.unique hc hc'
    rfl
  · intro c hv hw
    obtain ⟨⟨token, c⟩, hc, rfl⟩ := List.mem_map.mp hv
    obtain ⟨⟨token', c'⟩, hc', heq⟩ := List.mem_map.mp hw
    obtain rfl : c' = c := heq
    exact hne (h.unique ((hnext v).mem_iff.mp hc) ((hnext w).mem_iff.mp hc')).1

variable {seen queue : List (Int × Nat × Nat)}

theorem Numbered.nodes_nodup (hn : Numbered next seen queue) :
    ((seen ++ queue).map (·.2.1)).Nodup ∧
      ∀ c ∈ (seen ++ queue).map (·.2.1), 0 < c ∧ c < t.cursor := by
  rw [← hn.entries_eq, map_node_entries]
  refine ⟨nodup_children h hnext hn.nodup, fun c hc => ?_⟩
  obtain ⟨v, _, hv⟩ := List.mem_flatMap.mp hc
  obtain ⟨⟨token, c⟩, hmem, rfl⟩ := List.mem_map.mp hv
  have hlt := h.child ((hnext v).mem_iff.mp hmem)
  exact ⟨Nat.zero_lt_of_lt hlt.1, hlt.2⟩

theorem Numbered.length_lt (hn : Numbered next seen queue) : (seen ++ queue).length < t.cursor := by
  obtain ⟨hnodup, hlt⟩ := hn.nodes_nodup h hnext
  have hsub : (seen ++ queue).map (·.2.1) ⊆ List.range' 1 (t.cursor - 1) := by
    intro c hc
    have hc := hlt c hc
    rw [List.mem_range'_1]
    omega
  have hle := (List.subperm_of_subset hnodup hsub).length_le
  have hpos := h.pos
  rw [List.length_map, List.length_range'] at hle
  omega

theorem Numbered.step {e : Int × Nat × Nat} (hn : Numbered next seen (e :: queue)) :
    Numbered next (seen ++ [e])
      (queue ++ (next e.2.1).map fun (token, c) => (token, c, seen.length + 1)) := by
  have hnodes : nodesOf (seen ++ [e]) = nodesOf seen ++ [e.2.1] := by simp [nodesOf]
  have hlen : (nodesOf seen).length = seen.length + 1 := by simp [nodesOf]
  obtain ⟨hnodup, hlt⟩ := hn.nodes_nodup h hnext
  refine ⟨?_, ?_, fun i e' he' => ?_⟩
  · rw [hnodes, entries_concat, hn.entries_eq, hlen, List.append_assoc, List.append_assoc]
    rfl
  · rw [nodesOf, List.nodup_cons]
    have hcut : (seen ++ e :: queue).map (·.2.1) =
        (seen ++ [e]).map (·.2.1) ++ queue.map (·.2.1) := by simp
    rw [hcut] at hnodup hlt
    refine ⟨fun hmem => ?_, hnodup.of_append_left⟩
    exact Nat.lt_irrefl 0 (hlt 0 (List.mem_append_left _ hmem)).1
  · by_cases hi : i < seen.length
    · rw [List.getElem?_append_left hi] at he'
      exact hn.prev_le i e' he'
    · obtain rfl : i = seen.length := by
        have := (List.getElem?_eq_some_iff.mp he').1
        rw [List.length_append, List.length_singleton] at this
        omega
      rw [List.getElem?_append_right (Nat.le_refl _), Nat.sub_self, List.getElem?_cons_zero] at he'
      obtain rfl := Option.some.inj he'
      have hmem : (e.1, e.2.1, e.2.2) ∈ entries next (nodesOf seen) := by
        rw [hn.entries_eq]
        exact List.mem_append_right _ List.mem_cons_self
      obtain ⟨v, hv, _⟩ := mem_entries.mp hmem
      have hlt := (List.getElem?_eq_some_iff.mp hv).1
      omega

theorem fillLoop_spec (fuel : Nat) (lastToken : Int)
    (hn : Numbered next seen queue) (hfuel : t.cursor ≤ fuel + seen.length + 1) :
    ∃ seen', fillLoop next fuel queue (lastToken :: seen.map (·.1))
        (none :: seen.map fun e => some e.2.2) =
      some (lastToken :: seen'.map (·.1), none :: seen'.map fun e => some e.2.2) ∧
      Numbered next seen' [] := by
  induction fuel generalizing seen queue with
  | zero =>
      have hlt := hn.length_lt h hnext
      cases queue with
      | nil => exact ⟨seen, by rw [fillLoop], hn⟩
      | cons e queue =>
          rw [List.length_append, List.length_cons] at hlt
          omega
  | succ fuel ih =>
      cases queue with
      | nil => exact ⟨seen, by rw [fillLoop], hn⟩
      | cons e queue =>
          obtain ⟨seen', hloop, hn'⟩ := ih (hn.step h hnext)
            (by rw [List.length_append, List.length_singleton]; omega)
          refine ⟨seen', ?_, hn'⟩
          rw [← hloop]
          simp [fillLoop]

end FillLoop

/-- The links of the numbered nodes; what is padded hangs under the root. -/
def Numbered.tree {next : Nat → List (Int × Nat)} {seen queue : List (Int × Nat × Nat)}
    (hn : Numbered next seen queue) : ParentTree where
  parent i := (seen[i - 1]?.map (·.2.2)).getD 0
  parent_lt i hi := by
    cases he : seen[i - 1]? with
    | none => exact hi
    | some e => exact Nat.lt_of_le_of_lt (hn.prev_le (i - 1) e he) (by omega)

theorem Numbered.parent_eq {next : Nat → List (Int × Nat)} {seen queue : List (Int × Nat × Nat)}
    (hn : Numbered next seen queue) (i : Nat) :
    hn.tree.parent i = (seen[i - 1]?.map (·.2.2)).getD 0 := rfl

/-- Row `i` marks token `i` and its ancestors. -/
def Marks (p : ParentTree) (n : Nat) (mask : Nat → Bool) (i : Nat) : Prop :=
  ∀ j, j < n → (mask (i * n + j) = true ↔ j = i ∨ p.Ancestor j i)

section Mask

variable {p : ParentTree} {n : Nat} {prevs : List (Option Nat)}

theorem fillRow_other {mask : Nat → Bool} {i r j : Nat} (hi : i < n) (hj : j < n) (hr : r ≠ i)
    (hprev : ∀ prev, prevs.getD i none = some prev → prev < n) :
    fillRow n prevs mask i (r * n + j) = mask (r * n + j) := by
  have houtside := window_outside hj (Ne.symm hr)
  unfold fillRow
  rw [update_of_ne (by omega)]
  cases hp : prevs.getD i none with
  | none => rfl
  | some prev =>
      have hlt := hprev prev hp
      exact fill_outside (by omega)

theorem fillRow_self {mask : Nat → Bool} {i : Nat} (hi : i < n)
    (hprev : prevs.getD i none = if i = 0 then none else some (p.parent i))
    (hparent : 0 < i → Marks p n mask (p.parent i))
    (hclear : ∀ j, j < n → j ≠ i → mask (i * n + j) = false) :
    Marks p n (fillRow n prevs mask i) i := by
  intro j hj
  unfold fillRow
  by_cases hji : j = i
  · subst hji
    simp
  rw [update_of_ne (by omega), hprev]
  by_cases h0 : i = 0
  · subst h0
    simp only [if_pos, hclear j hj hji, hji, false_or, Bool.false_eq_true, false_iff]
    exact fun hanc => absurd hanc.lt (Nat.not_lt_zero j)
  · have hpos : 0 < i := Nat.pos_of_ne_zero h0
    have hlt := p.parent_lt i hpos
    simp only [if_neg h0, hji, false_or, p.ancestor_iff_parent hpos]
    by_cases hle : j < p.parent i + 1
    · rw [fill_inside hle]
      exact hparent hpos j hj
    · rw [fill_outside (by omega), hclear j hj hji]
      simp only [Bool.false_eq_true, false_iff, not_or]
      exact ⟨by omega, fun hanc => absurd hanc.lt (by omega)⟩

theorem fillRows_spec (hprev : ∀ i, i < n →
    prevs.getD i none = if i = 0 then none else some (p.parent i)) {k : Nat} (hk : k ≤ n) :
    (∀ i, i < k → Marks p n
      ((List.range k).foldl (fillRow n prevs) (update (fun _ => false) 0 true)) i) ∧
    ∀ i j, k ≤ i → i < n → j < n → j ≠ i →
      (List.range k).foldl (fillRow n prevs) (update (fun _ => false) 0 true) (i * n + j) =
        false := by
  induction k with
  | zero =>
      refine ⟨nofun, fun i j _ hi hj hij => ?_⟩
      rw [List.range_zero, List.foldl_nil, update_of_ne]
      intro hzero
      have hzero' := Nat.add_eq_zero_iff.mp hzero
      rcases Nat.mul_eq_zero.mp hzero'.1 with h0 | h0 <;> omega
  | succ k ih =>
      obtain ⟨hmarks, hclear⟩ := ih (by omega)
      have hlt : ∀ prev, prevs.getD k none = some prev → prev < n := by
        intro prev hp
        rw [hprev k hk] at hp
        split at hp
        · cases hp
        · next h0 =>
            have hlt := p.parent_lt k (Nat.pos_of_ne_zero h0)
            have heq := Option.some.inj hp
            omega
      rw [List.range_succ, List.foldl_append, List.foldl_cons, List.foldl_nil]
      refine ⟨fun i hi => ?_, fun i j hi hin hj hij => ?_⟩
      · rcases Nat.lt_succ_iff_lt_or_eq.mp hi with hik | rfl
        · intro j hj
          rw [fillRow_other hk hj (by omega) hlt]
          exact hmarks i hik j hj
        · exact fillRow_self hk (hprev i hk) (fun hpos => hmarks _ (p.parent_lt i hpos))
            (fun j hj hij => hclear i j (Nat.le_refl _) hk hj hij)
      · rw [fillRow_other hk hj (by omega) hlt]
        exact hclear i j (by omega) hin hj hij

end Mask

/-- The result `r` of `n` tokens numbers the tree as the list `nodes`, with parents `p`. -/
structure Filled (t : DraftTree) (next : Nat → List (Int × Nat)) (lastToken : Int) (n : Nat)
    (nodes : List Nat) (p : ParentTree) (r : Result) : Prop where
  visits : BreadthFirst.Visits (fun v => (next v).map Prod.snd) 0 nodes
  perm : nodes.Perm (List.range t.cursor)
  length : r.token.length = n
  first : r.token[0]? = some lastToken
  node : ∀ i, 0 < i → i < t.cursor →
    (r.token.getD i 0, nodes.getD i 0) ∈ next (nodes.getD (p.parent i) 0)
  pad : ∀ i, t.cursor ≤ i → i < n → r.token.getD i 0 = 0 ∧ p.parent i = 0
  marks : ∀ i, i < n → Marks p n r.mask i

theorem getD_padded {α β : Type} (x : β) (l : List α) (f : α → β) {m i : Nat} (y d : β)
    (hi : i < l.length + 1 + m) :
    (x :: l.map f ++ List.replicate m y).getD i d = if i =
    0 then x else (l[i - 1]?.map f).getD y := by
  cases i with
  | zero => rfl
  | succ i =>
      rw [List.cons_append, List.getD_cons_succ, if_neg (Nat.succ_ne_zero i), Nat.add_sub_cancel,
        List.getD_eq_getElem?_getD]
      by_cases hlt : i < l.length
      · rw [List.getElem?_append_left (by rwa [List.length_map]), List.getElem?_map,
          List.getElem?_eq_getElem hlt]
        rfl
      · rw [List.getElem?_append_right (by rw [List.length_map]; omega), List.length_map,
          List.getElem?_replicate, if_pos (by omega), List.getElem?_eq_none (by omega)]
        rfl

section FillResult

variable {t : DraftTree} {next : Nat → List (Int × Nat)}
variable (h : t.Wf) (hnext : ∀ v, (next v).Perm (t.next v))

include h hnext

theorem Numbered.perm {seen : List (Int × Nat × Nat)} (hn : Numbered next seen []) :
    (nodesOf seen).Perm (List.range t.cursor) := by
  refine (List.perm_ext_iff_of_nodup hn.nodup List.nodup_range).mpr fun c => ?_
  have hnodes := hn.nodes_nodup h hnext
  rw [List.append_nil] at hnodes
  rw [List.mem_range]
  constructor
  · intro hc
    rcases List.mem_cons.mp hc with rfl | hc
    · exact h.pos
    · exact (hnodes.2 c hc).2
  · induction c using Nat.strongRecOn with
    | ind c ih =>
        intro hlt
        rcases Nat.eq_zero_or_pos c with rfl | hc
        · exact List.mem_cons_self
        obtain ⟨v, token, hmem⟩ := h.reach c hc hlt
        have hv := ih v (h.child hmem).1 (Nat.lt_trans (h.child hmem).1 hlt)
        obtain ⟨k, hk⟩ := List.mem_iff_getElem?.mp hv
        have hentry := mem_entries.mpr ⟨v, hk, (hnext v).mem_iff.mpr hmem⟩
        rw [hn.entries_eq, List.append_nil] at hentry
        exact List.mem_cons_of_mem _ (List.mem_map.mpr ⟨_, hentry, rfl⟩)

theorem Numbered.length_eq {seen : List (Int × Nat × Nat)} (hn : Numbered next seen []) :
    seen.length + 1 = t.cursor := by
  have hlen := (hn.perm h hnext).length_eq
  rw [List.length_range] at hlen
  simpa [nodesOf] using hlen

/-- A tree with room for its nodes is numbered breadth-first and marked. -/
theorem fillResult_spec {n : Nat} (hroom : t.cursor ≤ n) (lastToken : Int) :
    ∃ r nodes p, fillResult next lastToken n = some r ∧ Filled t next lastToken n nodes p r := by
  have hinit : Numbered next [] ((next 0).map fun (t, n) => (t, n, 0)) := by
    refine ⟨by simp [entries, nodesOf], by simp [nodesOf], nofun⟩
  obtain ⟨seen, hloop, hn⟩ := fillLoop_spec h hnext n lastToken hinit
    (by simp only [List.length_nil]; omega)
  have hlen := hn.length_eq h hnext
  have hentries := hn.entries_eq
  rw [List.append_nil] at hentries
  have hroom' : ∀ i, i < n → i < seen.length + 1 + (n - t.cursor) := by omega
  have hprev : ∀ i, i < n → (none :: seen.map (fun e : Int × Nat × Nat => some e.2.2) ++
      List.replicate (n - t.cursor) (some 0)).getD i none =
        if i = 0 then none else some (hn.tree.parent i) := by
    intro i hi
    rw [getD_padded _ _ _ _ _ (hroom' i hi), hn.parent_eq]
    cases seen[i - 1]? <;> rfl
  have htoken : ∀ i, i < n → (lastToken :: seen.map (fun e : Int × Nat × Nat => e.1) ++
      List.replicate (n - t.cursor) 0).getD i 0 =
        if i = 0 then lastToken else (seen[i - 1]?.map (·.1)).getD 0 :=
    fun i hi => getD_padded _ _ _ _ _ (hroom' i hi)
  have hlength : (lastToken :: seen.map (fun e : Int × Nat × Nat => e.1) ++
      List.replicate (n - t.cursor) 0).length = n := by
    simp only [List.length_append, List.length_cons, List.length_map, List.length_replicate]
    omega
  have hexec : fillResult next lastToken n = some
      ⟨lastToken :: seen.map (fun e : Int × Nat × Nat => e.1) ++ List.replicate (n - t.cursor) 0,
        (List.range n).foldl (fillRow n (none :: seen.map (fun e : Int × Nat × Nat => some e.2.2) ++
          List.replicate (n - t.cursor) (some 0))) (update (fun _ => false) 0 true)⟩ := by
    rw [fillResult, List.map_nil, List.map_nil] at *
    rw [hloop, Option.map_some]
    simp only [List.length_cons, List.length_map, hlen, hlength]
  refine ⟨_, nodesOf seen, hn.tree, hexec, ?_, hn.perm h hnext, hlength, rfl, fun i hi hlt => ?_,
    fun i hi hlt => ?_, fun i hi => (fillRows_spec hprev (Nat.le_refl n)).1 i hi⟩
  · rw [BreadthFirst.Visits, ← map_node_entries, hentries]
    rfl
  · obtain ⟨e, he⟩ : ∃ e, seen[i - 1]? = some e := ⟨_, List.getElem?_eq_getElem (by omega)⟩
    have hnode : (nodesOf seen).getD i 0 = e.2.1 := by
      obtain ⟨k, rfl⟩ : ∃ k, i = k + 1 := ⟨i - 1, by omega⟩
      rw [Nat.add_sub_cancel] at he
      simp [nodesOf, List.getD_eq_getElem?_getD, he]
    have hentry : (e.1, e.2.1, e.2.2) ∈ entries next (nodesOf seen) := by
      rw [hentries]
      exact List.mem_of_getElem? he
    obtain ⟨v, hv, hmem⟩ := mem_entries.mp hentry
    have hparent : (nodesOf seen).getD (hn.tree.parent i) 0 = v := by
      rw [hn.parent_eq, he, List.getD_eq_getElem?_getD]
      simp only [Option.map_some, Option.getD_some, hv]
    rw [htoken i (by omega), if_neg (by omega), hnode, hparent, he]
    exact hmem
  · have hnone : seen[i - 1]? = none := List.getElem?_eq_none (by omega)
    rw [htoken i hlt, if_neg (by omega), hn.parent_eq, hnone]
    exact ⟨rfl, rfl⟩

end FillResult

end SpecDecode.Ngram
