import SpecDecode.Gateway.TreeInsert

/-!
# Evicting and removing tenants

Both loops take a tenant off a node that is a leaf for it, cut the node off once it is empty,
and go on with its parent. `Detached` says what such a step does.
-/

namespace SpecDecode.Gateway

open Function RadixTree

namespace Tree

variable {t t' : Tree} {live live' : Finset Nat} {u v w : Nat} {x y tenant : String} {o : Order}
variable {p : List Char}

structure Detached (t t' : Tree) (live live' : Finset Nat) (v : Nat) (x : String) : Prop where
  shape : t'.Shape live'
  carries w y : t'.Carries w y ↔ t.Carries w y ∧ ¬ (w = v ∧ y = x)
  tenants w : (t'.nodes w).tenantLastAccessTime = if w = v then
    (t.nodes v).tenantLastAccessTime.erase x else (t.nodes w).tenantLastAccessTime
  text w : (t'.nodes w).text = (t.nodes w).text
  parent w : (t'.nodes w).parent = (t.nodes w).parent
  next : t'.next = t.next
  counts : t'.tenantCharCount = t.tenantCharCount
  child w c u : w = root ∨ w ∈ live → ((t'.nodes w).children.lookup c = some u ↔
    (t.nodes w).children.lookup c = some u ∧ u ∈ live')
  subset : live' ⊆ live
  gone w : w ∈ live → w ∉ live' → w = v ∧ ∀ y, ¬ t'.Carries v y
  spells w p : Spells t'.shape root w p ↔ Spells t.shape root w p ∧ (w = root ∨ w ∈ live')

theorem isEmpty_iff {κ ν : Type} {m : AList fun _ : κ => ν} :
    m.entries.isEmpty = true ↔ ∀ k, k ∉ m := by
  rw [List.isEmpty_iff, List.eq_nil_iff_forall_not_mem]
  constructor
  · intro hnil k hk
    obtain ⟨e, he, _⟩ := List.mem_map.mp hk
    exact hnil e he
  · intro hnone e he
    exact hnone e.1 (List.mem_map.mpr ⟨e, he, rfl⟩)

theorem eraseTime_frame (t : Tree) (v : Nat) (x : String) : Frame t (t.eraseTime v x) := by
  refine ⟨fun w => ?_, fun w => ?_, fun w => ?_, rfl⟩
  all_goals
    by_cases hw : w = v
    · subst hw
      simp [eraseTime, modify]
    · simp [eraseTime, modify, hw]

theorem eraseTime_tenants (t : Tree) (v w : Nat) (x : String) :
    ((t.eraseTime v x).nodes w).tenantLastAccessTime = if w = v then
      (t.nodes v).tenantLastAccessTime.erase x else (t.nodes w).tenantLastAccessTime := by
  by_cases hw : w = v
  · subst hw
    simp [eraseTime, modify]
  · simp [eraseTime, modify, hw]

theorem carries_of_tenants (h : ∀ w, (t'.nodes w).tenantLastAccessTime = if w = v then
      (t.nodes v).tenantLastAccessTime.erase x else (t.nodes w).tenantLastAccessTime) (w : Nat)
    (y : String) : t'.Carries w y ↔ t.Carries w y ∧ ¬ (w = v ∧ y = x) := by
  unfold Carries
  rw [h w]
  by_cases hw : w = v
  · rw [if_pos hw, AList.mem_erase, hw]
    tauto
  · rw [if_neg hw]
    simp [hw]

theorem detach_cases (h : t.Shape live) (hleaf : t.Leaf v x) :
    (∃ u c, (u = root ∨ u ∈ live) ∧ v ∈ live ∧ (t.nodes u).children.lookup c = some v ∧
      (∀ c, (t.nodes v).children.lookup c = none) ∧ (∀ y, ¬ (t.eraseTime v x).Carries v y) ∧
      t.detach v x = (t.eraseTime v x).modify u fun p =>
      { p with children := p.children.erase c }) ∨
    t.detach v x = t.eraseTime v x ∧ (v ∈ live → ∃ y, (t.eraseTime v x).Carries v y) := by
  have hframe := eraseTime_frame t v x
  simp only [detach, hframe.children, hframe.parent, hframe.text]
  split
  · next hempty =>
      rw [Bool.and_eq_true, isEmpty_iff, isEmpty_iff] at hempty
      rcases h.live_of_carries v x hleaf.1 with rfl | hv
      · rw [h.rootParent]
        exact .inr ⟨rfl, fun hroot => absurd hroot h.wf.root_notMem⟩
      · obtain ⟨u, c, hu, hparent, hc⟩ := h.wf.parent v hv
        have hhead := (h.child hu hc).2.2
        have hparent' : (t.nodes v).parent = some u := hparent
        rw [hparent', NodeText.firstChar, hhead]
        exact .inl ⟨u, c, hu, hv, hc, fun c' => AList.lookup_eq_none.mpr (hempty.1 c'),
          hempty.2, rfl⟩
  · next hempty =>
      refine .inr ⟨rfl, fun hv => ?_⟩
      by_contra hnone
      rw [not_exists] at hnone
      -- a child has a tenant other than `x`, which the node has too
      refine hempty (Bool.and_eq_true_iff.mpr
        ⟨isEmpty_iff.mpr fun c hc => ?_, isEmpty_iff.mpr hnone⟩)
      obtain ⟨w, hw⟩ := Option.isSome_iff_exists.mp (AList.lookup_isSome.mpr hc)
      obtain ⟨y, hy⟩ := h.owned w (h.child (.inr hv) hw).1
      refine hnone y ((carries_of_tenants (fun w => eraseTime_tenants t v w x) v y).mpr
        ⟨h.closed v c w y (.inr hv) hw hy, ?_⟩)
      rintro ⟨_, rfl⟩
      exact hleaf.2 c w hw hy

theorem lookup_erase_eq_update {κ ν : Type} [DecidableEq κ] (m : AList fun _ : κ => ν) (k : κ) :
    (fun k' => (m.erase k).lookup k') = update (fun k' => m.lookup k') k none := by
  funext k'
  by_cases hk : k' = k
  · subst hk
    simp
  · rw [update_of_ne hk, AList.lookup_erase_ne hk]

theorem Shape.of_detach (h : t.Shape live) (hleaf : t.Leaf v x) (hwf : Wf t'.shape root live')
    (hcarries : ∀ w y, t'.Carries w y ↔ t.Carries w y ∧ ¬ (w = v ∧ y = x))
    (htext : ∀ w, (t'.nodes w).text = (t.nodes w).text)
    (hparent : ∀ w, (t'.nodes w).parent = (t.nodes w).parent) (hnext : t'.next = t.next)
    (hchild : ∀ w c u, w = root ∨ w ∈ live → ((t'.nodes w).children.lookup c = some u ↔
      (t.nodes w).children.lookup c = some u ∧ u ∈ live'))
    (hsubset : live' ⊆ live) (hgone : ∀ w ∈ live, w ∉ live' → w = v ∧ ∀ y, ¬ t'.Carries v y)
    (hleft : v ∈ live' → ∃ y, t'.Carries v y) : t'.Shape live' := by
  have hold {w : Nat} (hw : w = root ∨ w ∈ live') : w = root ∨ w ∈ live := hw.imp_right (hsubset ·)
  refine ⟨hwf, fun w hw => ?_, fun w hw => ?_, fun u c w y hu hc hy => ?_, fun w hw => ?_,
    fun w y hy => ?_, ?_, ?_⟩
  · rw [hnext]
    exact h.lt_next w (hold hw)
  · rw [htext]
    exact h.charCount w (hold hw)
  · have hc' := ((hchild u c w (hold hu)).mp hc).1
    have hy' := ((hcarries w y).mp hy).1
    refine (hcarries u y).mpr ⟨h.closed u c w y (hold hu) hc' hy', ?_⟩
    rintro ⟨rfl, rfl⟩
    exact hleaf.2 c w hc' hy'
  · by_cases hwv : w = v
    · subst hwv
      exact hleft hw
    · obtain ⟨y, hy⟩ := h.owned w (hsubset hw)
      exact ⟨y, (hcarries w y).mpr ⟨hy, fun heq => hwv heq.1⟩⟩
  · rcases h.live_of_carries w y ((hcarries w y).mp hy).1 with hroot | hw
    · exact .inl hroot
    · refine .inr ?_
      by_contra hnot
      obtain ⟨rfl, hnone⟩ := hgone w hw hnot
      exact hnone y hy
  · rw [htext]
    exact h.rootText
  · rw [hparent]
    exact h.rootParent

theorem exists_detached (h : t.Shape live) (hleaf : t.Leaf v x) :
    ∃ live', Detached t (t.detach v x) live live' v x := by
  have hframe := eraseTime_frame t v x
  rcases detach_cases h hleaf with ⟨u, c, hu, hv, hc, hnone, hdead, heq⟩ | ⟨heq, hleft⟩
  · have hnodes (w : Nat) : (t.detach v x).nodes w = if w = u then
        { (t.eraseTime v x).nodes u with children := ((t.eraseTime v x).nodes u).children.erase c }
        else (t.eraseTime v x).nodes w := by
      rw [heq]
      exact update_apply _ _ _ _
    have htenants (w : Nat) : ((t.detach v x).nodes w).tenantLastAccessTime = if w = v then
        (t.nodes v).tenantLastAccessTime.erase x else (t.nodes w).tenantLastAccessTime := by
      rw [← eraseTime_tenants, hnodes]
      split
      · next hw => rw [hw]
      · rfl
    have htext (w : Nat) : ((t.detach v x).nodes w).text = (t.nodes w).text := by
      rw [← hframe.text, hnodes]
      split
      · next hw => rw [hw]
      · rfl
    have hparent (w : Nat) : ((t.detach v x).nodes w).parent = (t.nodes w).parent := by
      rw [← hframe.parent, hnodes]
      split
      · next hw => rw [hw]
      · rfl
    have hremove : RemoveLeaf t.shape (t.detach v x).shape root live u v c := by
      refine ⟨hu, hc, hnone, ?_, fun w hw => ?_⟩
      · simp only [Tree.shape, htext, hparent]
        rw [hnodes, if_pos rfl, ← lookup_erase_eq_update, hframe.children]
      · simp only [Tree.shape, htext, hparent]
        rw [hnodes, if_neg hw, hframe.children]
    have hcarries := carries_of_tenants htenants
    have hchild (w : Nat) (c' : Char) (u' : Nat) (hw : w = root ∨ w ∈ live) :
        ((t.detach v x).nodes w).children.lookup c' = some u' ↔
          (t.nodes w).children.lookup c' = some u' ∧ u' ∈ live.erase v := by
      refine (hremove.child_iff h.wf hw).trans (and_congr_right fun hc' => ?_)
      rw [Finset.mem_erase]
      exact ⟨fun hne => ⟨hne, (h.child hw hc').1⟩, fun hmem => hmem.1⟩
    have hgone (w : Nat) (hw : w ∈ live) (hnot : w ∉ live.erase v) :
        w = v ∧ ∀ y, ¬ (t.detach v x).Carries v y := by
      refine ⟨by_contra fun hne => hnot (Finset.mem_erase_of_ne_of_mem hne hw), fun y hy => ?_⟩
      exact hdead y ((carries_of_tenants (fun w => eraseTime_tenants t v w x) v y).mpr
        ((hcarries v y).mp hy))
    have hnext : (t.detach v x).next = t.next := by
      rw [heq]
      rfl
    refine ⟨live.erase v, h.of_detach hleaf (hremove.wf h.wf) hcarries htext hparent hnext hchild
      (Finset.erase_subset _ _) hgone (fun hv => absurd hv (Finset.notMem_erase _ _)),
      hcarries, htenants, htext, hparent, hnext, by rw [heq]; rfl, hchild, Finset.erase_subset _ _,
      hgone, fun w p => ?_⟩
    refine (hremove.spells_iff h.wf).trans (and_congr_right fun hw => ?_)
    rw [Finset.mem_erase]
    have hlive := h.wf.spells_live hw
    have hroot : root ≠ v := fun heq => h.wf.root_notMem (heq ▸ hv)
    constructor
    · intro hne
      exact hlive.imp_right fun hmem => ⟨hne, hmem⟩
    · rintro (rfl | hmem)
      · exact hroot
      · exact hmem.1
  · have htenants := fun w => eraseTime_tenants t v w x
    have hcarries := carries_of_tenants htenants
    have hchild (w : Nat) (c : Char) (u : Nat) (hw : w = root ∨ w ∈ live) :
        ((t.eraseTime v x).nodes w).children.lookup c = some u ↔
          (t.nodes w).children.lookup c = some u ∧ u ∈ live := by
      rw [hframe.children]
      exact ⟨fun hc => ⟨hc, (h.child hw hc).1⟩, fun hc => hc.1⟩
    rw [heq]
    refine ⟨live, h.of_detach hleaf (hframe.shape_eq ▸ h.wf) hcarries hframe.text hframe.parent rfl
      hchild (Finset.Subset.refl _) (fun w hw hnot => absurd hw hnot) hleft, hcarries, htenants,
      hframe.text, hframe.parent, rfl, rfl, hchild, Finset.Subset.refl _,
      fun w hw hnot => absurd hw hnot, fun w p => ?_⟩
    rw [hframe.shape_eq]
    exact ⟨fun hw => ⟨hw, h.wf.spells_live hw⟩, fun hw => hw.1⟩

theorem length_erase_lt {κ ν : Type} [DecidableEq κ] {m : AList fun _ : κ => ν} {k : κ}
    (hk : k ∈ m) : (m.erase k).entries.length < m.entries.length := by
  have hlen {l : List (Sigma fun _ : κ => ν)} : l.keys.length = l.length := List.length_map _
  have herase : (m.erase k).entries.keys = m.entries.keys.erase k := List.keys_kerase
  have hk : k ∈ m.entries.keys := hk
  have hpos := List.length_pos_of_mem hk
  rw [← hlen, herase, List.length_erase_of_mem hk, ← @hlen m.entries]
  exact Nat.sub_lt hpos Nat.one_pos

namespace Detached

variable (hs : Detached t t' live live' v x)

include hs

theorem live_of_carries (hw : w ∈ live) (hy : t'.Carries w y) : w ∈ live' := by
  by_contra hnot
  obtain ⟨rfl, hnone⟩ := hs.gone w hw hnot
  exact hnone y hy

theorem holds_of (h : t'.Holds y p) : t.Holds y p := by
  obtain ⟨w, q, hw, hy, hp⟩ := h
  exact ⟨w, q, ((hs.spells w q).mp hw).1, ((hs.carries w y).mp hy).1, hp⟩

theorem holds_iff (h : t.Shape live) (hy : y ≠ x) : t'.Holds y p ↔ t.Holds y p := by
  refine ⟨hs.holds_of, ?_⟩
  rintro ⟨w, q, hw, hcarries, hp⟩
  have hkept := (hs.carries w y).mpr ⟨hcarries, fun heq => hy heq.2⟩
  exact ⟨w, q, (hs.spells w q).mpr
    ⟨hw, (h.wf.spells_live hw).imp_right (hs.live_of_carries · hkept)⟩, hkept, hp⟩

theorem used_add (h : t.Shape live) (hx : t.Carries v x) (y : String) :
    t'.used live' y + (if y = x then (t.nodes v).text.charCount else 0) = t.used live y := by
  have hwide : t'.used live' y = ∑ w ∈ live, t'.weight y w := by
    refine Finset.sum_subset hs.subset fun w hw hnot => weight_of_not_carries fun hy => ?_
    exact hnot (hs.live_of_carries hw hy)
  have hsame {w : Nat} (hne : ¬ (w = v ∧ y = x)) : t'.weight y w = t.weight y w := by
    refine weight_congr ?_ fun _ => hs.text w
    rw [hs.carries]
    exact ⟨fun hw => hw.1, fun hw => ⟨hw, hne⟩⟩
  rw [hwide]
  by_cases hy : y = x
  · subst hy
    rw [if_pos rfl]
    rcases h.live_of_carries v y hx with rfl | hv
    · rw [h.charCount root (.inl rfl), h.rootText, List.length_nil, Nat.add_zero]
      exact Finset.sum_congr rfl fun w hw => hsame fun heq => h.wf.root_notMem (heq.1 ▸ hw)
    · have hsum : ∑ w ∈ live, t'.weight y w + t.weight y v = ∑ w ∈ live, t.weight y w +
          t'.weight y v :=
        sum_change hv fun w _ hw => hsame fun heq => hw heq.1
      have hgone : ¬ t'.Carries v y := fun hcarries => ((hs.carries v y).mp hcarries).2 ⟨rfl, rfl⟩
      rw [weight_of_carries hx, weight_of_not_carries hgone] at hsum
      exact hsum
  · rw [if_neg hy, Nat.add_zero]
    exact Finset.sum_congr rfl fun w _ => hsame fun heq => hy heq.2

theorem leaf_of (h : t.Leaf w y) (hlive : w = root ∨ w ∈ live) (hne : ¬ (w = v ∧ y = x)) :
    t'.Leaf w y := by
  refine ⟨(hs.carries w y).mpr ⟨h.1, hne⟩, fun c u hc hu => ?_⟩
  exact h.2 c u ((hs.child w c u hlive).mp hc).1 ((hs.carries u y).mp hu).1

/-- Only the parent can become a leaf, and only for the tenant that was taken off. -/
theorem leaf_cases (h : t.Shape live) (hw : t'.Leaf w y) :
    t.Leaf w y ∧ ¬ (w = v ∧ y = x) ∨ y = x ∧ (t.nodes v).parent = some w := by
  obtain ⟨hcarries, hne⟩ := (hs.carries w y).mp hw.1
  have hlive := h.live_of_carries w y hcarries
  by_cases hleaf : t.Leaf w y
  · exact .inl ⟨hleaf, hne⟩
  · have hchild : ∃ c u, (t.nodes w).children.lookup c = some u ∧ t.Carries u y := by
      by_contra hnone
      refine hleaf ⟨hcarries, fun c u hc hu => hnone ⟨c, u, hc, hu⟩⟩
    obtain ⟨c, u, hc, hu⟩ := hchild
    obtain ⟨hulive, hparent, _⟩ := h.child hlive hc
    -- the child with the tenant has lost it
    have hlost : ¬ t'.Carries u y := fun hkept =>
      hw.2 c u ((hs.child w c u hlive).mpr ⟨hc, hs.live_of_carries hulive hkept⟩) hkept
    rw [hs.carries] at hlost
    obtain ⟨rfl, rfl⟩ : u = v ∧ y = x := by tauto
    exact .inr ⟨rfl, hparent⟩

theorem tenancies_lt (h : t.Shape live) (hx : t.Carries v x) : t'.tenancies < t.tenancies := by
  have hv : v ∈ Finset.range t.next := Finset.mem_range.mpr (h.lt_next v (h.live_of_carries v x hx))
  have hsum := sum_change (g := fun w => (t'.nodes w).tenantLastAccessTime.entries.length)
    (f := fun w => (t.nodes w).tenantLastAccessTime.entries.length) hv fun w _ hw => by
      rw [hs.tenants, if_neg hw]
  have hlen := length_erase_lt hx
  rw [hs.tenants, if_pos rfl] at hsum
  have htotal : t.tenancies =
      ∑ w ∈ Finset.range t.next, (t.nodes w).tenantLastAccessTime.entries.length := rfl
  have htotal' : t'.tenancies =
      ∑ w ∈ Finset.range t.next, (t'.nodes w).tenantLastAccessTime.entries.length := by
    rw [← hs.next]
    rfl
  rw [htotal, htotal']
  omega

end Detached

theorem Shape.rooted (h : t.Shape live) :
    DepthFirst.Rooted (t.kids o) root (Insert.insert root live) := by
  refine ⟨Finset.mem_insert_self _ _, fun hv hw => ?_, fun {v} hv => ?_, fun hu hv hwu hwv => ?_,
    fun hv hroot => ?_⟩
  · obtain ⟨c, hc⟩ := mem_kids.mp hw
    exact Finset.mem_insert_of_mem (h.child (Finset.mem_insert.mp hv) hc).1
  · -- a child is listed once, under the first character of its text
    have hnodup := (o.iter_perm (t.nodes v).children).nodup_iff.mpr
      (t.nodes v).children.nodupKeys.nodup
    refine List.Nodup.map_on (fun ⟨c, w⟩ hc ⟨c', w'⟩ hc' heq => ?_) hnodup
    obtain rfl : w = w' := heq
    have hhead := (h.child (Finset.mem_insert.mp hv) (o.mem_iter.mp hc)).2.2
    have hhead' := (h.child (Finset.mem_insert.mp hv) (o.mem_iter.mp hc')).2.2
    obtain rfl := Option.some.inj (hhead.symm.trans hhead')
    rfl
  · obtain ⟨c, hc⟩ := mem_kids.mp hwu
    obtain ⟨c', hc'⟩ := mem_kids.mp hwv
    have hparent := (h.child (Finset.mem_insert.mp hu) hc).2.1
    have hparent' := (h.child (Finset.mem_insert.mp hv) hc').2.1
    exact Option.some.inj (hparent.symm.trans hparent')
  · obtain ⟨c, hc⟩ := mem_kids.mp hroot
    exact h.wf.root_notMem (h.child (Finset.mem_insert.mp hv) hc).1

theorem Shape.visited (h : t.Shape live) (o : Order) : (t.visited o).Nodup ∧
    ∀ v, v ∈ t.visited o ↔ v = root ∨ v ∈ live := by
  have hcard : (Insert.insert root live).card ≤ t.next := by
    rw [← Finset.card_range t.next]
    exact Finset.card_le_card fun v hv =>
      Finset.mem_range.mpr (h.lt_next v (Finset.mem_insert.mp hv))
  obtain ⟨hnodup, hmem⟩ := DepthFirst.collect_root (h.rooted (o := o)) hcard
  refine ⟨hnodup, fun v => ?_⟩
  rw [Tree.visited, hmem, ← h.wf.below_root_iff]
  have hrel : (fun u w => w ∈ t.kids o u) = fun u w => ∃ c, (t.shape u).child c = some w := by
    funext u w
    exact propext mem_kids
  rw [hrel, Below]

theorem lookup_foldl_insert {κ ν : Type} [DecidableEq κ] {β : Type}
    (l : List (Sigma fun _ : κ => β)) (b : ν) (m : AList fun _ : κ => ν) (k : κ) :
    (l.foldl (fun m e => m.insert e.1 b) m).lookup k =
      if k ∈ l.map (·.1) then some b else m.lookup k := by
  induction l generalizing m with
  | nil => rfl
  | cons e l ih =>
      rw [List.foldl_cons, ih, List.map_cons]
      by_cases hk : k ∈ l.map (·.1)
      · rw [if_pos hk, if_pos (List.mem_cons_of_mem _ hk)]
      · rw [if_neg hk]
        by_cases hke : k = e.1
        · rw [if_pos (by rw [hke]; exact List.mem_cons_self), hke, AList.lookup_insert]
        · rw [if_neg (by simp [hke, hk]), AList.lookup_insert_ne hke]

theorem mem_map_iter (m : AList fun _ : String => Nat) : x ∈ (o.iter m).map (·.1) ↔ x ∈ m := by
  rw [((o.iter_perm m).map _).mem_iff]
  rfl

private theorem lookup_foldl_children (l : List Nat) (m : AList fun _ : String => Bool) :
    (l.foldl (fun m child => (o.iter (t.nodes child).tenantLastAccessTime).foldl
      (fun m e => m.insert e.1 false) m) m).lookup x =
      if l.any (fun child => t.containsKey child x) then some false else m.lookup x := by
  induction l generalizing m with
  | nil => rfl
  | cons child l ih =>
      rw [List.foldl_cons, ih, lookup_foldl_insert, List.any_cons]
      by_cases hl : l.any fun child => t.containsKey child x
      · rw [hl, Bool.or_true, if_pos rfl, if_pos rfl]
      · rw [if_neg hl, Bool.eq_false_iff.mpr hl, Bool.or_false]
        simp only [mem_map_iter, containsKey_iff, Carries]

theorem mem_leafOf : x ∈ t.leafOf o v ↔ t.Leaf v x := by
  rw [← leaf_iff (o := o)]
  simp only [leafOf, List.mem_map, List.mem_filter]
  constructor
  · rintro ⟨⟨k, b⟩, ⟨hk, hb⟩, rfl⟩
    obtain rfl : b = true := hb
    have hlookup := o.mem_iter.mp hk
    rw [lookup_foldl_children, lookup_foldl_insert] at hlookup
    split at hlookup
    · cases hlookup
    · next hnone =>
        split at hlookup
        · next hx =>
            rw [hasChildWithTenant, Bool.eq_false_iff.mpr hnone,
              containsKey_iff.mpr ((mem_map_iter _).mp hx)]
            rfl
        · cases hlookup
  · intro hleaf
    obtain ⟨hx, hnone⟩ := Bool.and_eq_true_iff.mp hleaf
    refine ⟨⟨x, true⟩, ⟨o.mem_iter.mpr ?_, rfl⟩, rfl⟩
    rw [lookup_foldl_children, if_neg, lookup_foldl_insert,
      if_pos ((mem_map_iter _).mpr (containsKey_iff.mp hx))]
    exact Bool.eq_false_iff.mp (Bool.not_eq_true' _ ▸ hnone)

theorem lookup_foldl_used (l : List (Sigma fun _ : String => Nat)) (hl : (l.map (·.1)).Nodup)
    (m : AList fun _ : String => Nat) (n : Nat) :
    ((l.foldl (fun m e => m.insert e.1 ((m.lookup e.1).getD 0 + n)) m).lookup x).getD 0 =
      (m.lookup x).getD 0 + if x ∈ l.map (·.1) then n else 0 := by
  induction l generalizing m with
  | nil => rfl
  | cons e l ih =>
      rw [List.map_cons, List.nodup_cons] at hl
      rw [List.foldl_cons, ih hl.2, List.map_cons]
      by_cases hx : x = e.1
      · rw [hx, AList.lookup_insert, if_neg hl.1, if_pos List.mem_cons_self]
        rfl
      · rw [AList.lookup_insert_ne hx]
        simp only [List.mem_cons, hx, false_or]

private theorem lookup_foldl_visited (l : List Nat) (m : AList fun _ : String => Nat) :
    ((l.foldl (fun used v => (o.iter (t.nodes v).tenantLastAccessTime).foldl (fun used e =>
      used.insert e.1 ((used.lookup e.1).getD 0 + (t.nodes v).text.charCount)) used) m).lookup
      x).getD 0 =
      (m.lookup x).getD 0 + (l.map (t.weight x)).sum := by
  induction l generalizing m with
  | nil => rfl
  | cons v l ih =>
      have hnodup : ((o.iter (t.nodes v).tenantLastAccessTime).map (·.1)).Nodup :=
        ((o.iter_perm _).map _).nodup_iff.mpr (t.nodes v).tenantLastAccessTime.nodupKeys
      rw [List.foldl_cons, ih, lookup_foldl_used _ hnodup, List.map_cons, List.sum_cons,
        Nat.add_assoc]
      simp only [mem_map_iter, weight, containsKey_iff, Carries]

theorem Shape.getUsedSizePerTenant (h : t.Shape live) (o : Order) (x : String) :
    ((t.getUsedSizePerTenant o).lookup x).getD 0 = t.used live x := by
  obtain ⟨hnodup, hmem⟩ := h.visited o
  have hroot : t.weight x root = 0 := by
    by_cases hx : t.Carries root x
    · rw [weight_of_carries hx, h.charCount root (.inl rfl), h.rootText]
      rfl
    · exact weight_of_not_carries hx
  have hvisited : (t.visited o).toFinset = Insert.insert root live := by
    ext v
    rw [List.mem_toFinset, hmem, Finset.mem_insert]
  rw [Tree.getUsedSizePerTenant, lookup_foldl_visited, ← List.sum_toFinset _ hnodup, hvisited,
    Finset.sum_insert h.wf.root_notMem, hroot]
  simp [used]

structure Removing (t₀ t : Tree) (live : Finset Nat) (tenant : String) (queue : List Nat) :
    Prop where
  shape : t.Shape live
  nodup : queue.Nodup
  mem_iff v : v ∈ queue ↔ t.Leaf v tenant
  counts : t.tenantCharCount = t₀.tenantCharCount
  counted y : y ≠ tenant → t.count y = t.used live y
  holds y p : y ≠ tenant → (t.Holds y p ↔ t₀.Holds y p)

theorem mem_parentLeaf (hs : Detached t t' live live' v x) :
    w ∈ (t'.parentLeaf o v x).toList ↔ (t.nodes v).parent = some w ∧ t'.Leaf w x := by
  rw [Option.mem_toList, parentLeaf, Option.filter_eq_some_iff, hs.parent, leaf_iff]

variable {t₀ : Tree} {maxSize : Nat}

theorem Removing.step {queue : List Nat} (o : Order) (h : Removing t₀ t live tenant (v :: queue)) :
    ∃ live', Detached t (t.detach v tenant) live live' v tenant ∧
      Removing t₀ (t.detach v tenant) live' tenant
        (queue ++ ((t.detach v tenant).parentLeaf o v tenant).toList) := by
  have hleaf := (h.mem_iff v).mp List.mem_cons_self
  obtain ⟨live', hs⟩ := exists_detached h.shape hleaf
  obtain ⟨hnot, hnodup⟩ := List.nodup_cons.mp h.nodup
  have hrest {w : Nat} (hw : w ∈ queue) : t.Leaf w tenant :=
    (h.mem_iff w).mp (List.mem_cons_of_mem _ hw)
  refine ⟨live', hs, hs.shape, ?_, fun w => ?_, hs.counts.trans h.counts, fun y hy => ?_,
    fun y p hy => ?_⟩
  · refine List.nodup_append.mpr
      ⟨hnodup, by cases (t.detach v tenant).parentLeaf o v tenant <;> simp, ?_⟩
    -- the parent had a child with the tenant, so it was no leaf
    rintro w hw _ hw' rfl
    have hparent := ((mem_parentLeaf hs).mp hw').1
    rcases h.shape.live_of_carries v tenant hleaf.1 with rfl | hv
    · rw [h.shape.rootParent] at hparent
      cases hparent
    · obtain ⟨u, c, _, hparent', hc⟩ := h.shape.wf.parent v hv
      obtain rfl : u = w := Option.some.inj (hparent'.symm.trans hparent)
      exact (hrest hw).2 c v hc hleaf.1
  · rw [List.mem_append, mem_parentLeaf hs]
    constructor
    · rintro (hw | hw)
      · refine hs.leaf_of (hrest hw) (h.shape.live_of_carries w tenant (hrest hw).1) ?_
        rintro ⟨rfl, _⟩
        exact hnot hw
      · exact hw.2
    · intro hw
      rcases hs.leaf_cases h.shape hw with ⟨hold, hne⟩ | ⟨_, hparent⟩
      · rcases List.mem_cons.mp ((h.mem_iff w).mpr hold) with rfl | hmem
        · exact absurd ⟨rfl, rfl⟩ hne
        · exact .inl hmem
      · exact .inr ⟨hparent, hw⟩
  · have hused := hs.used_add h.shape hleaf.1 y
    rw [if_neg hy, Nat.add_zero, ← h.counted y hy] at hused
    rw [hused, count, hs.counts, count]
  · rw [hs.holds_iff h.shape hy, h.holds y p hy]

theorem removeLoop_removing {queue : List Nat} {fuel : Nat}
    (h : Removing t₀ t live tenant queue) (hfuel : t.tenancies ≤ fuel) :
    ∃ live', Removing t₀ (removeLoop o tenant fuel t queue) live' tenant [] := by
  induction fuel generalizing t live queue with
  | zero =>
      cases queue with
      | nil => exact ⟨live, h⟩
      | cons v queue =>
          obtain ⟨live', hs, _⟩ := h.step o
          have hlt := hs.tenancies_lt h.shape ((h.mem_iff v).mp List.mem_cons_self).1
          omega
  | succ fuel ih =>
      cases queue with
      | nil => exact ⟨live, h⟩
      | cons v queue =>
          obtain ⟨live', hs, hstep⟩ := h.step o
          have hlt := hs.tenancies_lt h.shape ((h.mem_iff v).mp List.mem_cons_self).1
          exact ih hstep (by omega)

/-- `remove_tenant` takes the tenant off every node, and the others hold what they held. -/
structure Removed (t t' : Tree) (tenant : String) : Prop where
  inv : ∃ live, t'.Inv live
  not_carries v : ¬ t'.Carries v tenant
  holds y p : y ≠ tenant → (t'.Holds y p ↔ t.Holds y p)
  listed y : y ≠ tenant → (y ∈ t'.tenantCharCount ↔ y ∈ t.tenantCharCount)

theorem Inv.removeTenant (h : t.Inv live) (o : Order) (tenant : String) :
    Removed t (t.removeTenant o tenant) tenant := by
  obtain ⟨hnodup, hmem⟩ := h.visited o
  have hstart : Removing t t live tenant ((t.visited o).filter fun v =>
      t.containsKey v tenant && !t.hasChildWithTenant o v tenant) := by
    refine ⟨h.toShape, hnodup.filter _, fun v => ?_, rfl, fun y _ => h.counted y,
      fun _ _ _ => Iff.rfl⟩
    rw [List.mem_filter, leaf_iff, hmem]
    exact ⟨fun hv => hv.2, fun hv => ⟨h.live_of_carries v tenant hv.1, hv⟩⟩
  obtain ⟨live', hend⟩ := removeLoop_removing (o := o) hstart (Nat.le_refl _)
  have hgone (v : Nat) : ¬ (t.removeTenant o tenant).Carries v tenant := by
    intro hv
    obtain ⟨w, _, hleaf⟩ := hend.shape.exists_leaf (hend.shape.live_of_carries v tenant hv) hv
    exact List.not_mem_nil ((hend.mem_iff w).mpr hleaf)
  refine ⟨⟨live', hend.shape.recount _, fun y => ?_⟩, hgone, hend.holds, fun y hy => ?_⟩
  · by_cases hy : y = tenant
    · subst hy
      rw [count, Tree.removeTenant, AList.lookup_erase, used]
      exact (Finset.sum_eq_zero fun v _ => weight_of_not_carries (hgone v)).symm
    · have hcounted := hend.counted y hy
      rw [count, Tree.removeTenant, AList.lookup_erase_ne hy]
      exact hcounted
  · rw [Tree.removeTenant, AList.mem_erase, hend.counts]
    exact ⟨fun hmem => hmem.2, fun hmem => ⟨hy, hmem⟩⟩

@[simp] theorem count_subCount (t : Tree) (x y : String) (n : Nat) :
    (t.subCount x n).count y = t.count y - if y = x then n else 0 := by
  unfold count subCount
  cases hx : t.tenantCharCount.lookup x with
  | none =>
      by_cases hy : y = x
      · rw [hy, hx]
        simp
      · rw [if_neg hy, Nat.sub_zero]
  | some count =>
      by_cases hy : y = x
      · rw [hy, if_pos rfl, AList.lookup_insert, hx]
        rfl
      · rw [if_neg hy, AList.lookup_insert_ne hy, Nat.sub_zero]

theorem mem_subCount (t : Tree) (x y : String) (n : Nat) :
    y ∈ (t.subCount x n).tenantCharCount ↔ y ∈ t.tenantCharCount := by
  unfold subCount
  cases hx : t.tenantCharCount.lookup x with
  | none => rfl
  | some count =>
      have hmem : x ∈ t.tenantCharCount := AList.lookup_isSome.mp (by rw [hx]; rfl)
      rw [AList.mem_insert]
      refine ⟨fun hor => ?_, .inr⟩
      rcases hor with rfl | hy
      · exact hmem
      · exact hy

theorem Shape.used_of_leaf_root (h : t.Shape live) (hleaf : t.Leaf root x) : t.used live x = 0 := by
  refine Finset.sum_eq_zero fun v hv => weight_of_not_carries fun hx => ?_
  have hbelow := h.wf.below_root_iff.mpr (.inr hv)
  rcases Relation.ReflTransGen.cases_head hbelow with rfl | ⟨u, ⟨c, hc⟩, hrest⟩
  · exact h.wf.root_notMem hv
  · exact hleaf.2 c u hc (h.carries_of_below (.inr (h.child (.inl rfl) hc).1) hrest hx)

/-- What one popped entry does. -/
structure EvictStep (maxSize : Nat) (e : EvictionEntry) (t t' : Tree)
    (pushed : List EvictionEntry) :
    Prop where
  inv : ∃ live, t'.Inv live
  holds y p : t'.Holds y p → t.Holds y p
  listed y : y ∈ t'.tenantCharCount ↔ y ∈ t.tenantCharCount
  count_le y : t'.count y ≤ t.count y
  leaf w y : t'.Leaf w y → t.Leaf w y ∧ ¬ (w = e.node ∧ y = e.tenant) ∨
    (∃ e' ∈ pushed, e'.node = w ∧ e'.tenant = y) ∨ t'.count y ≤ maxSize
  work : pushed.length + t'.tenancies ≤ t.tenancies
  rootKept y : y ∈ t.tenantCharCount → t.Carries root y → t'.Carries root y

theorem mem_entryOf {e : EvictionEntry} (he : e ∈ t.entryOf v x) : e.node = v ∧ e.tenant = x := by
  obtain ⟨_, _, rfl⟩ := Option.map_eq_some_iff.mp he
  exact ⟨rfl, rfl⟩

theorem exists_entryOf (hx : t.Carries v x) : ∃ e, t.entryOf v x = some e := by
  obtain ⟨n, hn⟩ := Option.isSome_iff_exists.mp (AList.lookup_isSome.mpr hx)
  exact ⟨_, by rw [entryOf, hn]; rfl⟩

theorem EvictStep.skip {e : EvictionEntry} (h : t.Inv live)
    (hskip : t.Leaf e.node e.tenant → t.count e.tenant ≤ maxSize) : EvictStep maxSize e t t [] := by
  refine ⟨⟨live, h⟩, fun _ _ hp => hp, fun _ => Iff.rfl, fun _ => Nat.le_refl _, fun w y hw => ?_,
    by simp, fun _ _ hy => hy⟩
  by_cases he : w = e.node ∧ y = e.tenant
  · obtain ⟨rfl, rfl⟩ := he
    exact .inr (.inr (hskip hw))
  · exact .inl ⟨hw, he⟩

theorem any_le_iff : (t.tenantCharCount.lookup x).any (· ≤ maxSize) = true ↔
    x ∈ t.tenantCharCount ∧ t.count x ≤ maxSize := by
  rw [← AList.lookup_isSome, count]
  cases t.tenantCharCount.lookup x with
  | none => simp
  | some n => simp

/-- An entry whose node is a leaf of a tenant that is too large. -/
theorem EvictStep.take {e : EvictionEntry} (h : t.Inv live) (hleaf : t.Leaf e.node e.tenant)
    (hover : ¬ (e.tenant ∈ t.tenantCharCount ∧ t.count e.tenant ≤ maxSize)) (t' : Tree)
    (ht' : t' = (t.subCount e.tenant (t.nodes e.node).text.charCount).detach e.node e.tenant) :
    EvictStep maxSize e t t'
      ((t'.parentLeaf o e.node e.tenant).bind fun parent => t'.entryOf parent e.tenant).toList := by
  have hshape : (t.subCount e.tenant (t.nodes e.node).text.charCount).Shape live := h.recount _
  obtain ⟨live', hs⟩ := exists_detached hshape (v := e.node) (x := e.tenant) hleaf
  rw [← ht'] at hs
  have hcount (y : String) : t'.count y =
      t.count y - if y = e.tenant then (t.nodes e.node).text.charCount else 0 := by
    rw [← count_subCount, count, hs.counts, count]
  refine ⟨⟨live', hs.shape, fun y => ?_⟩, fun y p hp => hs.holds_of hp, fun y => ?_, fun y => ?_,
    fun w y hw => ?_, ?_, fun y hy hroot => ?_⟩
  · have hused : t'.used live' y + _ = t.used live y := hs.used_add hshape hleaf.1 y
    rw [hcount, h.counted, ← hused]
    exact Nat.add_sub_cancel _ _
  · rw [hs.counts, mem_subCount]
  · rw [hcount]
    exact Nat.sub_le _ _
  · rcases hs.leaf_cases hshape hw with hold | ⟨rfl, hparent⟩
    · exact .inl hold
    · have hmem : w ∈ (t'.parentLeaf o e.node e.tenant).toList :=
        (mem_parentLeaf hs).mpr ⟨hparent, hw⟩
      obtain ⟨e', he'⟩ := exists_entryOf hw.1
      refine .inr (.inl ⟨e', ?_, mem_entryOf he'⟩)
      rw [Option.mem_toList, Option.mem_toList.mp hmem]
      exact he'
  · have hlt : t'.tenancies < t.tenancies := hs.tenancies_lt hshape hleaf.1
    have hlen := Option.length_toList_le
      (o := (t'.parentLeaf o e.node e.tenant).bind fun parent => t'.entryOf parent e.tenant)
    omega
  · refine (hs.carries root y).mpr ⟨hroot, ?_⟩
    -- the root is the leaf only of a tenant that uses nothing
    rintro ⟨hnode, rfl⟩
    rw [← hnode] at hleaf
    refine hover ⟨hy, ?_⟩
    rw [h.counted, h.used_of_leaf_root hleaf]
    exact Nat.zero_le _

theorem evictEntry_step (h : t.Inv live) (o : Order) (maxSize : Nat) (e : EvictionEntry) :
    EvictStep maxSize e t (t.evictEntry o maxSize e).1 (t.evictEntry o maxSize e).2 := by
  unfold evictEntry
  split
  · next hany => exact EvictStep.skip h fun _ => (any_le_iff.mp hany).2
  · next hany =>
      split
      · next hleaf =>
          refine EvictStep.skip h fun hl => ?_
          rw [leaf_iff.mpr hl] at hleaf
          cases hleaf
      · next hleaf =>
          rw [Bool.not_eq_true, Bool.not_eq_false'] at hleaf
          exact EvictStep.take h (leaf_iff.mp hleaf) (mt any_le_iff.mpr hany) _ rfl

/-- The tree while the entries in `pq` are worked off: what is too large has its leaves there. -/
structure Evicting (maxSize : Nat) (t₀ t : Tree) (pq : List EvictionEntry) : Prop where
  inv : ∃ live, t.Inv live
  holds y p : t.Holds y p → t₀.Holds y p
  listed y : y ∈ t.tenantCharCount ↔ y ∈ t₀.tenantCharCount
  leaf w y : t.Leaf w y → (∃ e ∈ pq, e.node = w ∧ e.tenant = y) ∨ t.count y ≤ maxSize
  rootKept y : y ∈ t₀.tenantCharCount → t₀.Carries root y → t.Carries root y

theorem Evicting.step {pq pq' : List EvictionEntry} {e : EvictionEntry}
    (h : Evicting maxSize t₀ t pq) (hpop : pq.Perm (e :: pq')) (o : Order) :
    Evicting maxSize t₀ (t.evictEntry o maxSize e).1 ((t.evictEntry o maxSize e).2 ++ pq') ∧
      (t.evictEntry o maxSize e).2.length + (t.evictEntry o maxSize e).1.tenancies ≤
      t.tenancies := by
  obtain ⟨live, hinv⟩ := h.inv
  have hs := evictEntry_step hinv o maxSize e
  refine ⟨⟨hs.inv, fun y p hp => h.holds y p (hs.holds y p hp), fun y => ?_, fun w y hw => ?_,
    fun y hy hroot => ?_⟩, hs.work⟩
  · rw [hs.listed, h.listed]
  · rcases hs.leaf w y hw with ⟨hold, hne⟩ | ⟨e', he', heq⟩ | hle
    · rcases h.leaf w y hold with ⟨e', he', heq⟩ | hle
      · rcases List.mem_cons.mp (hpop.mem_iff.mp he') with rfl | hmem
        · exact absurd ⟨heq.1.symm, heq.2.symm⟩ hne
        · exact .inl ⟨e', List.mem_append_right _ hmem, heq⟩
      · exact .inr (Nat.le_trans (hs.count_le y) hle)
    · exact .inl ⟨e', List.mem_append_left _ he', heq⟩
    · exact .inr hle
  · exact hs.rootKept y ((h.listed y).mpr hy) (h.rootKept y hy hroot)

theorem evictLoop_evicting {fuel : Nat} {pq : List EvictionEntry}
    (h : Evicting maxSize t₀ t pq) (hfuel : pq.length + t.tenancies ≤ fuel) :
    Evicting maxSize t₀ (evictLoop o maxSize fuel t pq) [] := by
  induction fuel generalizing t pq with
  | zero =>
      have hnil : pq = [] := List.length_eq_zero_iff.mp (by omega)
      rw [hnil] at h
      exact h
  | succ fuel ih =>
      cases pq with
      | nil =>
          rw [evictLoop, o.pop_nil]
          exact h
      | cons e pq =>
          obtain ⟨e', pq', hpop, hperm, _⟩ := o.pop_cons e pq
          obtain ⟨hstep, hwork⟩ := h.step hperm o
          have hlen := hperm.length_eq
          rw [List.length_cons, List.length_cons] at hlen
          simp only [evictLoop, hpop]
          refine ih hstep ?_
          rw [List.length_append]
          rw [List.length_cons] at hfuel
          omega

/-- `evict_tenant_by_size` leaves every tenant within the size, and gives nobody anything. -/
structure Evicted (maxSize : Nat) (t t' : Tree) : Prop where
  inv : ∃ live, t'.Inv live
  count_le y : t'.count y ≤ maxSize
  holds y p : t'.Holds y p → t.Holds y p
  listed y : y ∈ t'.tenantCharCount ↔ y ∈ t.tenantCharCount
  rootKept y : y ∈ t.tenantCharCount → t.Carries root y → t'.Carries root y

theorem Inv.evictTenantBySize (h : t.Inv live) (o : Order) (maxSize : Nat) :
    Evicted maxSize t (t.evictTenantBySize o maxSize) := by
  have hstart : Evicting maxSize t t ((t.visited o).flatMap fun v =>
      (t.leafOf o v).filterMap fun tenant => t.entryOf v tenant) := by
    refine ⟨⟨live, h⟩, fun _ _ hp => hp, fun _ => Iff.rfl, fun w y hw => ?_, fun _ _ hy => hy⟩
    obtain ⟨e, he⟩ := exists_entryOf hw.1
    refine .inl ⟨e, List.mem_flatMap.mpr ⟨w, ?_, List.mem_filterMap.mpr ⟨y, mem_leafOf.mpr hw, he⟩⟩,
      mem_entryOf he⟩
    exact ((h.visited o).2 w).mpr (h.live_of_carries w y hw.1)
  have hend : Evicting maxSize t (t.evictTenantBySize o maxSize) [] :=
    evictLoop_evicting hstart (Nat.le_refl _)
  refine ⟨hend.inv, fun y => ?_, hend.holds, hend.listed, hend.rootKept⟩
  obtain ⟨live', hinv⟩ := hend.inv
  by_cases hy : ∃ v, (t.evictTenantBySize o maxSize).Carries v y
  · obtain ⟨v, hv⟩ := hy
    obtain ⟨w, _, hleaf⟩ := hinv.exists_leaf (hinv.live_of_carries v y hv) hv
    rcases hend.leaf w y hleaf with ⟨e, he, _⟩ | hle
    · cases he
    · exact hle
  · rw [hinv.counted, used, Finset.sum_eq_zero fun v _ =>
      weight_of_not_carries fun hv => hy ⟨v, hv⟩]
    exact Nat.zero_le _

end Tree

end SpecDecode.Gateway
