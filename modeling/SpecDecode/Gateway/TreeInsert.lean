import SpecDecode.Gateway.TreeShape

/-!
# Inserting into the gateway's tree

`insert` adds the text to what its tenant holds and changes nothing that another tenant holds,
and the counts follow.
-/

namespace SpecDecode.Gateway

open Function RadixTree

namespace Tree

structure Inv (t : Tree) (live : Finset Nat) : Prop extends Shape t live where
  counted : ∀ x, t.count x = t.used live x

variable {t t' : Tree} {live : Finset Nat} {u v w prev : Nat} {x y tenant : String} {o : Order}
variable {c : Char} {p q text remaining : List Char} {n epoch : Nat}

@[simp] theorem count_addCount (t : Tree) (x y : String) (n : Nat) :
    (t.addCount x n).count y = t.count y + if y = x then n else 0 := by
  by_cases hy : y = x
  · subst hy
    simp [count, addCount]
  · simp [count, addCount, hy]

theorem Shape.recount (h : t.Shape live) (m : AList fun _ : String => Nat) :
    Shape { t with tenantCharCount := m } live :=
  ⟨h.wf, h.lt_next, h.charCount, h.closed, h.owned, h.live_of_carries, h.rootText, h.rootParent⟩

@[simp] theorem insertTime_count (t : Tree) (v : Nat) (x y : String) (n : Nat) :
    (t.insertTime v x n).count y = t.count y := rfl

theorem tagged_attach (t : Tree) (v : Nat) (x : String) (n : Nat) :
    Tagged t (t.attach v x n) v x := by
  unfold attach
  split
  · next hkey =>
      refine ⟨⟨fun _ => rfl, fun _ => rfl, fun _ => rfl, rfl⟩, fun w y => ⟨.inl, fun hor => ?_⟩⟩
      rcases hor with hw | ⟨rfl, rfl⟩
      · exact hw
      · exact containsKey_iff.mp hkey
  · obtain ⟨⟨hc, ht, hp, hn⟩, hcarries⟩ := tagged_insertTime (t.addCount x n) v x 0
    exact ⟨⟨hc, ht, hp, hn⟩, hcarries⟩

theorem Inv.attach (h : t.Inv live) (hv : v ∈ live) (hn : n = (t.nodes v).text.charCount)
    (hparent : (t.nodes v).parent = some u) (hu : t.Carries u x) : (t.attach v x n).Inv live := by
  have htag := tagged_attach t v x n
  have hup (u' : Nat) (c : Char) (hc : (t.nodes u').children.lookup c = some v)
      (hu' : u' = root ∨ u' ∈ live) : t.Carries u' x := by
    obtain rfl := Option.some.inj ((h.child hu' hc).2.1.symm.trans hparent)
    exact hu
  refine ⟨htag.shape h.toShape (.inr hv) hup, fun y => ?_⟩
  by_cases hx : t.Carries v x
  · rw [htag.used_of_carries fun _ _ => hx, ← h.counted]
    rw [Tree.attach, if_pos (containsKey_iff.mpr hx)]
  · have hcount : (t.attach v x n).count y = t.count y + if y = x then n else 0 := by
      rw [Tree.attach, if_neg (mt containsKey_iff.mp hx), insertTime_count, count_addCount]
    rw [hcount, h.counted]
    by_cases hy : y = x
    · rw [hy, if_pos rfl, htag.used_new hv hx, hn]
    · rw [if_neg hy, htag.used_of_carries fun heq => absurd heq hy, Nat.add_zero]

/-- A tenant on the root, or on a node that has it already, uses no more. -/
theorem Inv.retag (h : t.Inv live) (hs : Tagged t t' v x) (hx : t.Carries v x ∨ v = root)
    (hcount : ∀ y, t'.count y = t.count y) : t'.Inv live := by
  have hv : v = root ∨ v ∈ live := by
    rcases hx with hx | hroot
    · exact h.live_of_carries v x hx
    · exact .inl hroot
  refine ⟨hs.shape h.toShape hv fun u c hc hu => ?_, fun y => ?_⟩
  · rcases hx with hx | rfl
    · exact h.closed u c v x hu hc hx
    · exact absurd (h.child hu hc).1 h.wf.root_notMem
  · rw [hcount, h.counted, hs.used_of_carries fun _ hlive => ?_]
    exact hx.resolve_right fun hroot => h.wf.root_notMem (hroot ▸ hlive)

theorem Inv.congr (h : t.Inv live) (hf : Frame t t')
    (hcarries : ∀ w y, t'.Carries w y ↔ t.Carries w y) (hcount : ∀ y, t'.count y = t.count y) :
    t'.Inv live := by
  refine ⟨h.toShape.congr hf (fun u c v x hu hc hx => ?_) (fun v hv => ?_) (fun v x hx => ?_),
    fun y => ?_⟩
  · exact (hcarries u x).mpr (h.closed u c v x hu hc ((hcarries v x).mp hx))
  · obtain ⟨y, hy⟩ := h.owned v hv
    exact ⟨y, (hcarries v y).mpr hy⟩
  · exact h.live_of_carries v x ((hcarries v x).mp hx)
  · rw [hcount, h.counted]
    exact Finset.sum_congr rfl fun w _ => (weight_congr (hcarries w y) fun _ => hf.text w).symm

theorem addLeaf_nodes_prev :
    (t.addLeaf prev c remaining x epoch).nodes prev =
      { t.nodes prev with children := (t.nodes prev).children.insert c t.next } := by
  simp [addLeaf, addCount]

theorem addLeaf_nodes_next (hne : prev ≠ t.next) :
    (t.addLeaf prev c remaining x epoch).nodes t.next =
      ⟨∅, .new remaining, (∅ : AList fun _ : String => Nat).insert x epoch, some prev, some x⟩ := by
  simp [addLeaf, addCount, Ne.symm hne]

theorem addLeaf_nodes_other (hw : w ≠ prev) (hw' : w ≠ t.next) :
    (t.addLeaf prev c remaining x epoch).nodes w = t.nodes w := by
  simp [addLeaf, addCount, hw, hw']

theorem lookup_insert_eq_update {κ ν : Type} [DecidableEq κ] (m : AList fun _ : κ => ν) (k : κ)
    (x : ν) : (fun k' => (m.insert k x).lookup k') =
      update (fun k' => m.lookup k') k (some x) := by
  funext k'
  by_cases hk : k' = k
  · subst hk
    simp
  · rw [update_of_ne hk, AList.lookup_insert_ne hk]

theorem Shape.ne_next (h : t.Shape live) (hv : v = root ∨ v ∈ live) : v ≠ t.next := by
  rintro rfl
  exact Nat.lt_irrefl _ (h.lt_next _ hv)

theorem addLeaf_shape (h : t.Shape live) (hprev : prev = root ∨ prev ∈ live)
    (hfree : (t.nodes prev).children.lookup c = none) (hhead : remaining.head? = some c) :
    AddLeaf t.shape (t.addLeaf prev c remaining x epoch).shape root live prev t.next c remaining
      (remaining.map fun _ => ()) where
  parentLive := hprev
  free := hfree
  fresh := h.next_fresh
  head := hhead
  length := List.length_map _
  atParent := by
    simp only [shape, addLeaf_nodes_prev, lookup_insert_eq_update]
  atNew := by
    simp only [shape, addLeaf_nodes_next (h.ne_next hprev), AList.lookup_empty]
    rfl
  other w hw hw' := by simp only [shape, addLeaf_nodes_other hw hw']

theorem addLeaf_carries (h : t.Shape live) (hprev : prev = root ∨ prev ∈ live) :
    (t.addLeaf prev c remaining x epoch).Carries w y ↔
      t.Carries w y ∨ w = t.next ∧ y = x := by
  unfold Carries
  by_cases hw : w = prev
  · rw [hw, addLeaf_nodes_prev]
    simp [h.ne_next hprev]
  · by_cases hw' : w = t.next
    · rw [hw', addLeaf_nodes_next (h.ne_next hprev)]
      have hdead : y ∉ (t.nodes t.next).tenantLastAccessTime := fun hy =>
        h.ne_next (h.live_of_carries _ y hy) rfl
      simp only [AList.mem_insert, AList.notMem_empty, or_false, hdead, false_or, true_and]
    · rw [addLeaf_nodes_other hw hw']
      simp [hw']

theorem addLeaf_text (hw : w ≠ t.next) :
    ((t.addLeaf prev c remaining x epoch).nodes w).text = (t.nodes w).text := by
  by_cases hwp : w = prev
  · rw [hwp, addLeaf_nodes_prev]
  · rw [addLeaf_nodes_other hwp hw]

theorem mem_insert_next (hv : v = root ∨ v ∈ Insert.insert t.next live) (hne : v ≠ t.next) :
    v = root ∨ v ∈ live := hv.imp_right fun hmem => Finset.mem_of_mem_insert_of_ne hmem hne

section Leaf

variable (h : t.Inv live) (hprev : prev = root ∨ prev ∈ live)
  (hfree : (t.nodes prev).children.lookup c = none) (hhead : remaining.head? = some c)
  (epoch : Nat)

include h hprev hfree hhead

theorem Shape.addLeaf (hx : t.Carries prev x) :
    (t.addLeaf prev c remaining x epoch).Shape (Insert.insert t.next live) := by
  have hleaf : AddLeaf t.shape (t.addLeaf prev c remaining x epoch).shape root live prev t.next c
      remaining (remaining.map fun _ => ()) := addLeaf_shape h.toShape hprev hfree hhead
  have hnew : (t.addLeaf prev c remaining x epoch).nodes t.next = ⟨∅, .new remaining,
      (∅ : AList fun _ : String => Nat).insert x epoch, some prev, some x⟩ :=
    addLeaf_nodes_next (h.ne_next hprev)
  have hroot : root ≠ t.next := h.next_fresh.1.symm
  refine ⟨hleaf.wf h.wf, fun v hv => ?_, fun v hv => ?_, fun u b v y hu hb hy => ?_, fun v hv => ?_,
    fun v y hy => ?_, ?_, ?_⟩
  · change v < t.next + 1
    by_cases hvn : v = t.next
    · omega
    · have hlt := h.lt_next v (mem_insert_next hv hvn)
      omega
  · by_cases hvn : v = t.next
    · rw [hvn, hnew]
      rfl
    · rw [addLeaf_text hvn]
      exact h.charCount v (mem_insert_next hv hvn)
  · rw [addLeaf_carries h.toShape hprev] at hy ⊢
    by_cases hun : u = t.next
    · rw [hun, hnew] at hb
      simp at hb
    · have hulive := mem_insert_next hu hun
      rcases (hleaf.child_iff hun).mp hb with hold | ⟨rfl, rfl, rfl⟩
      · rcases hy with hy | ⟨rfl, _⟩
        · exact .inl (h.closed u b v y hulive hold hy)
        · exact absurd rfl (h.ne_next (.inr (h.child hulive hold).1))
      · rcases hy with hy | ⟨_, rfl⟩
        · exact absurd rfl (h.ne_next (h.live_of_carries _ y hy))
        · exact .inl hx
  · rcases Finset.mem_insert.mp hv with rfl | hv
    · exact ⟨x, (addLeaf_carries h.toShape hprev).mpr (.inr ⟨rfl, rfl⟩)⟩
    · obtain ⟨y, hy⟩ := h.owned v hv
      exact ⟨y, (addLeaf_carries h.toShape hprev).mpr (.inl hy)⟩
  · rcases (addLeaf_carries h.toShape hprev).mp hy with hy | ⟨rfl, rfl⟩
    · exact (h.live_of_carries v y hy).imp_right Finset.mem_insert_of_mem
    · exact .inr (Finset.mem_insert_self _ _)
  · rw [addLeaf_text hroot]
    exact h.rootText
  · exact (hleaf.fields hroot).1.trans h.rootParent

theorem Inv.addLeaf (hx : t.Carries prev x) :
    (t.addLeaf prev c remaining x epoch).Inv (Insert.insert t.next live) := by
  refine ⟨Shape.addLeaf h hprev hfree hhead epoch hx, fun y => ?_⟩
  have hcarries (w : Nat) (y : String) : (t.addLeaf prev c remaining x epoch).Carries w y ↔
      t.Carries w y ∨ w = t.next ∧ y = x := addLeaf_carries h.toShape hprev
  have hold : (t.addLeaf prev c remaining x epoch).used live y = t.used live y := by
    refine Finset.sum_congr rfl fun w hw => weight_congr ?_ fun _ =>
      addLeaf_text (h.ne_next (.inr hw))
    rw [hcarries]
    simp [h.ne_next (.inr hw)]
  have hcount : (t.addLeaf prev c remaining x epoch).count y =
      t.count y + if y = x then remaining.length else 0 := count_addCount t x y _
  rw [used, Finset.sum_insert h.next_fresh.2, hcount, h.counted, ← hold, used, Nat.add_comm]
  congr 1
  by_cases hy : y = x
  · rw [if_pos hy, weight_of_carries ((hcarries _ _).mpr (.inr ⟨rfl, hy⟩)),
      addLeaf_nodes_next (h.ne_next hprev)]
    rfl
  · rw [if_neg hy, weight_of_not_carries]
    rw [hcarries]
    rintro (hmem | ⟨_, hyx⟩)
    · exact h.ne_next (h.live_of_carries _ y hmem) rfl
    · exact hy hyx

theorem addLeaf_holds (hq : Spells t.shape root prev q) :
    (t.addLeaf prev c remaining x epoch).Holds y p ↔
      t.Holds y p ∨ y = x ∧ p <+: q ++ remaining := by
  have hleaf : AddLeaf t.shape (t.addLeaf prev c remaining x epoch).shape root live prev t.next c
      remaining (remaining.map fun _ => ()) := addLeaf_shape h.toShape hprev hfree hhead
  have hcarries (w : Nat) (y : String) : (t.addLeaf prev c remaining x epoch).Carries w y ↔
      t.Carries w y ∨ w = t.next ∧ y = x := addLeaf_carries h.toShape hprev
  have hnew := hleaf.spells_new h.wf hq
  constructor
  · rintro ⟨v, r, hv, hy, hp⟩
    rcases (hcarries v y).mp hy with hy | ⟨rfl, rfl⟩
    · exact .inl ⟨v, r, (hleaf.spells_iff h.wf (h.live_of_carries v y hy)).mp hv, hy, hp⟩
    · exact .inr ⟨rfl, (hleaf.wf h.wf).spells_unique hv hnew ▸ hp⟩
  · rintro (⟨v, r, hv, hy, hp⟩ | ⟨rfl, hp⟩)
    · exact ⟨v, r, hleaf.spells h.wf hv, (hcarries v y).mpr (.inl hy), hp⟩
    · exact ⟨t.next, _, hnew, (hcarries _ _).mpr (.inr ⟨rfl, rfl⟩), hp⟩

end Leaf

structure Divides (t t' : Tree) (live : Finset Nat) (prev matched n : Nat) (c c' : Char) :
    Prop where
  shape : Split t.shape t'.shape root live prev matched t.next n c c'
  next : t'.next = t.next + 1
  count y : t'.count y = t.count y
  text w : w ≠ t.next → w ≠ matched → (t'.nodes w).text = (t.nodes w).text
  textNext : (t'.nodes t.next).text = ⟨(t.nodes matched).text.text.take n, n⟩
  textMatched : (t'.nodes matched).text =
    ⟨(t.nodes matched).text.text.drop n, (t.nodes matched).text.charCount - n⟩
  carries w y : t'.Carries w y ↔ t.Carries w y ∨ w = t.next ∧ t.Carries matched y

theorem exists_divides {matched : Nat} (h : t.Inv live) (hprev : prev = root ∨ prev ∈ live)
    (hchild : (t.nodes prev).children.lookup c = some matched) (hpos : 0 < n)
    (hn : n < (t.nodes matched).text.charCount) :
    ∃ c', Divides t (t.split prev matched c n) live prev matched n c c' := by
  obtain ⟨hlive, hparent, _⟩ := h.child hprev hchild
  have hlen := h.charCount matched (.inr hlive)
  have hne : prev ≠ matched := by
    rintro rfl
    exact h.wf.parent_ne hlive hparent
  have hprevNext := h.ne_next hprev
  have hmatchedNext := h.ne_next (.inr hlive)
  obtain ⟨c', rest, hdrop⟩ := List.exists_cons_of_ne_nil
    (show (t.nodes matched).text.text.drop n ≠ [] by
      intro hnil
      have := List.drop_eq_nil_iff.mp hnil
      omega)
  have hsplit : (t.nodes matched).text.splitAtChar n = (⟨(t.nodes matched).text.text.take n, n⟩,
      ⟨(t.nodes matched).text.text.drop n, (t.nodes matched).text.charCount - n⟩) := by
    rw [NodeText.splitAtChar, if_neg (by omega), if_neg (by omega)]
  have hatPrev : (t.split prev matched c n).nodes prev =
      { t.nodes prev with children := (t.nodes prev).children.insert c t.next } := by
    simp [split, hne]
  have hatNext : (t.split prev matched c n).nodes t.next =
      ⟨(∅ : AList fun _ : Char => Nat).insert c' matched, ⟨(t.nodes matched).text.text.take n, n⟩,
        (t.nodes matched).tenantLastAccessTime, some prev, (t.nodes matched).lastTenant⟩ := by
    simp only [split, hsplit, NodeText.firstChar, hdrop, List.head?_cons]
    rw [update_of_ne hmatchedNext.symm, update_of_ne hprevNext.symm,
      update_self]
  have hatMatched : (t.split prev matched c n).nodes matched =
      { t.nodes matched with
        text := ⟨(t.nodes matched).text.text.drop n, (t.nodes matched).text.charCount - n⟩
        parent := some t.next } := by
    simp only [split, hsplit, update_self]
  have hother : ∀ w, w ≠ prev → w ≠ t.next → w ≠ matched →
      (t.split prev matched c n).nodes w = t.nodes w := by
    intro w hw hw' hw''
    simp only [split]
    rw [update_of_ne hw'', update_of_ne hw, update_of_ne hw']
  refine ⟨c', ⟨hprev, hchild, h.next_fresh, hpos, ?_, ?_, ?_, ?_, ?_⟩, rfl, fun _ => rfl,
    ?_, ?_, ?_, ?_⟩
  · simp only [shape, hdrop, List.head?_cons]
  · simp only [shape, hatPrev, lookup_insert_eq_update]
  · simp only [shape, hatNext, lookup_insert_eq_update, AList.lookup_empty, List.map_take]
  · simp only [shape, hatMatched, List.map_drop]
  · intro w hw hw' hw''
    simp only [shape, hother w hw hw' hw'']
  · intro w hw hw'
    by_cases hwp : w = prev
    · rw [hwp, hatPrev]
    · rw [hother w hwp hw hw']
  · rw [hatNext]
  · rw [hatMatched]
  · intro w y
    unfold Carries
    by_cases hwn : w = t.next
    · have hdead : y ∉ (t.nodes t.next).tenantLastAccessTime := fun hy =>
        h.ne_next (h.live_of_carries _ y hy) rfl
      rw [hwn, hatNext]
      simp only [hdead, false_or, true_and]
    · simp only [hwn, false_and, or_false]
      by_cases hwm : w = matched
      · rw [hwm, hatMatched]
      · by_cases hwp : w = prev
        · rw [hwp, hatPrev]
        · rw [hother w hwp hwn hwm]

namespace Divides

variable {matched : Nat} {c' : Char} (hs : Divides t t' live prev matched n c c') (h : t.Inv live)

include hs h

theorem closed {b : Char} (hu : u = root ∨ u ∈ Insert.insert t.next live)
    (hb : (t'.nodes u).children.lookup b = some v) (hy : t'.Carries v y) : t'.Carries u y := by
  obtain ⟨hlive, _, _⟩ := h.child hs.shape.parentLive hs.shape.edge
  have hback {w : Nat} (hw : w ∈ live) (hy : t'.Carries w y) : t.Carries w y :=
    ((hs.carries w y).mp hy).resolve_right fun hnew => h.ne_next (.inr hw) hnew.1
  rw [hs.carries]
  by_cases hun : u = t.next
  · -- the new node has one child, `matched`
    have hb' : (t'.shape t.next).child b = some v := hun ▸ hb
    simp only [hs.shape.atNew] at hb'
    have hv : v = matched := by
      by_cases hbc : b = c'
      · rw [hbc, update_self] at hb'
        exact (Option.some.inj hb').symm
      · rw [update_of_ne hbc] at hb'
        cases hb'
    exact .inr ⟨hun, hback hlive (hv ▸ hy)⟩
  · have hulive := mem_insert_next hu hun
    by_cases hedge : u = prev ∧ b = c
    · have hb' : (t'.shape prev).child c = some v := hedge.1 ▸ hedge.2 ▸ hb
      simp only [hs.shape.atParent, update_self] at hb'
      rcases (hs.carries v y).mp hy with hy | ⟨_, hy⟩
      · exact absurd (Option.some.inj hb').symm (h.ne_next (h.live_of_carries v y hy))
      · rw [hedge.1]
        exact .inl (h.closed prev c matched y hs.shape.parentLive hs.shape.edge hy)
    · have hb' : (t.nodes u).children.lookup b = some v :=
        (hs.shape.child_of_ne hun (by tauto)).symm.trans hb
      exact .inl (h.closed u b v y hulive hb' (hback (h.child hulive hb').1 hy))

theorem used_eq (hn : n < (t.nodes matched).text.charCount) (y : String) :
    t'.used (Insert.insert t.next live) y = t.used live y := by
  obtain ⟨hlive, _, _⟩ := h.child hs.shape.parentLive hs.shape.edge
  have hmatched := h.ne_next (.inr hlive)
  have hkept {w : Nat} (hw : w ∈ live) : t'.Carries w y ↔ t.Carries w y := by
    rw [hs.carries]
    simp [h.ne_next (.inr hw)]
  have hnew : t'.Carries t.next y ↔ t.Carries matched y := by
    have hdead : ¬ t.Carries t.next y := fun hy => h.ne_next (h.live_of_carries _ y hy) rfl
    rw [hs.carries]
    simp [hdead]
  have hsum : ∑ w ∈ live, t'.weight y w + t.weight y matched =
      ∑ w ∈ live, t.weight y w + t'.weight y matched := sum_change hlive fun w hw hwm =>
    weight_congr (hkept hw) fun _ => hs.text w (h.ne_next (.inr hw)) hwm
  have hparts : t.weight y matched = t'.weight y t.next + t'.weight y matched := by
    by_cases hy : t.Carries matched y
    · rw [weight_of_carries hy, weight_of_carries (hnew.mpr hy),
        weight_of_carries ((hkept hlive).mpr hy), hs.textNext, hs.textMatched]
      simp only
      omega
    · rw [weight_of_not_carries hy, weight_of_not_carries (mt hnew.mp hy),
        weight_of_not_carries (mt (hkept hlive).mp hy)]
  rw [used, used, Finset.sum_insert h.next_fresh.2]
  omega

theorem inv (hn : n < (t.nodes matched).text.charCount) : t'.Inv (Insert.insert t.next live) := by
  obtain ⟨hlive, _, _⟩ := h.child hs.shape.parentLive hs.shape.edge
  have hlen := h.charCount matched (.inr hlive)
  have hmatched := h.ne_next (.inr hlive)
  have hroot : root ≠ t.next := h.next_fresh.1.symm
  have hrootMatched : root ≠ matched := fun heq => h.wf.root_notMem (heq ▸ hlive)
  have hold {v : Nat} {y : String} (hy : t.Carries v y) : t'.Carries v y :=
    (hs.carries v y).mpr (.inl hy)
  refine ⟨⟨hs.shape.wf h.wf, fun v hv => ?_, fun v hv => ?_, fun u b v y hu hb hy => ?_,
    fun v hv => ?_, fun v y hy => ?_, ?_, ?_⟩, fun y => ?_⟩
  · rw [hs.next]
    by_cases hvn : v = t.next
    · omega
    · have hlt := h.lt_next v (mem_insert_next hv hvn)
      omega
  · by_cases hvn : v = t.next
    · rw [hvn, hs.textNext]
      exact (List.length_take_of_le (hlen ▸ Nat.le_of_lt hn)).symm
    · by_cases hvm : v = matched
      · rw [hvm, hs.textMatched]
        simp only [List.length_drop, hlen]
      · rw [hs.text v hvn hvm]
        exact h.charCount v (mem_insert_next hv hvn)
  · exact hs.closed h hu hb hy
  · rcases Finset.mem_insert.mp hv with rfl | hv
    · obtain ⟨y, hy⟩ := h.owned matched hlive
      exact ⟨y, (hs.carries _ y).mpr (.inr ⟨rfl, hy⟩)⟩
    · obtain ⟨y, hy⟩ := h.owned v hv
      exact ⟨y, hold hy⟩
  · rcases (hs.carries v y).mp hy with hy | ⟨rfl, _⟩
    · exact (h.live_of_carries v y hy).imp_right Finset.mem_insert_of_mem
    · exact .inr (Finset.mem_insert_self _ _)
  · rw [hs.text root hroot hrootMatched]
    exact h.rootText
  · exact (hs.shape.fields hroot hrootMatched).1.trans h.rootParent
  · rw [hs.count, h.counted, hs.used_eq h hn]

theorem holds_iff : t'.Holds y p ↔ t.Holds y p := by
  obtain ⟨hlive, _, _⟩ := h.child hs.shape.parentLive hs.shape.edge
  constructor
  · rintro ⟨v, r, hv, hy, hp⟩
    rcases (hs.carries v y).mp hy with hold | ⟨rfl, hnew⟩
    · exact ⟨v, r, (hs.shape.spells_iff h.wf (h.live_of_carries v y hold)).mp hv, hold, hp⟩
    · obtain ⟨q, hq⟩ := h.wf.exists_spells hs.shape.parentLive
      have hr := (hs.shape.wf h.wf).spells_unique hv (hs.shape.spells_new h.wf hq)
      refine ⟨matched, _, .child hq hs.shape.edge, hnew, hp.trans ?_⟩
      rw [hr]
      exact (List.prefix_append_right_inj q).mpr (List.take_prefix _ _)
  · rintro ⟨v, r, hv, hy, hp⟩
    exact ⟨v, r, hs.shape.spells h.wf hv, (hs.carries v y).mpr (.inl hy), hp⟩

end Divides

structure Inserted (t t' : Tree) (tenant : String) (text : List Char) : Prop where
  inv : ∃ live, t'.Inv live
  holds y p : t'.Holds y p ↔ t.Holds y p ∨ y = tenant ∧ p <+: text
  listed y : y ∈ t.tenantCharCount → y ∈ t'.tenantCharCount

/-- Insertions can start from a tree in which the tenant holds a part of the text already. -/
theorem Inserted.of_part {t'' : Tree} (hs : Inserted t' t'' tenant text)
    (hholds : ∀ y p, t'.Holds y p ↔ t.Holds y p ∨ y = tenant ∧ p <+: q) (hq : q <+: text)
    (hlisted : ∀ y, y ∈ t.tenantCharCount → y ∈ t'.tenantCharCount) :
    Inserted t t'' tenant text := by
  refine ⟨hs.inv, fun y p => ?_, fun y hy => hs.listed y (hlisted y hy)⟩
  rw [hs.holds, hholds]
  constructor
  · rintro ((hp | ⟨hy, hp⟩) | hp)
    · exact .inl hp
    · exact .inr ⟨hy, hp.trans hq⟩
    · exact .inr hp
  · rintro (hp | hp)
    · exact .inl (.inl hp)
    · exact .inr hp

theorem mem_addCount (hy : y ∈ t.tenantCharCount) : y ∈ (t.addCount x n).tenantCharCount :=
  (AList.mem_insert _).mpr (.inr hy)

private theorem mem_attach (hy : y ∈ t.tenantCharCount) : y ∈ (t.attach v x n).tenantCharCount := by
  unfold attach
  split
  · exact hy
  · exact mem_addCount hy

theorem Inserted.of_attach {t'' : Tree} (h : t.Inv live) (hv : v ∈ live)
    (hn : n = (t.nodes v).text.charCount) (hparent : (t.nodes v).parent = some u)
    (hu : t.Carries u tenant) (hq : Spells t.shape root v q)
    (hrest : (t.attach v tenant n).Inv live → Spells (t.attach v tenant n).shape root v q →
      (t.attach v tenant n).Carries v tenant →
      Inserted (t.attach v tenant n) t'' tenant (q ++ remaining)) :
    Inserted t t'' tenant (q ++ remaining) := by
  have htag := tagged_attach t v tenant n
  have hspells : Spells (t.attach v tenant n).shape root v q := by
    rw [htag.frame.shape_eq]
    exact hq
  refine (hrest (h.attach hv hn hparent hu) hspells
    ((htag.carries v tenant).mpr (.inr ⟨rfl, rfl⟩))).of_part
    (fun y p => htag.holds_iff h.toShape hq) (List.prefix_append _ _) fun y hy => mem_attach hy

theorem insertLoop_inserted {fuel : Nat} (h : t.Inv live) (hprev : Spells t.shape root prev q)
    (hx : t.Carries prev tenant) (hfuel : remaining.length < fuel) :
    Inserted t (insertLoop tenant epoch fuel t prev remaining) tenant (q ++ remaining) := by
  induction fuel generalizing t live prev q remaining with
  | zero => exact absurd hfuel (Nat.not_lt_zero _)
  | succ fuel ih =>
      have hlive := h.wf.spells_live hprev
      cases remaining with
      | nil =>
          have htag := tagged_insertTime t prev tenant epoch
          rw [List.append_nil]
          exact ⟨⟨live, h.retag htag (.inl hx) fun _ => rfl⟩, fun y p =>
            htag.holds_iff h.toShape hprev, fun y hy => hy⟩
      | cons c rest =>
          cases hchild : (t.nodes prev).children.lookup c with
          | none =>
              simp only [insertLoop, hchild]
              exact ⟨⟨_, Inv.addLeaf h hlive hchild rfl epoch hx⟩,
                fun y p => addLeaf_holds h hlive hchild rfl epoch hprev, fun y hy =>
                  mem_addCount hy⟩
          | some matched =>
              obtain ⟨hmatched, _, hhead⟩ := h.child hlive hchild
              have hlen := h.charCount matched (.inr hmatched)
              simp only [insertLoop, hchild, sharedPrefixCount_eq, advanceByChars_eq]
              have hpos := commonPrefixLen_pos (show (c :: rest).head? = some c from rfl) hhead
              have htake := take_commonPrefixLen (c :: rest) (t.nodes matched).text.text
              have hle := commonPrefixLen_le (c :: rest) (t.nodes matched).text.text
              generalize commonPrefixLen (c :: rest) (t.nodes matched).text.text = n at *
              have hshort : ((c :: rest).drop n).length < fuel := by
                rw [List.length_drop]
                omega
              have hword : q ++ (t.nodes matched).text.text.take n ++ (c :: rest).drop n =
                  q ++ c :: rest := by
                rw [List.append_assoc, ← htake, List.take_append_drop]
              rw [← hword]
              split
              · next hn =>
                  obtain ⟨c', hdiv⟩ := exists_divides h hlive hchild hpos hn
                  have hinv := hdiv.inv h hn
                  have hprev' := (hdiv.carries prev tenant).mpr (.inl hx)
                  have hnew := hdiv.shape.spells_new h.wf hprev
                  have hparent : ((t.split prev matched c n).nodes t.next).parent = some prev :=
                    congrArg RadixTree.Node.parent hdiv.shape.atNew
                  have hstep := Inserted.of_attach hinv (Finset.mem_insert_self _ _)
                    (by rw [hdiv.textNext]) hparent hprev' hnew fun h' hs' hx' =>
                      ih h' hs' hx' hshort
                  refine ⟨hstep.inv, fun y p => ?_, fun y hy => hstep.listed y hy⟩
                  rw [hstep.holds, hdiv.holds_iff h]
                  rfl
              · next hn =>
                  have hfull : (t.nodes matched).text.text.take n = (t.nodes matched).text.text :=
                    List.take_of_length_le (by omega)
                  rw [hfull]
                  exact Inserted.of_attach h hmatched rfl (h.child hlive hchild).2.1 hx
                    (.child hprev hchild) fun h' hs' hx' => ih h' hs' hx' hshort

theorem mem_orInsertZero (m : AList fun _ : String => Nat) (x y : String) :
    y ∈ orInsertZero m x ↔ y ∈ m ∨ y = x := by
  unfold orInsertZero
  split
  · next hx =>
      refine ⟨.inl, fun hor => ?_⟩
      rcases hor with hy | rfl
      · exact hy
      · exact AList.lookup_isSome.mp hx
  · rw [AList.mem_insert, or_comm]

theorem lookup_orInsertZero (m : AList fun _ : String => Nat) (x y : String) :
    ((orInsertZero m x).lookup y).getD 0 = (m.lookup y).getD 0 := by
  unfold orInsertZero
  split
  · rfl
  · next hx =>
      by_cases hy : y = x
      · subst hy
        rw [AList.lookup_insert, Option.not_isSome_iff_eq_none.mp hx]
        rfl
      · rw [AList.lookup_insert_ne hy]

theorem tagged_register (t : Tree) (x : String) : Tagged t (t.register x) root x := by
  refine ⟨⟨fun w => ?_, fun w => ?_, fun w => ?_, rfl⟩, fun w y => ?_⟩
  all_goals
    by_cases hw : w = root
    · subst hw
      simp [register, modify, Carries, mem_orInsertZero]
    · simp [register, modify, Carries, hw]

theorem Inv.register (h : t.Inv live) (tenant : String) : (t.register tenant).Inv live :=
  h.retag (tagged_register t tenant) (.inr rfl) fun _ => lookup_orInsertZero _ _ _

/-- `insert` adds the text to what the tenant holds, and the tenant has a count. -/
theorem Inv.insert (h : t.Inv live) (text : List Char) (tenant : String) (epoch : Nat) :
    Inserted t (t.insert text tenant epoch) tenant text ∧
      tenant ∈ (t.insert text tenant epoch).tenantCharCount := by
  have htag := tagged_register t tenant
  have hrun : Inserted (t.register tenant) (t.insert text tenant epoch) tenant ([] ++ text) :=
    insertLoop_inserted (h.register tenant) .root ((htag.carries _ _).mpr (.inr ⟨rfl, rfl⟩))
      (Nat.lt_succ_self _)
  have hlisted (y : String) : y ∈ (t.register tenant).tenantCharCount ↔
      y ∈ t.tenantCharCount ∨ y = tenant := mem_orInsertZero _ _ _
  refine ⟨hrun.of_part (fun y p => htag.holds_iff h.toShape .root) List.nil_prefix fun y hy => ?_,
    hrun.listed tenant ((hlisted tenant).mpr (.inr rfl))⟩
  exact (hlisted y).mpr (.inl hy)

end Tree

end SpecDecode.Gateway
