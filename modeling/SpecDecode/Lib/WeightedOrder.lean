import Mathlib.Algebra.BigOperators.Group.List.Basic
import Mathlib.Algebra.Order.Ring.Int
import Mathlib.Data.List.Sort
import Mathlib.Logic.Function.Basic
import Mathlib.Logic.Relation

/-!
# Depth first order by weight

Items hang on the nodes of a tree. `calcWeight` adds the weights of the kids to every node, and
`dfsOrder` lists the items in post-order, the heavier kids first. Both recurse with fuel.

A tree is given by its kids and a rank that falls towards the leaves (`Ranked`), so that the
rank bounds the recursion. The list of a node is the lists of its kids followed by its own
items; it holds exactly the items below the node.
-/

namespace SpecDecode.WeightedOrder

open Function

variable {α β : Type}

def calcWeight [DecidableEq α] (kids : α → List α) : Nat → α → (α → Nat) → Option (α → Nat)
  | 0, _, _ => none
  | fuel + 1, v, weight =>
      (kids v).foldlM (fun weight kid => (calcWeight kids fuel kid weight).map fun weight =>
        update weight v (weight v + weight kid)) weight

/-- The kids of a node, the heavier ones first; the sort is stable. -/
def byWeight (weight : α → Nat) (kids : List α) : List α :=
  kids.insertionSort fun x y => weight y ≤ weight x

def dfsOrder (kids : α → List α) (weight : α → Nat) (own : α → List β) :
    Nat → α → List β → Option (List β)
  | 0, _, _ => none
  | fuel + 1, v, q =>
      ((byWeight weight (kids v)).foldlM (fun q kid => dfsOrder kids weight own fuel kid q) q).map
        (· ++ own v)

def Below (kids : α → List α) (v w : α) : Prop :=
  Relation.ReflTransGen (fun u w => w ∈ kids u) v w

structure Ranked (kids : α → List α) (all : α → Prop) (rank : α → Nat) : Prop where
  closed {v w : α} : all v → w ∈ kids v → all w
  lt {v w : α} : all v → w ∈ kids v → rank w < rank v
  nodup {v : α} : all v → (kids v).Nodup
  parent {u v w : α} : all u → all v → w ∈ kids u → w ∈ kids v → u = v

theorem byWeight_perm (weight : α → Nat) (kids : List α) : (byWeight weight kids).Perm kids :=
  List.perm_insertionSort _ _

theorem byWeight_pairwise (weight : α → Nat) (kids : List α) :
    (byWeight weight kids).Pairwise fun x y => weight y ≤ weight x := by
  have : Std.Total fun x y => weight y ≤ weight x := ⟨fun x y => Nat.le_total _ _⟩
  have : IsTrans α fun x y => weight y ≤ weight x := ⟨fun x y z hxy hyz => Nat.le_trans hyz hxy⟩
  exact List.pairwise_insertionSort _ _

namespace Ranked

variable {kids : α → List α} {all : α → Prop} {rank : α → Nat} {u v w x y : α}

section

variable (h : Ranked kids all rank)

include h

theorem below_all (hv : all v) (hw : Below kids v w) : all w := by
  induction hw with
  | refl => exact hv
  | tail _ hkid ih => exact h.closed ih hkid

theorem rank_le (hv : all v) (hw : Below kids v w) : rank w ≤ rank v := by
  induction hw with
  | refl => exact Nat.le_refl _
  | tail hu hkid ih => exact Nat.le_trans (Nat.le_of_lt (h.lt (h.below_all hv hu) hkid)) ih

theorem below_total (hx : all x) (hy : all y) (hxw : Below kids x w)
    (hyw : Below kids y w) : Below kids x y ∨ Below kids y x := by
  induction hxw with
  | refl => exact .inr hyw
  | tail hu hkid ih =>
      rcases Relation.ReflTransGen.cases_tail hyw with rfl | ⟨u', hu', hkid'⟩
      · exact .inl (hu.tail hkid)
      · obtain rfl := h.parent (h.below_all hx hu) (h.below_all hy hu') hkid hkid'
        exact ih hu'

theorem not_below_parent (hv : all v) (hx : x ∈ kids v) : ¬ Below kids x v := by
  intro hbelow
  have hle := h.rank_le (h.closed hv hx) hbelow
  have hlt := h.lt hv hx
  omega

theorem kid_below_kid (hv : all v) (hx : x ∈ kids v) (hy : y ∈ kids v)
    (hxy : Below kids x y) : x = y := by
  rcases Relation.ReflTransGen.cases_tail hxy with rfl | ⟨u, hu, hkid⟩
  · rfl
  · obtain rfl := h.parent (h.below_all (h.closed hv hx) hu) hv hkid hy
    exact absurd hu (h.not_below_parent hv hx)

theorem kid_unique (hv : all v) (hx : x ∈ kids v) (hy : y ∈ kids v)
    (hxw : Below kids x w) (hyw : Below kids y w) : x = y := by
  rcases h.below_total (h.closed hv hx) (h.closed hv hy) hxw hyw with hxy | hyx
  · exact h.kid_below_kid hv hx hy hxy
  · exact (h.kid_below_kid hv hy hx hyx).symm

end

theorem below_iff (v w : α) : Below kids v w ↔ w = v ∨ ∃ kid ∈ kids v, Below kids kid w := by
  rw [Below, Relation.ReflTransGen.cases_head_iff, eq_comm]
  rfl

end Ranked

section Items

variable {kids : α → List α} {all : α → Prop} {rank : α → Nat} {v w : α}

theorem filter_or_perm (p p' : β → Prop) [DecidablePred p] [DecidablePred p'] (items : List β)
    (hdisjoint : ∀ b ∈ items, p b → ¬ p' b) :
    (items.filter fun b => p b ∨ p' b).Perm (items.filter p ++ items.filter p') := by
  apply (List.filter_append_perm (fun b => decide (p b)) _).symm.trans
  rw [List.filter_filter, List.filter_filter]
  refine .of_eq (congrArg₂ _ (List.filter_congr fun b _ => ?_) (List.filter_congr fun b hb => ?_))
  · by_cases hp : p b <;> simp [hp]
  · have hnot := hdisjoint b hb
    by_cases hp : p b <;> simp [hp, hnot]

open Classical in
noncomputable def below (kids : α → List α) (node : β → α) (items : List β) (v : α) : List β :=
  items.filter fun b => Below kids v (node b)

open Classical in
theorem flatMap_below_perm (h : Ranked kids all rank) (node : β → α) (items : List β) (hv : all v)
    {part : List α} (hpart : part.Sublist (kids v)) :
    (part.flatMap (below kids node items)).Perm
      (items.filter fun b => ∃ kid ∈ part, Below kids kid (node b)) := by
  induction part with
  | nil => simp
  | cons kid part ih =>
      have hsub := List.sublist_of_cons_sublist hpart
      have hnodup := List.nodup_cons.mp ((h.nodup hv).sublist hpart)
      have hkid := hpart.subset List.mem_cons_self
      have hperm := filter_or_perm (fun b => Below kids kid (node b))
        (fun b => ∃ kid ∈ part, Below kids kid (node b)) items fun b _ hb hother => by
          obtain ⟨kid', hkid', hb'⟩ := hother
          obtain rfl := h.kid_unique hv hkid (hsub.subset hkid') hb hb'
          exact hnodup.1 hkid'
      rw [List.flatMap_cons]
      refine ((ih hsub).append_left _).trans (hperm.symm.trans (.of_eq ?_))
      exact List.filter_congr fun b _ => by simp

theorem below_perm [DecidableEq α] (h : Ranked kids all rank) (node : β → α) (items : List β)
    (hv : all v) : (below kids node items v).Perm
      ((kids v).flatMap (below kids node items) ++ items.filter fun b => node b = v) := by
  classical
  have hperm := filter_or_perm (fun b => ∃ kid ∈ kids v, Below kids kid (node b))
    (fun b => node b = v) items fun b _ hbelow hnode => by
      obtain ⟨kid, hkid, hb⟩ := hbelow
      exact h.not_below_parent hv hkid (hnode ▸ hb)
  refine List.Perm.trans (.of_eq ?_) (hperm.trans
    ((flatMap_below_perm h node items hv (List.Sublist.refl _)).symm.append_right _))
  refine List.filter_congr fun b _ => ?_
  rw [decide_eq_decide, Ranked.below_iff, or_comm]

end Items

section Weights

variable [DecidableEq α] {kids : α → List α} {all : α → Prop} {rank : α → Nat}

structure Added (kids : α → List α) (base total : α → Nat) (v : α) (weight : α → Nat)
    (done : List α) (weight' : α → Nat) : Prop where
  root : weight' v = base v + (done.map total).sum
  below : ∀ kid ∈ done, ∀ w, Below kids kid w → weight' w = total w
  other : ∀ w, w ≠ v → (∀ kid ∈ done, ¬ Below kids kid w) → weight' w = weight w

variable {base total weight weight' weight'' : α → Nat} {v kid : α} {done rest : List α}

/-- Adding the weight of one more kid, whose subtree has been added up. -/
theorem Added.step (h : Ranked kids all rank) (hv : all v) (hdone : done ++ kid :: rest = kids v)
    (ha : Added kids base total v weight done weight')
    (hin : ∀ w, Below kids kid w → weight'' w = total w)
    (hout : ∀ w, ¬ Below kids kid w → weight'' w = weight' w) :
    Added kids base total v weight (done ++ [kid])
      (update weight'' v (weight'' v + weight'' kid)) := by
  have hsub : ∀ kid' ∈ done ++ [kid], kid' ∈ kids v := by
    intro kid' hkid'
    rw [← hdone]
    rcases List.mem_append.mp hkid' with hmem | hmem
    · exact List.mem_append_left _ hmem
    · rw [List.mem_singleton.mp hmem]
      exact List.mem_append_right _ List.mem_cons_self
  have hkid := hsub kid (List.mem_append_right _ List.mem_cons_self)
  have hfresh : kid ∉ done := fun hmem =>
    (List.nodup_append.mp (hdone ▸ h.nodup hv)).2.2 kid hmem kid List.mem_cons_self rfl
  refine ⟨?_, fun kid' hkid' w hw => ?_, fun w hwv hnot => ?_⟩
  · rw [update_self, hout v (h.not_below_parent hv hkid), ha.root, hin kid .refl,
      List.map_append, List.sum_append, List.map_singleton, List.sum_singleton, Nat.add_assoc]
  · have hwv : w ≠ v := fun heq => h.not_below_parent hv (hsub kid' hkid') (heq ▸ hw)
    rw [update_of_ne hwv]
    rcases List.mem_append.mp hkid' with hmem | hmem
    · have hnot : ¬ Below kids kid w := fun hw' => by
        obtain rfl := h.kid_unique hv hkid (hsub kid' hkid') hw' hw
        exact hfresh hmem
      rw [hout w hnot]
      exact ha.below kid' hmem w hw
    · rw [List.mem_singleton.mp hmem] at hw
      exact hin w hw
  · rw [update_of_ne hwv, hout w (hnot kid (List.mem_append_right _ List.mem_cons_self))]
    exact ha.other w hwv fun kid' hkid' => hnot kid' (List.mem_append_left _ hkid')

/-- The loop of one call, when the calls for the kids do what they should. -/
theorem Added.loop (h : Ranked kids all rank) (hv : all v) {fuel : Nat}
    (hkids : ∀ kid ∈ kids v, ∀ weight, (∀ w, Below kids kid w → weight w = base w) →
      ∃ weight', calcWeight kids fuel kid weight = some weight' ∧
        (∀ w, Below kids kid w → weight' w = total w) ∧
        ∀ w, ¬ Below kids kid w → weight' w = weight w)
    (hbase : ∀ w, Below kids v w → weight w = base w) (hdone : done ++ rest = kids v)
    (ha : Added kids base total v weight done weight') :
    ∃ weight'', rest.foldlM (fun weight kid => (calcWeight kids fuel kid weight).map
        fun weight => update weight v (weight v + weight kid)) weight' = some weight'' ∧
      Added kids base total v weight (kids v) weight'' := by
  induction rest generalizing done weight' with
  | nil =>
      rw [List.append_nil] at hdone
      exact ⟨weight', rfl, hdone ▸ ha⟩
  | cons kid rest ih =>
      have hkid : kid ∈ kids v := hdone ▸ List.mem_append_right _ List.mem_cons_self
      have hfresh : kid ∉ done := fun hmem =>
        (List.nodup_append.mp (hdone ▸ h.nodup hv)).2.2 kid hmem kid List.mem_cons_self rfl
      obtain ⟨weight₁, hcalc, hin, hout⟩ := hkids kid hkid weight' fun w hw => by
        rw [ha.other w (fun heq => h.not_below_parent hv hkid (heq ▸ hw)) fun kid' hkid' hw' => ?_]
        · exact hbase w (.head hkid hw)
        · obtain rfl := h.kid_unique hv hkid (hdone ▸ List.mem_append_left _ hkid') hw hw'
          exact hfresh hkid'
      have hnext : (done ++ [kid]) ++ rest = kids v := by simp [hdone]
      obtain ⟨weight'', hfold, ha'⟩ := ih hnext (ha.step h hv hdone hin hout)
      refine ⟨weight'', ?_, ha'⟩
      rw [List.foldlM_cons, hcalc]
      exact hfold

/-- The recursion adds up the weights below a node and leaves the others alone. -/
theorem calcWeight_spec (h : Ranked kids all rank)
    (htotal : ∀ v, all v → total v = base v + ((kids v).map total).sum) {fuel : Nat}
    (hv : all v) (hfuel : rank v < fuel) (hbase : ∀ w, Below kids v w → weight w = base w) :
    ∃ weight', calcWeight kids fuel v weight = some weight' ∧
      (∀ w, Below kids v w → weight' w = total w) ∧
      ∀ w, ¬ Below kids v w → weight' w = weight w := by
  induction fuel generalizing v weight with
  | zero => omega
  | succ fuel ih =>
      have hkids : ∀ kid ∈ kids v, ∀ weight, (∀ w, Below kids kid w → weight w = base w) →
          ∃ weight', calcWeight kids fuel kid weight = some weight' ∧
            (∀ w, Below kids kid w → weight' w = total w) ∧
            ∀ w, ¬ Below kids kid w → weight' w = weight w := fun kid hkid weight hbase =>
        ih (h.closed hv hkid) (Nat.lt_of_lt_of_le (h.lt hv hkid) (Nat.le_of_lt_succ hfuel)) hbase
      have hstart : Added kids base total v weight [] weight :=
        ⟨by rw [hbase v .refl]; rfl, by simp, fun w _ _ => rfl⟩
      obtain ⟨weight', hfold, ha⟩ := hstart.loop h hv hkids hbase rfl
      refine ⟨weight', hfold, fun w hw => ?_, fun w hw => ?_⟩
      · rcases (Ranked.below_iff v w).mp hw with rfl | ⟨kid, hkid, hw⟩
        · rw [ha.root, htotal w hv]
        · exact ha.below kid hkid w hw
      · refine ha.other w (fun heq => hw (heq ▸ .refl)) fun kid hkid hw' => hw ?_
        exact .head hkid hw'

end Weights

section Order

variable {kids : α → List α} {all : α → Prop} {rank : α → Nat}

/-- With enough fuel every node has a list, which the recursion appends: the lists of its kids
and its own items. -/
theorem exists_block (h : Ranked kids all rank) (weight : α → Nat) (own : α → List β) :
    ∃ block : α → List β,
      (∀ v, all v → block v = (byWeight weight (kids v)).flatMap block ++ own v) ∧
      ∀ v fuel q, all v → rank v < fuel →
        dfsOrder kids weight own fuel v q = some (q ++ block v) := by
  let block : α → List β := fun v => (dfsOrder kids weight own (rank v + 1) v []).getD []
  have hstep : ∀ n v, rank v = n → all v →
      block v = (byWeight weight (kids v)).flatMap block ++ own v ∧
      ∀ fuel q, rank v < fuel → dfsOrder kids weight own fuel v q = some (q ++ block v) := by
    intro n
    induction n using Nat.strong_induction_on with
    | _ n ih =>
        intro v hn hv
        have hfold : ∀ (part : List α) (fuel : Nat) (q : List β), (∀ kid ∈ part, kid ∈ kids v) →
            rank v ≤ fuel →
            part.foldlM (fun q kid => dfsOrder kids weight own fuel kid q) q =
              some (q ++ part.flatMap block) := by
          intro part fuel
          induction part with
          | nil => intro q _ _; simp
          | cons kid part ihpart =>
              intro q hkids hfuel
              have hkid := hkids kid List.mem_cons_self
              have hlt := h.lt hv hkid
              rw [List.foldlM_cons, ((ih (rank kid) (hn ▸ hlt) kid rfl (h.closed hv hkid)).2 fuel q
                (Nat.lt_of_lt_of_le hlt hfuel))]
              simp only [Option.bind_eq_bind, Option.bind_some]
              rw [ihpart _ (fun kid' hkid' => hkids kid' (List.mem_cons_of_mem _ hkid')) hfuel]
              simp
        have hmem : ∀ kid ∈ byWeight weight (kids v), kid ∈ kids v := fun kid hkid =>
          (byWeight_perm weight (kids v)).mem_iff.mp hkid
        have hrun : ∀ fuel q, rank v < fuel → dfsOrder kids weight own fuel v q =
            some (q ++ ((byWeight weight (kids v)).flatMap block ++ own v)) := by
          intro fuel q hfuel
          obtain ⟨fuel, rfl⟩ := Nat.exists_eq_succ_of_ne_zero (Nat.ne_zero_of_lt hfuel)
          rw [dfsOrder, hfold _ fuel q hmem (Nat.le_of_lt_succ hfuel)]
          simp
        have hblock : block v = (byWeight weight (kids v)).flatMap block ++ own v := by
          simp only [block]
          rw [hrun _ [] (Nat.lt_succ_self _)]
          rfl
        exact ⟨hblock, fun fuel q hfuel => hblock ▸ hrun fuel q hfuel⟩
  exact ⟨block, fun v hv => (hstep _ v rfl hv).1, fun v fuel q hv => (hstep _ v rfl hv).2 fuel q⟩

theorem perm_flatMap {f g : α → List β} {l : List α} (h : ∀ a ∈ l, (f a).Perm (g a)) :
    (l.flatMap f).Perm (l.flatMap g) := by
  induction l with
  | nil => exact .refl _
  | cons a l ih =>
      rw [List.flatMap_cons, List.flatMap_cons]
      exact (h a List.mem_cons_self).append (ih fun a' ha' => h a' (List.mem_cons_of_mem _ ha'))

theorem block_perm [DecidableEq α] (h : Ranked kids all rank) (node : β → α) (items : List β)
    {weight : α → Nat} {block : α → List β} (hblock : ∀ v, all v → block v =
      (byWeight weight (kids v)).flatMap block ++ items.filter fun b => node b = v)
    {v : α} (hv : all v) : (block v).Perm (below kids node items v) := by
  induction hn : rank v using Nat.strong_induction_on generalizing v with
  | _ n ih =>
      rw [hblock v hv]
      refine List.Perm.trans (.append_right _ ?_) (below_perm h node items hv).symm
      refine ((byWeight_perm weight (kids v)).flatMap_right block).trans (perm_flatMap ?_)
      intro kid hkid
      exact ih _ (hn ▸ h.lt hv hkid) (h.closed hv hkid) rfl

/-- The list of a node stands in one piece in the list of every node above. -/
theorem block_infix (h : Ranked kids all rank) {weight : α → Nat} {own block : α → List β}
    (hblock : ∀ v, all v → block v = (byWeight weight (kids v)).flatMap block ++ own v) {v w : α}
    (hv : all v) (hw : Below kids v w) : block w <:+: block v := by
  induction hw with
  | refl => exact List.infix_rfl
  | @tail u w hu hkid ih =>
      refine List.IsInfix.trans ?_ ih
      have hmem := (byWeight_perm weight (kids u)).mem_iff.mpr hkid
      obtain ⟨front, back, hsplit⟩ := List.append_of_mem hmem
      rw [hblock u (h.below_all hv hu), hsplit]
      exact ⟨front.flatMap block, back.flatMap block ++ own u, by simp⟩

end Order

end SpecDecode.WeightedOrder
