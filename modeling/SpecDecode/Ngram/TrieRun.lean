import SpecDecode.Ngram.TrieInvariant
import Mathlib.Algebra.Order.BigOperators.Group.List
import Mathlib.Algebra.Order.Group.Nat

/-!
# Runs of the trie

The walk of `insert` keeps the invariant and returns a chain of nodes from the root;
moving that chain to the front of `global_lru_` keeps parents before children. The
last node of the list is then always a leaf, which is what `squeeze` needs.

A run goes wrong exactly when some call asks `squeeze` for the slot of the root. The counts of the
model have no bound; `OpFits` is what keeps those of the code below theirs.
-/

namespace SpecDecode.Ngram

open Function

namespace Trie

section Walk

variable {c : TrieConfig} {t t' : Trie}

/-- What the walk does to a trie: it only adds nodes and keeps all versions. -/
structure Grows (t t' : Trie) : Prop where
  root : t'.root = t.root
  epoch : t'.trieEpoch = t.trieEpoch
  version : ∀ u, (t'.nodes u).version = (t.nodes u).version
  path : ∀ u p, t.Spells u p → t'.Spells u p

theorem Grows.refl (t : Trie) : Grows t t := ⟨rfl, rfl, fun _ => rfl, fun _ _ h => h⟩

theorem Grows.trans {t'' : Trie} (h : Grows t t') (h' : Grows t' t'') : Grows t t'' :=
  ⟨h'.root.trans h.root, h'.epoch.trans h.epoch, fun u => (h'.version u).trans (h.version u),
    fun u p hp => h'.path u p (h.path u p hp)⟩

theorem Grows.evolves (h : Grows t t') : Evolves t t' :=
  ⟨h.root, h.epoch, fun u => Nat.le_of_eq (h.version u).symm, fun u p hp _ => h.path u p hp⟩

theorem Grows.of_nodes (h : Inv c t) (hnodes : t'.nodes = t.nodes) (hroot : t'.root = t.root)
    (hepoch : t'.trieEpoch = t.trieEpoch) : Grows t t' :=
  ⟨hroot, hepoch, fun _ => by rw [hnodes],
    fun _ _ => Spells.mono h hroot fun _ _ _ he => hnodes ▸ he⟩

theorem AddedChild.grows {cursor : Nat} {token : Int} (h : Inv c t) (hfree : 0 < t.freeNodeCount)
    (ha : AddedChild t t' cursor token) : Grows t t' where
  root := ha.root
  epoch := ha.epoch
  version u := by
    by_cases hu : u = t.nextFree
    · rw [hu, ha.fresh]
      rfl
    · exact (ha.fields u hu).2.2.2
  path _ _ := Spells.mono h ha.root fun _ hu _ he =>
    (ha.child_mem (AddedChild.ne_nextFree h hfree hu)).mpr (.inl he)

theorem Touched.grows {cursor node : Nat} (h : Inv c t) (ha : Touched t t' cursor node) :
    Grows t t' where
  root := ha.root
  epoch := ha.epoch
  version u := (ha.fields u).2.2.2
  path _ _ := Spells.mono h ha.root fun u _ _ he => (ha.fields u).1 ▸ he

inductive PathSpells (t : Trie) : List Int → List Int → List Nat → Prop where
  | nil {pre : List Int} : PathSpells t pre [] []
  | cons {pre tokens : List Int} {token : Int} {v : Nat} {path : List Nat}
      (h : t.Spells v (pre ++ [token])) (rest : PathSpells t (pre ++ [token]) tokens path) :
      PathSpells t pre (token :: tokens) (v :: path)

/-- The counts of the children of the root: at most one for every walk since the last reset. -/
def walks (t : Trie) : Nat := t.childFreq t.root

/-- The walk keeps the invariant; the nodes it passes spell the inserted tokens. -/
theorem walk_spec (tokens : List Int) (t : Trie) (cursor : Nat) (pre : List Int) (h : Inv c t)
    (hcursor : t.Spells cursor pre)
    (hroom : cursor = t.root ∨ t.childFreq cursor + 1 ≤ (t.nodes cursor).freq)
    (hfree : tokens.length ≤ t.freeNodeCount) :
    Inv c (walk cursor tokens t).2 ∧ Grows t (walk cursor tokens t).2 ∧
      PathSpells (walk cursor tokens t).2 pre tokens (walk cursor tokens t).1 ∧
      (walk cursor tokens t).2.walks ≤ t.walks + if t.root = cursor then 1 else 0 := by
  induction tokens generalizing t cursor pre with
  | nil => exact ⟨h, .refl t, .nil, Nat.le_add_right _ _⟩
  | cons token tokens ih =>
      rw [List.length_cons] at hfree
      have hlive := hcursor.live h
      unfold walk
      cases hfind : t.findChild cursor token with
      | none =>
          have hpos : 0 < t.freeNodeCount := by omega
          have hne := AddedChild.ne_nextFree h hpos hlive
          obtain ⟨hnode, ha⟩ : (t.addChild cursor token).1 = t.nextFree ∧
              AddedChild t (t.addChild cursor token).2 cursor token := addChild_spec hne
          dsimp only
          generalize (t.addChild cursor token).2 = t' at ha
          rw [hnode]
          have h' := ha.inv h hpos hlive hfind hroom
          have hspells : t'.Spells t.nextFree (pre ++ [token]) :=
            .child ((ha.grows h hpos).path _ _ hcursor)
              ((ha.child_mem hne).mpr (.inr ⟨rfl, rfl⟩))
          have hroom' : t'.childFreq t.nextFree + 1 ≤ (t'.nodes t.nextFree).freq := by
            rw [ha.childFreq_new, ha.fresh]
            exact Nat.le_refl _
          have hroot : t.root ≠ t.nextFree := AddedChild.ne_nextFree h hpos (.inl rfl)
          have hwalks : t'.walks = t.walks + if t.root = cursor then 1 else 0 := by
            rw [walks, ha.root]
            exact ha.childFreq_eq h hpos (.inl rfl)
          obtain ⟨hinv, hgrows, hpath, hcount⟩ := ih t' t.nextFree (pre ++ [token]) h' hspells
            (.inr hroom') (by rw [ha.free]; omega)
          rw [ha.root, if_neg hroot, hwalks] at hcount
          exact ⟨hinv, (ha.grows h hpos).trans hgrows, .cons (hgrows.path _ _ hspells) hpath,
            hcount⟩
      | some node =>
          have hentry := (h.node cursor hlive).findChild_eq_some.mp hfind
          obtain ⟨hmem, hparent, _⟩ := (h.node cursor hlive).child _ hentry
          have hne : cursor ≠ node := fun heq =>
            (h.parent node hmem).2.1 (hparent.trans heq)
          have hnode : node ∈ t.childNodes cursor := List.mem_map.mpr ⟨_, hentry, rfl⟩
          have ha := touchChild_spec (t := t) hne
          dsimp only
          generalize t.touchChild cursor node = t' at ha
          have h' := ha.inv h hlive hnode hroom hne
          have hspells : t'.Spells node (pre ++ [token]) :=
            (ha.grows h).path _ _ (.child hcursor hentry)
          have hroom' : t'.childFreq node + 1 ≤ (t'.nodes node).freq := by
            rw [ha.childFreq_eq h hlive hnode (.inr hmem), if_neg hne.symm, ha.freq, if_pos rfl]
            exact Nat.succ_le_succ (h.freq node hmem)
          have hroot : t.root ≠ node := fun heq => h.root_notMem (heq ▸ hmem)
          have hwalks : t'.walks = t.walks + if t.root = cursor then 1 else 0 := by
            rw [walks, ha.root]
            exact ha.childFreq_eq h hlive hnode (.inl rfl)
          obtain ⟨hinv, hgrows, hpath, hcount⟩ := ih t' node (pre ++ [token]) h' hspells
            (.inr hroom') (by rw [ha.free]; omega)
          rw [ha.root, if_neg hroot, hwalks] at hcount
          exact ⟨hinv, (ha.grows h).trans hgrows, .cons (hgrows.path _ _ hspells) hpath, hcount⟩

end Walk

section Splice

variable {c : TrieConfig} {t : Trie}

/-- Any reordering of `global_lru_` that keeps parents first keeps the invariant. -/
theorem Inv.reorder (h : Inv c t) {lru : List Nat} (hperm : lru.Perm t.globalLru)
    (horder : lru.Pairwise fun a b => (t.nodes a).parent ≠ b) :
    Inv c { t with globalLru := lru } := by
  have hlive : ∀ u, { t with globalLru := lru }.Live u ↔ t.Live u := fun u =>
    or_congr Iff.rfl hperm.mem_iff
  refine ⟨?_, ?_, ?_, horder, ?_⟩
  · exact ((hperm.append_right _).cons _).trans h.pool
  · intro u hu
    have hok := h.node u ((hlive u).mp hu)
    exact ⟨hok.keys, fun e he => ⟨hperm.mem_iff.mpr (hok.child e he).1, (hok.child e he).2⟩,
      hok.lru, hok.sorted, hok.ordered⟩
  · intro v hv
    obtain ⟨hp, hrest⟩ := h.parent v (hperm.mem_iff.mp hv)
    exact ⟨(hlive _).mpr hp, hrest⟩
  · intro u hu
    exact h.freq u (hperm.mem_iff.mp hu)

/-- The list after a chain of nodes has been moved to its front, last node first. -/
theorem foldl_spliceFront (path : List Nat) (hpath : path.Nodup) (hlru : t.globalLru.Nodup) :
    path.reverse.foldl spliceFront t =
      { t with globalLru := path ++ t.globalLru.filter fun v => v ∉ path } := by
  induction path with
  | nil => simp
  | cons v path ih =>
      obtain ⟨hv, hpath⟩ := List.nodup_cons.mp hpath
      rw [List.reverse_cons, List.foldl_append, ih hpath, List.foldl_cons, List.foldl_nil]
      simp only [spliceFront]
      congr 1
      rw [List.erase_append_right _ hv, (hlru.filter _).erase_eq_filter, List.filter_filter,
        List.cons_append]
      congr 2
      refine List.filter_congr fun u _ => ?_
      by_cases huv : u = v <;> simp [huv]

theorem PathSpells.length_lt {pre tokens : List Int} {path : List Nat}
    (h : PathSpells t pre tokens path) :
    ∀ v ∈ path, ∃ p token, t.Spells v (p ++ [token]) ∧ pre.length ≤ p.length := by
  induction h with
  | nil => simp
  | @cons pre tokens token v path hv _ ih =>
      refine List.forall_mem_cons.mpr ⟨⟨pre, token, hv, Nat.le_refl _⟩, fun w hw => ?_⟩
      obtain ⟨p, token', hp, hlen⟩ := ih w hw
      rw [List.length_append] at hlen
      exact ⟨p, token', hp, by omega⟩

/-- Along a chain below `cursor`, the nodes differ and each one's parent is the
cursor or comes before it. -/
theorem PathSpells.chain (h : Inv c t) {cursor : Nat} {pre tokens : List Int} {path : List Nat}
    (hpath : PathSpells t pre tokens path) (hcursor : t.Spells cursor pre) :
    path.Nodup ∧ (path.Pairwise fun a b => (t.nodes a).parent ≠ b) ∧
      ∀ a ∈ path, (t.nodes a).parent = cursor ∨ (t.nodes a).parent ∈ path := by
  induction hpath generalizing cursor with
  | nil => simp
  | @cons pre tokens token v path hv hrest ih =>
      obtain ⟨hnodup, horder, hparent⟩ := ih hv
      have hcursor' : (t.nodes v).parent = cursor := (hv.parent h).node_unique h hcursor
      have hdeeper : ∀ w ∈ path, w ≠ v ∧ (t.nodes v).parent ≠ w := by
        intro w hw
        obtain ⟨p, token', hp, hlen⟩ := hrest.length_lt w hw
        rw [List.length_append] at hlen
        refine ⟨fun heq => ?_, fun heq => ?_⟩
        · have := congrArg List.length (hp.unique h (heq ▸ hv))
          simp at this hlen
          omega
        · have := congrArg List.length (hp.unique h (heq ▸ hcursor' ▸ hcursor))
          simp at this hlen
          omega
      refine ⟨List.nodup_cons.mpr ⟨fun hmem => (hdeeper v hmem).1 rfl, hnodup⟩,
        List.pairwise_cons.mpr ⟨fun w hw => (hdeeper w hw).2, horder⟩, ?_⟩
      refine List.forall_mem_cons.mpr ⟨.inl hcursor', fun w hw => .inr ?_⟩
      rcases hparent w hw with heq | hmem
      · rw [heq]
        exact List.mem_cons_self ..
      · exact List.mem_cons_of_mem _ hmem

theorem PathSpells.mem_lru (h : Inv c t) {pre tokens : List Int} {path : List Nat}
    (hpath : PathSpells t pre tokens path) : ∀ v ∈ path, v ∈ t.globalLru := by
  intro v hv
  obtain ⟨p, token, hp, _⟩ := hpath.length_lt v hv
  rcases hp.live h with rfl | hmem
  · exact absurd (hp.unique h .root) (by simp)
  · exact hmem

/-- Moving the chain of an insertion to the front keeps the invariant. -/
theorem Inv.splice (h : Inv c t) {tokens : List Int} {path : List Nat}
    (hpath : PathSpells t [] tokens path) :
    Inv c (path.reverse.foldl spliceFront t) ∧ Grows t (path.reverse.foldl spliceFront t) ∧
      (path.reverse.foldl spliceFront t).walks = t.walks := by
  obtain ⟨hnodup, horder, hparent⟩ := hpath.chain h .root
  rw [foldl_spliceFront path hnodup h.lru_nodup]
  refine ⟨h.reorder ?_ ?_, .of_nodes h rfl rfl rfl, rfl⟩
  · refine (List.perm_ext_iff_of_nodup ?_ h.lru_nodup).mpr fun v => ?_
    · refine List.nodup_append.mpr ⟨hnodup, h.lru_nodup.filter _, ?_⟩
      rintro a ha b hb rfl
      simp [ha] at hb
    · have := hpath.mem_lru h v
      by_cases hv : v ∈ path <;> simp_all
  · refine List.pairwise_append.mpr ⟨horder, h.order.filter _, ?_⟩
    intro a ha b hb heq
    rw [List.mem_filter] at hb
    rcases hparent a ha with hroot | hmem
    · exact h.root_notMem (hroot ▸ heq ▸ hb.1)
    · exact absurd (heq ▸ hmem) (by simpa using hb.2)

end Splice

section Release

variable {c : TrieConfig} {t : Trie} {last : Nat} {front : List Nat}

theorem Inv.last_leaf (h : Inv c t) (hlru : t.globalLru = front ++ [last]) :
    (t.nodes last).child = [] := by
  refine List.eq_nil_iff_forall_not_mem.mpr fun e he => ?_
  have hlast : last ∈ t.globalLru := by simp [hlru]
  obtain ⟨hmem, hparent, _⟩ := (h.node last (.inr hlast)).child e he
  have horder := h.order
  rw [hlru, List.pairwise_append] at horder
  have hne := (h.parent e.2 hmem).2.1
  rw [hlru, List.mem_append, List.mem_singleton] at hmem
  rcases hmem with hfront | heq
  · exact horder.2.2 e.2 hfront last (by simp) hparent
  · exact hne (hparent.trans heq.symm)

structure Released (t t' : Trie) (front : List Nat) (last : Nat) : Prop where
  root : t'.root = t.root
  epoch : t'.trieEpoch = t.trieEpoch
  lru : t'.globalLru = front
  free : t'.freeNodeCount = t.freeNodeCount + 1
  pool : t'.nodePool = update t.nodePool t.freeNodeCount last
  fields : ∀ u, (t'.nodes u).token = (t.nodes u).token ∧
    (t'.nodes u).parent = (t.nodes u).parent ∧ (t'.nodes u).freq = (t.nodes u).freq
  version : ∀ u, (t'.nodes u).version = (t.nodes u).version + if u = last then 1 else 0
  other : ∀ u, u ≠ (t.nodes last).parent → (t'.nodes u).child = (t.nodes u).child ∧
    (t'.nodes u).lru = (t.nodes u).lru ∧ (t'.nodes u).sortedChildren = (t.nodes u).sortedChildren
  child : (t'.nodes (t.nodes last).parent).child =
    (t.nodes (t.nodes last).parent).child.filter fun e => e.1 ≠ (t.nodes last).token
  childLru : (t'.nodes (t.nodes last).parent).lru = (t.nodes (t.nodes last).parent).lru.erase last
  sorted : (t'.nodes (t.nodes last).parent).sortedChildren =
    eraseSorted t.nodes last (t.nodes (t.nodes last).parent).sortedChildren

theorem releaseLast_spec (h : Inv c t) (hlru : t.globalLru = front ++ [last]) :
    ∃ t', t.releaseLast = .returned t' ∧ Released t t' front last := by
  have hlast : last ∈ t.globalLru := by simp [hlru]
  have hne := (h.parent last hlast).2.1
  have hleaf := h.last_leaf hlru
  have hend : t.globalLru.getLast? = some last := by simp [hlru]
  unfold releaseLast
  rw [hend]
  simp only [hleaf, ne_eq, not_true_eq_false, if_false, update_of_ne hne.symm]
  refine ⟨_, rfl, rfl, rfl, by simp [hlru], rfl, rfl, ?_, ?_, ?_, ?_, ?_, ?_⟩
  · intro u
    by_cases hul : u = last
    · subst hul
      simp
    · by_cases hup : u = (t.nodes last).parent
      · subst hup
        simp [update_of_ne hul]
      · simp [update_of_ne hul, update_of_ne hup]
  · intro u
    by_cases hul : u = last
    · subst hul
      simp
    · by_cases hup : u = (t.nodes last).parent
      · subst hup
        simp [hul]
      · simp [update_of_ne hup, hul]
  · intro u hup
    by_cases hul : u = last
    · subst hul
      simp [hleaf]
    · simp [update_of_ne hul, update_of_ne hup]
  · simp [update_of_ne hne]
  · simp [update_of_ne hne]
  · simp [update_of_ne hne]

namespace Released

variable {t' : Trie} (h : Inv c t) (hlru : t.globalLru = front ++ [last])

include h hlru

theorem last_notMem : last ∉ front := by
  have hnodup := h.lru_nodup
  rw [hlru, List.nodup_append] at hnodup
  exact fun hmem => hnodup.2.2 last hmem last (by simp) rfl

theorem live (ha : Released t t' front last) {u : Nat} : t'.Live u ↔ t.Live u ∧ u ≠ last := by
  have hroot := h.root_notMem
  have hnot := last_notMem h hlru
  simp only [Live, ha.root, ha.lru, hlru, List.mem_append, List.mem_singleton] at hroot ⊢
  constructor
  · rintro (rfl | hmem)
    · exact ⟨.inl rfl, fun heq => hroot (.inr heq)⟩
    · exact ⟨.inr (.inl hmem), fun heq => hnot (heq ▸ hmem)⟩
  · rintro ⟨hroot | hmem | heq, hne⟩
    · exact .inl hroot
    · exact .inr hmem
    · exact absurd heq hne

theorem entry_iff {e : Int × Nat} (he : e ∈ (t.nodes (t.nodes last).parent).child) :
    e.1 ≠ (t.nodes last).token ↔ e.2 ≠ last := by
  have hlast : last ∈ t.globalLru := by simp [hlru]
  obtain ⟨hlive, _, hentry⟩ := h.parent last hlast
  have hok := h.node _ hlive
  refine not_congr ⟨fun htoken => ?_, fun heq => ?_⟩
  · have he' := hok.findChild_eq_some.mpr he
    rw [htoken, hok.findChild_eq_some.mpr hentry] at he'
    exact (Option.some.inj he').symm
  · rw [← heq]
    exact (hok.child e he).2.2.symm

section

variable (ha : Released t t' front last)

include ha

theorem childNodes_eq :
    t'.childNodes (t.nodes last).parent = (t.childNodes (t.nodes last).parent).erase last := by
  have hlast : last ∈ t.globalLru := by simp [hlru]
  have hok := h.node _ (h.parent last hlast).1
  rw [hok.childNodes_nodup.erase_eq_filter, childNodes, childNodes, ha.child, List.filter_map]
  refine congrArg _ (List.filter_congr fun e he => ?_)
  rw [Bool.eq_iff_iff, decide_eq_true_eq, entry_iff h hlru he]
  simp

theorem nodeOk {u : Nat} (hu : t'.Live u) : NodeOk t' u := by
  obtain ⟨hold, hne⟩ := (live h hlru ha).mp hu
  have hok := h.node u hold
  have hkept : ∀ y : Nat, (t'.nodes y).freq = (t.nodes y).freq ∧
      (t'.nodes y).token = (t.nodes y).token := fun y => ⟨(ha.fields y).2.2, (ha.fields y).1⟩
  have hfront : ∀ e ∈ (t.nodes u).child, e.2 ≠ last → e.2 ∈ t'.globalLru ∧
      (t'.nodes e.2).parent = u ∧ (t'.nodes e.2).token = e.1 := by
    intro e he hel
    obtain ⟨hmem, hparent, htoken⟩ := hok.child e he
    rw [hlru, List.mem_append, List.mem_singleton] at hmem
    rw [ha.lru, (ha.fields e.2).1, (ha.fields e.2).2.1]
    exact ⟨hmem.resolve_right hel, hparent, htoken⟩
  by_cases hup : u = (t.nodes last).parent
  · subst hup
    have hnodup := hok.sorted.nodup_iff.mpr hok.childNodes_nodup
    refine ⟨?_, ?_, ?_, ?_, ?_⟩
    · rw [ha.child]
      exact hok.keys.sublist (List.filter_sublist.map _)
    · intro e he
      rw [ha.child, List.mem_filter] at he
      exact hfront e he.1 ((entry_iff h hlru he.1).mp (by simpa using he.2))
    · rw [childNodes_eq h hlru ha, ha.childLru]
      exact hok.lru.erase last
    · rw [childNodes_eq h hlru ha, ha.sorted, eraseSorted_eq hnodup]
      exact hok.sorted.erase last
    · rw [ha.sorted]
      exact pairwise_less_congr (fun y _ => hkept y) (hok.ordered.filter _)
  · obtain ⟨hchild, hlru', hsorted⟩ := ha.other u hup
    refine ⟨by rw [hchild]; exact hok.keys, ?_, ?_, ?_, ?_⟩
    · intro e he
      rw [hchild] at he
      exact hfront e he fun heq => hup (by rw [← heq, (hok.child e he).2.1])
    · rw [childNodes, hchild, hlru']
      exact hok.lru
    · rw [childNodes, hchild, hsorted]
      exact hok.sorted
    · rw [hsorted]
      exact pairwise_less_congr (fun y _ => hkept y) hok.ordered

theorem childFreq_le (u : Nat) : t'.childFreq u ≤ t.childFreq u := by
  have hsame : (fun v => (t'.nodes v).freq) = fun v => (t.nodes v).freq :=
    funext fun v => (ha.fields v).2.2
  rw [childFreq, childFreq, hsame]
  by_cases hup : u = (t.nodes last).parent
  · subst hup
    have hlast : last ∈ t.globalLru := by simp [hlru]
    obtain ⟨hlive, _, hentry⟩ := h.parent last hlast
    have hperm := List.perm_cons_erase ((h.node _ hlive).mem_childNodes.mpr hentry)
    rw [childNodes_eq h hlru ha, (hperm.map _).sum_nat, List.map_cons, List.sum_cons]
    exact Nat.le_add_left _ _
  · rw [childNodes, (ha.other u hup).1]
    exact Nat.le_refl _

theorem walks_le : t'.walks ≤ t.walks := by
  rw [walks, ha.root]
  exact childFreq_le h hlru ha t.root

theorem inv : Inv c t' where
  pool := by
    refine List.Perm.trans ?_ h.pool
    have hkeep : (List.range t.freeNodeCount).map t'.nodePool = t.freeNodes := by
      refine List.map_congr_left fun i hi => ?_
      rw [ha.pool, update_of_ne (Nat.ne_of_lt (List.mem_range.mp hi))]
    have hfree : t'.freeNodes = t.freeNodes ++ [last] := by
      rw [freeNodes, ha.free, List.range_succ, List.map_append, hkeep, List.map_singleton, ha.pool,
        update_self]
    rw [ha.root, ha.lru, hfree, hlru, List.append_assoc]
    exact ((List.perm_append_comm).append_left _).cons _
  node u hu := nodeOk h hlru ha hu
  parent v hv := by
    rw [ha.lru] at hv
    have hvl : v ≠ last := fun heq => last_notMem h hlru (heq ▸ hv)
    obtain ⟨hp, hne, hentry⟩ := h.parent v (by rw [hlru]; exact List.mem_append_left _ hv)
    have hpl : (t.nodes v).parent ≠ last := by
      have horder := h.order
      rw [hlru, List.pairwise_append] at horder
      exact horder.2.2 v hv last (by simp)
    rw [(ha.fields v).1, (ha.fields v).2.1]
    refine ⟨(live h hlru ha).mpr ⟨hp, hpl⟩, hne, ?_⟩
    by_cases hup : (t.nodes v).parent = (t.nodes last).parent
    · rw [hup] at hentry ⊢
      rw [ha.child, List.mem_filter]
      exact ⟨hentry, by simpa using (entry_iff h hlru hentry).mpr hvl⟩
    · rw [(ha.other _ hup).1]
      exact hentry
  order := by
    have horder := h.order
    rw [hlru, List.pairwise_append] at horder
    rw [ha.lru]
    exact horder.1.imp fun hab => by rwa [(ha.fields _).2.1]
  freq u hu := by
    rw [ha.lru] at hu
    rw [(ha.fields u).2.2]
    exact Nat.le_trans (childFreq_le h hlru ha u)
      (h.freq u (by rw [hlru]; exact List.mem_append_left _ hu))

/-- The other nodes keep their paths: none leads through a leaf. -/
theorem evolves : Evolves t t' where
  root := ha.root
  epoch := ha.epoch
  version u := by
    rw [ha.version]
    omega
  path u p hp hversion := by
    have hul : u ≠ last := fun heq => by
      rw [ha.version, if_pos heq] at hversion
      omega
    clear hversion
    induction hp with
    | root =>
        rw [← ha.root]
        exact .root
    | @child w v p token hw hchild ih =>
        have hwl : w ≠ last := fun heq => by
          rw [heq, h.last_leaf hlru] at hchild
          simp at hchild
        refine .child (ih hwl) ?_
        by_cases hup : w = (t.nodes last).parent
        · subst hup
          rw [ha.child, List.mem_filter]
          exact ⟨hchild, by simpa using (entry_iff h hlru hchild).mpr hul⟩
        · rw [(ha.other w hup).1]
          exact hchild

end

end Released

end Release

section Operations

variable {c : TrieConfig} {t : Trie}

/-- A defined outcome with at most `n` walks: the invariant holds and the only exception is the one
about too few nodes. -/
def Defined (c : TrieConfig) (t : Trie) (n : Nat) : Outcome → Prop
  | .returned t' => Inv c t' ∧ Evolves t t' ∧ t'.walks ≤ t.walks + n
  | .threw e t' => e ≠ .notLeaf ∧ Inv c t' ∧ Evolves t t' ∧ t'.walks ≤ t.walks + n
  | .undefined => False

theorem Defined.trans {n m : Nat} {t' : Trie} {o : Outcome} (ho : Defined c t n (.returned t'))
    (hnext : Defined c t' m o) : Defined c t (n + m) o := by
  obtain ⟨-, hevolves, hcount⟩ := ho
  cases o with
  | returned t'' =>
      obtain ⟨hinv, hevolves', hcount'⟩ := hnext
      exact ⟨hinv, hevolves.trans hevolves', by omega⟩
  | threw e t'' =>
      obtain ⟨hleaf, hinv, hevolves', hcount'⟩ := hnext
      exact ⟨hleaf, hinv, hevolves.trans hevolves', by omega⟩
  | undefined => exact hnext.elim

theorem Defined.andThen {n m : Nat} {o : Outcome} {f : Trie → Outcome} (ho : Defined c t n o)
    (hf : ∀ t', o = .returned t' → Inv c t' → Defined c t' m (f t')) :
    Defined c t (n + m) (o.andThen f) := by
  cases o with
  | returned t' => exact ho.trans (hf t' rfl ho.1)
  | threw e t' => exact ⟨ho.1, ho.2.1, ho.2.2.1, Nat.le_trans ho.2.2.2 (by omega)⟩
  | undefined => exact ho

theorem releaseNodes_spec (count : Nat) (h : Inv c t) (hcount : count ≤ t.globalLru.length) :
    ∃ t', releaseNodes count t = .returned t' ∧ Inv c t' ∧ Evolves t t' ∧
      t'.freeNodeCount = t.freeNodeCount + count ∧ t'.walks ≤ t.walks := by
  induction count generalizing t with
  | zero => exact ⟨t, rfl, h, .refl t, rfl, Nat.le_refl _⟩
  | succ count ih =>
      have hne : t.globalLru ≠ [] := fun hnil => by simp [hnil] at hcount
      have hlru := (List.dropLast_concat_getLast hne).symm
      obtain ⟨t', hrun, ha⟩ := releaseLast_spec h hlru
      have hlen : count ≤ t'.globalLru.length := by
        rw [ha.lru, List.length_dropLast]
        omega
      obtain ⟨t'', hrest, hinv, hevolves, hfree, hcounted⟩ := ih (ha.inv h hlru) hlen
      refine ⟨t'', ?_, hinv, (ha.evolves h hlru).trans hevolves, by rw [hfree, ha.free]; omega,
        hcounted.trans (ha.walks_le h hlru)⟩
      rw [releaseNodes, hrun]
      exact hrest

/-- `squeeze` is defined unless it is asked for the root's slot as well. -/
theorem squeeze_spec (h : Inv c t) {count : Nat} (hcount : t.freeNodeCount + count ≠ c.capacity) :
    Defined c t 0 (t.squeeze c count) ∧ ∀ t', t.squeeze c count = .returned t' →
      t'.freeNodeCount = t.freeNodeCount + count := by
  have hpool := h.count
  unfold squeeze
  split
  · exact ⟨⟨by simp, h, .refl t, Nat.le_refl _⟩, by simp⟩
  · obtain ⟨t', hrun, hinv, hevolves, hfree, hcounted⟩ := releaseNodes_spec count h (by omega)
    rw [hrun]
    refine ⟨⟨hinv, hevolves, hcounted⟩, fun t'' heq => ?_⟩
    cases heq
    exact hfree

theorem insertSuffix_spec (h : Inv c t) {suffix : List Int}
    (hlen : suffix.length ≠ c.capacity) : Defined c t 1 (t.insertSuffix c suffix) := by
  have hpool := h.count
  rw [← Nat.zero_add 1]
  refine Defined.andThen ?_ ?_
  · split
    · exact (squeeze_spec h (by omega)).1
    · exact ⟨h, .refl t, Nat.le_refl _⟩
  · intro t' hmade h'
    have hfree : suffix.length ≤ t'.freeNodeCount := by
      split at hmade
      · rw [(squeeze_spec h (by omega)).2 t' hmade]
        omega
      · cases hmade
        omega
    obtain ⟨hinv, hgrows, hpath, hcount⟩ :=
      walk_spec suffix t' t'.root [] h' .root (.inl rfl) hfree
    obtain ⟨hinv', hgrows', hsame⟩ := hinv.splice hpath
    rw [if_pos rfl, ← hsame] at hcount
    exact ⟨hinv', (hgrows.trans hgrows').evolves, hcount⟩

/-- Later suffixes are shorter: only the first one can be as long as the pool. -/
theorem insert_spec (tokens : List Int) (h : Inv c t)
    (hlen : min tokens.length c.maxTrieDepth < c.capacity) :
    Defined c t tokens.length (t.insert c tokens) := by
  induction tokens generalizing t with
  | nil => exact ⟨h, .refl t, Nat.le_refl _⟩
  | cons token rest ih =>
      rw [List.length_cons] at hlen
      rw [List.length_cons, Nat.add_comm]
      refine Defined.andThen (insertSuffix_spec h ?_) fun t' _ h' => ih h' (by omega)
      rw [List.length_take, List.length_cons]
      omega

/-- When the first suffix is longer than the pool, nothing is inserted. -/
theorem insert_threw {tokens : List Int} (h : Inv c t)
    (hlen : c.capacity < min tokens.length c.maxTrieDepth) :
    ∃ e, e ≠ .notLeaf ∧ t.insert c tokens = .threw e t := by
  have hpool := h.count
  cases tokens with
  | nil => simp at hlen
  | cons token rest =>
      have hsuffix : ((token :: rest).take c.maxTrieDepth).length =
          min (rest.length + 1) c.maxTrieDepth := by
        rw [List.length_take, List.length_cons, Nat.min_comm]
      rw [List.length_cons] at hlen
      refine ⟨.insufficient (c.capacity - t.freeNodeCount)
        (min (rest.length + 1) c.maxTrieDepth - t.freeNodeCount), by simp, ?_⟩
      rw [insert, insertSuffix, hsuffix, if_pos (by omega), squeeze, if_pos (by omega)]
      rfl

@[simp] theorem walks_refill (c : TrieConfig) (t : Trie) : (refill c t).walks = 0 := by
  simp [walks, childFreq, childNodes, refill, getNode, TrieNode.new]

theorem refill_inv (hc : 0 < c.capacity) (t : Trie) : Inv c (refill c t) := by
  obtain ⟨k, hk⟩ : ∃ k, c.capacity = k + 1 := ⟨c.capacity - 1, by omega⟩
  have hroot : (refill c t).root = k := by simp [refill, getNode, hk]
  have hnode : (refill c t).nodes k = .new (t.nodes k).version := by simp [refill, getNode, hk]
  have hlru : (refill c t).globalLru = [] := rfl
  have hfree : (refill c t).freeNodes = List.range k := by
    simp [refill, getNode, freeNodes, hk]
  refine ⟨?_, ?_, ?_, ?_, ?_⟩
  · rw [hroot, hlru, hfree, hk, List.range_succ]
    exact (List.perm_append_singleton k _).symm
  · rintro u (hu | hu)
    · rw [hroot] at hu
      subst hu
      apply NodeOk.of_leaf <;> rw [hnode] <;> rfl
    · simp [hlru] at hu
  · simp [hlru]
  · simp [hlru]
  · simp [hlru]

end Operations

/-- The calls that change a trie. -/
inductive TrieOp where
  | insert (tokens : List Int)
  | squeeze (count : Nat)
  | reset

def step (c : TrieConfig) (t : Trie) : TrieOp → Outcome
  | .insert tokens => t.insert c tokens
  | .squeeze count => t.squeeze c count
  | .reset => .returned (t.reset c)

/-- The node `v` hangs somewhere below `u`. -/
def Descendant (t : Trie) : Nat → Nat → Prop := Relation.TransGen fun u v => v ∈ t.childNodes u

structure WellFormed (c : TrieConfig) (t : Trie) : Prop where
  pool : (t.root :: (t.globalLru ++ t.freeNodes)).Perm (List.range c.capacity)
  reachable : ∀ v, v ∈ t.globalLru ↔ v ≠ t.root ∧ ∃ p, t.Spells v p
  order : ∀ u v, u ∈ t.globalLru → t.Descendant u v → t.globalLru.idxOf u < t.globalLru.idxOf v
  last : ∀ v, t.globalLru.getLast? = some v → (t.nodes v).child = []
  children : ∀ u, t.Live u →
    (t.nodes u).lru.Perm (t.childNodes u) ∧ (t.nodes u).sortedChildren.Perm (t.childNodes u)
  freq : ∀ u ∈ t.globalLru, t.childFreq u ≤ (t.nodes u).freq
  counter : ∀ u ∈ t.globalLru, (t.nodes u).freq < 2 ^ 31

/-- Every call of the run ends, none in the `notLeaf` branch, and the trie is
well-formed all along. -/
def RunWellFormed (c : TrieConfig) : List TrieOp → Trie → Prop
  | [], t => WellFormed c t
  | op :: ops, t => WellFormed c t ∧
      ∃ t', (t.step c op = .returned t' ∨ ∃ e, e ≠ .notLeaf ∧ t.step c op = .threw e t') ∧
        RunWellFormed c ops t'

/-- The guard of `squeeze` counts the slot of the root as releasable: no call may
ask for exactly the whole pool. -/
def OpOk (c : TrieConfig) (t : Trie) : TrieOp → Prop
  | .insert tokens => min tokens.length c.maxTrieDepth ≠ c.capacity
  | .squeeze count => t.freeNodeCount + count ≠ c.capacity
  | .reset => True

def RunOk (c : TrieConfig) : List TrieOp → Trie → Prop
  | [], _ => True
  | op :: ops, t => OpOk c t op ∧ ∀ t', (t.step c op).state = some t' → RunOk c ops t'

def TrieOp.walks : TrieOp → Nat
  | .insert tokens => tokens.length
  | .squeeze _ => 0
  | .reset => 0

/-- The `int32_t` counts and the `size_t` sum in the guard of `squeeze` do not overflow. -/
def OpFits (t : Trie) (op : TrieOp) : Prop :=
  t.walks + op.walks < 2 ^ 31 ∧ ∀ count, op = .squeeze count → t.freeNodeCount + count < 2 ^ 64

def RunFits (c : TrieConfig) : List TrieOp → Trie → Prop
  | [], _ => True
  | op :: ops, t => OpFits t op ∧ ∀ t', (t.step c op).state = some t' → RunFits c ops t'

section Runs

variable {c : TrieConfig} {t : Trie}

theorem Inv.idxOf_lt (h : Inv c t) {u v : Nat} (hu : u ∈ t.globalLru) (hv : v ∈ t.childNodes u) :
    v ∈ t.globalLru ∧ t.globalLru.idxOf u < t.globalLru.idxOf v := by
  obtain ⟨e, he, rfl⟩ := List.mem_map.mp hv
  obtain ⟨hmem, hparent, _⟩ := (h.node u (.inr hu)).child e he
  refine ⟨hmem, Nat.lt_of_not_le fun hle => ?_⟩
  have hne : u ≠ e.2 := hparent ▸ (h.parent e.2 hmem).2.1
  have hlt : t.globalLru.idxOf e.2 < t.globalLru.idxOf u :=
    Nat.lt_of_le_of_ne hle fun heq => hne ((List.idxOf_inj hmem).mp heq).symm
  have horder := List.pairwise_iff_getElem.mp h.order _ _
    (List.idxOf_lt_length_of_mem hmem) (List.idxOf_lt_length_of_mem hu) hlt
  rw [List.getElem_idxOf, List.getElem_idxOf] at horder
  exact horder hparent

theorem Inv.descendant_idxOf_lt (h : Inv c t) {u v : Nat} (hu : u ∈ t.globalLru)
    (hv : t.Descendant u v) : v ∈ t.globalLru ∧ t.globalLru.idxOf u < t.globalLru.idxOf v := by
  induction hv with
  | single hchild => exact h.idxOf_lt hu hchild
  | tail _ hchild ih =>
      obtain ⟨hmem, hlt⟩ := h.idxOf_lt ih.1 hchild
      exact ⟨hmem, Nat.lt_trans ih.2 hlt⟩

/-- A walk counts a node once, and every node is below a child of the root. -/
theorem Inv.freq_le_walks (h : Inv c t) {u : Nat} {p : List Int} (hp : t.Spells u p)
    (hu : u ∈ t.globalLru) : (t.nodes u).freq ≤ t.walks := by
  induction hp with
  | root => exact absurd hu h.root_notMem
  | @child u v p token hu' hentry ih =>
      have hle : (t.nodes v).freq ≤ t.childFreq u :=
        List.le_sum_of_mem (List.mem_map_of_mem (List.mem_map.mpr ⟨_, hentry, rfl⟩))
      rcases hu'.live h with rfl | hmem
      · exact hle
      · exact hle.trans ((h.freq u hmem).trans (ih hmem))

theorem Inv.wellFormed (h : Inv c t) (hwalks : t.walks < 2 ^ 31) : WellFormed c t where
  pool := h.pool
  reachable v := by
    constructor
    · intro hv
      exact ⟨fun heq => h.root_notMem (heq ▸ hv), h.exists_spells (.inr hv)⟩
    · rintro ⟨hne, p, hp⟩
      exact (hp.live h).resolve_left hne
  order u v hu hv := (h.descendant_idxOf_lt hu hv).2
  last v hv := by
    obtain ⟨front, hfront⟩ := List.getLast?_eq_some_iff.mp hv
    exact h.last_leaf hfront
  children u hu := ⟨(h.node u hu).lru, (h.node u hu).sorted⟩
  freq := h.freq
  counter u hu := by
    obtain ⟨p, hp⟩ := h.exists_spells (.inr hu)
    exact Nat.lt_of_le_of_lt (h.freq_le_walks hp hu) hwalks

/-- Asked for the root's slot, `squeeze` empties `global_lru_` and reads its back. -/
theorem releaseNodes_undefined (count : Nat) (h : Inv c t) (hcount : t.globalLru.length < count) :
    releaseNodes count t = .undefined := by
  induction count generalizing t with
  | zero => omega
  | succ count ih =>
      rcases List.eq_nil_or_concat t.globalLru with hnil | ⟨front, last, hlru⟩
      · simp [releaseNodes, releaseLast, hnil, Outcome.andThen]
      · rw [List.concat_eq_append] at hlru
        obtain ⟨t', hrel, ha⟩ := releaseLast_spec h hlru
        rw [releaseNodes, hrel]
        refine ih (ha.inv h hlru) ?_
        rw [ha.lru]
        simp [hlru] at hcount
        exact hcount

theorem squeeze_undefined {count : Nat} (h : Inv c t)
    (hcount : t.freeNodeCount + count = c.capacity) : t.squeeze c count = .undefined := by
  have hpool := h.count
  rw [squeeze, if_neg (by omega)]
  exact releaseNodes_undefined count h (by omega)

/-- A trie at a later time: after a reset, or evolved without one. -/
def Later (t t' : Trie) : Prop := t.trieEpoch < t'.trieEpoch ∨ Evolves t t'

theorem Later.trans {t' t'' : Trie} (h : Later t t') (h' : Later t' t'') : Later t t'' := by
  rcases h with hlt | h
  · rcases h' with hlt' | h'
    · exact .inl (Nat.lt_trans hlt hlt')
    · exact .inl (h'.epoch ▸ hlt)
  · rcases h' with hlt' | h'
    · exact .inl (h.epoch ▸ hlt')
    · exact .inr (h.trans h')

theorem step_spec (hc : 0 < c.capacity) (h : Inv c t) {op : TrieOp} (hop : OpOk c t op) :
    ∃ t', (t.step c op = .returned t' ∨ ∃ e, e ≠ .notLeaf ∧ t.step c op = .threw e t') ∧
      Inv c t' ∧ Later t t' ∧ t'.walks ≤ t.walks + op.walks := by
  have hdefined : ∀ (n : Nat) (o : Outcome), Defined c t n o →
      ∃ t', (o = .returned t' ∨ ∃ e, e ≠ .notLeaf ∧ o = .threw e t') ∧ Inv c t' ∧ Later t t' ∧
        t'.walks ≤ t.walks + n := by
    intro n o ho
    cases o with
    | returned t' => exact ⟨t', .inl rfl, ho.1, .inr ho.2.1, ho.2.2⟩
    | threw e t' => exact ⟨t', .inr ⟨e, ho.1, rfl⟩, ho.2.1, .inr ho.2.2.1, ho.2.2.2⟩
    | undefined => exact ho.elim
  cases op with
  | insert tokens =>
      rcases Nat.lt_or_gt_of_ne hop with hlt | hgt
      · exact hdefined _ _ (insert_spec tokens h hlt)
      · obtain ⟨e, he, hthrew⟩ := insert_threw h hgt
        exact ⟨t, .inr ⟨e, he, hthrew⟩, h, .inr (.refl t), Nat.le_add_right _ _⟩
  | squeeze count => exact hdefined _ _ (squeeze_spec h hop).1
  | reset =>
      refine ⟨_, .inl rfl, refill_inv hc _, .inl (Nat.lt_succ_self _), ?_⟩
      rw [reset, walks_refill]
      exact Nat.zero_le _

theorem step_undefined (h : Inv c t) {op : TrieOp} (hop : ¬ OpOk c t op) :
    t.step c op = .undefined := by
  have hpool := h.count
  cases op with
  | insert tokens =>
      have hlen : min tokens.length c.maxTrieDepth = c.capacity := not_not.mp hop
      cases tokens with
      | nil => simp at hlen; omega
      | cons token rest =>
          have hsuffix : ((token :: rest).take c.maxTrieDepth).length = c.capacity := by
            rw [List.length_take, Nat.min_comm]
            exact hlen
          rw [step, insert, insertSuffix, hsuffix, if_pos (by omega),
            squeeze_undefined h (by omega)]
          rfl
  | squeeze count => exact squeeze_undefined h (not_not.mp hop)
  | reset => exact absurd trivial hop

theorem step_state (hc : 0 < c.capacity) (h : Inv c t) {op : TrieOp} {t' : Trie}
    (hstate : (t.step c op).state = some t') : Inv c t' ∧ Later t t' := by
  by_cases hop : OpOk c t op
  · obtain ⟨t₁, hstep | ⟨e, _, hstep⟩, h', hlater, -⟩ := step_spec hc h hop
    · rw [hstep] at hstate
      exact Option.some.inj hstate ▸ ⟨h', hlater⟩
    · rw [hstep] at hstate
      exact Option.some.inj hstate ▸ ⟨h', hlater⟩
  · rw [step_undefined h hop] at hstate
    cases hstate

theorem runWellFormed_iff_runOk (hc : 0 < c.capacity) (ops : List TrieOp) (h : Inv c t)
    (hwalks : t.walks < 2 ^ 31) (hfits : RunFits c ops t) :
    RunWellFormed c ops t ↔ RunOk c ops t := by
  induction ops generalizing t with
  | nil => exact ⟨fun _ => trivial, fun _ => h.wellFormed hwalks⟩
  | cons op ops ih =>
      obtain ⟨⟨hcount, -⟩, hrest⟩ := hfits
      by_cases hop : OpOk c t op
      · obtain ⟨t', hstep, h', -, hle⟩ := step_spec hc h hop
        have hstate : (t.step c op).state = some t' := by
          rcases hstep with hstep | ⟨e, _, hstep⟩ <;> rw [hstep] <;> rfl
        have hnext := ih h' (Nat.lt_of_le_of_lt hle hcount) (hrest t' hstate)
        constructor
        · rintro ⟨_, t'', hstep', hrun⟩
          have heq : t'' = t' := by
            rcases hstep' with hstep' | ⟨e, _, hstep'⟩ <;> rw [hstep'] at hstate <;>
              exact Option.some.inj hstate
          subst heq
          refine ⟨hop, fun t₁ ht₁ => ?_⟩
          rw [hstate] at ht₁
          exact Option.some.inj ht₁ ▸ hnext.mp hrun
        · intro hrun
          exact ⟨h.wellFormed hwalks, t', hstep, hnext.mpr (hrun.2 t' hstate)⟩
      · refine iff_of_false ?_ fun hrun => hop hrun.1
        rintro ⟨_, t', hstep | ⟨e, _, hstep⟩, _⟩ <;>
          simp [step_undefined h hop] at hstep

/-- From a new trie on, the structure holds after every call of a run exactly when no call asks
for the whole pool. The run stays within the machine integers; the counts of the model are then
those of the code. -/
theorem run_wellFormed_iff (hc : 0 < c.capacity) (ops : List TrieOp)
    (hfits : RunFits c ops (new c)) : RunWellFormed c ops (new c) ↔ RunOk c ops (new c) := by
  refine runWellFormed_iff_runOk hc ops (refill_inv hc _) ?_ hfits
  rw [new, walks_refill]
  decide

end Runs

/-- A run that inserts, evicts and resets. -/
theorem run_wellFormed_mixed :
    RunWellFormed ⟨4, 2⟩ [.insert [1, 2], .insert [3, 4], .squeeze 1, .reset] (new ⟨4, 2⟩) := by
  have hfits : RunFits ⟨4, 2⟩ [.insert [1, 2], .insert [3, 4], .squeeze 1, .reset]
      (new ⟨4, 2⟩) := by
    refine ⟨⟨by decide, nofun⟩, fun t₁ h₁ => ?_⟩
    cases h₁
    refine ⟨⟨by decide, nofun⟩, fun t₂ h₂ => ?_⟩
    cases h₂
    refine ⟨⟨by decide, fun count hcount => ?_⟩, fun t₃ h₃ => ?_⟩
    · cases hcount
      decide
    · cases h₃
      exact ⟨⟨by decide, nofun⟩, fun _ _ => trivial⟩
  refine (run_wellFormed_iff (by decide) _ hfits).mpr ?_
  refine ⟨by unfold OpOk; decide, fun t₁ h₁ => ?_⟩
  cases h₁
  refine ⟨by unfold OpOk; decide, fun t₂ h₂ => ?_⟩
  cases h₂
  refine ⟨by unfold OpOk; decide, fun t₃ h₃ => ?_⟩
  exact ⟨trivial, fun _ _ => trivial⟩

/-- With a pool of two nodes, one of them the root, two tokens pass the guard. -/
theorem run_not_wellFormed_full : ¬ RunWellFormed ⟨2, 2⟩ [.insert [1, 2]] (new ⟨2, 2⟩) := by
  rintro ⟨_, t', hstep | ⟨e, _, hstep⟩, _⟩
  · have hundef : (new ⟨2, 2⟩).step ⟨2, 2⟩ (.insert [1, 2]) = .undefined := rfl
    simp [hundef] at hstep
  · have hundef : (new ⟨2, 2⟩).step ⟨2, 2⟩ (.insert [1, 2]) = .undefined := rfl
    simp [hundef] at hstep

end Trie

end SpecDecode.Ngram
