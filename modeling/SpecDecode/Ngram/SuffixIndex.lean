import SpecDecode.Ngram.SuffixBuild
import Mathlib.Data.Finset.Dedup
import Mathlib.Data.Finset.Max

/-!
# The finished index

After `finalize` a state counts the places of the text at which its words end, and its end
position is the last of them.
-/

namespace SpecDecode.Ngram

open SpecDecode.SuffixAutomaton SpecDecode.WeightedOrder

namespace SuffixAutomaton

/-- A corpus that arrives in chunks. -/
def load (chunks : List (List Int)) : Option SuffixAutomaton :=
  (chunks.foldlM (fun (s : SuffixAutomaton) tokens => s.appendTokens tokens) new).map finalize

/-- The places of the text at which a word ends. -/
def endings (text w : List Int) : List Nat :=
  (List.range text.length).filter fun e => w <:+ text.take (e + 1)

variable {text : List Int} {longest : Nat → List Int}

theorem mem_endings {w : List Int} {e : Nat} :
    e ∈ endings text w ↔ e < text.length ∧ w <:+ text.take (e + 1) := by
  simp [endings]

theorem endings_ne_nil {w : List Int} (hw : w <:+: text) (htext : text ≠ []) :
    endings text w ≠ [] := by
  obtain ⟨front, back, rfl⟩ := hw
  by_cases hnil : front ++ w = []
  · obtain ⟨rfl, rfl⟩ := List.append_eq_nil_iff.mp hnil
    exact List.ne_nil_of_mem (mem_endings.mpr ⟨List.length_pos_of_ne_nil htext, List.nil_suffix⟩)
  · have hpos := List.length_pos_of_ne_nil hnil
    refine List.ne_nil_of_mem (mem_endings (e := (front ++ w).length - 1).mpr ⟨?_, ?_⟩)
    · have hlen : (front ++ w ++ back).length = (front ++ w).length + back.length :=
        List.length_append
      omega
    · rw [Nat.sub_add_cancel hpos, List.take_left]
      exact List.suffix_append _ _

structure Growing (s : SuffixAutomaton) (text : List Int) (longest : Nat → List Int) : Prop where
  built : s.Built text longest
  keys : KeysNodup s.states
  pos : s.pos = text.length
  sawToken : s.sawToken = true ↔ text ≠ []
  unfinished : s.finalized = false ∧ s.loaded = false

theorem growing_new : new.Growing [] fun _ => [] :=
  ⟨built_new, fun _ => List.nodup_nil, rfl, by simp [new], rfl, rfl⟩

theorem appendTokens_spec {s : SuffixAutomaton} (h : s.Growing text longest) (tokens : List Int) :
    ∃ s' longest', s.appendTokens tokens = some s' ∧ s'.Growing (text ++ tokens) longest' := by
  rw [appendTokens, h.unfinished.1, if_neg Bool.false_ne_true]
  induction tokens generalizing s text longest with
  | nil => exact ⟨s, longest, rfl, by rwa [List.append_nil]⟩
  | cons token tokens ih =>
      obtain ⟨s₁, longest₁, hextend, hsame, hbuilt⟩ := extend_spec h.built token
      have hkeys : KeysNodup s₁.states := h.keys.extend hextend
      have hgrowing : Growing { s₁ with pos := text.length + 1, sawToken := true } (text ++ [token])
          longest₁ := by
        refine ⟨⟨hbuilt.indexes, hbuilt.occCount, hbuilt.endPos_root, hbuilt.endPos⟩,
          hkeys, ?_, ?_, ?_⟩
        · rw [List.length_append, List.length_singleton]
        · simp
        · rw [hsame]
          exact h.unfinished
      rw [List.foldlM_cons, h.pos, hextend, List.append_cons]
      exact ih hgrowing

theorem foldlM_appendTokens {s : SuffixAutomaton}
    (h : s.Growing text longest) (chunks : List (List Int)) :
    ∃ s' longest', chunks.foldlM (fun (s : SuffixAutomaton) tokens => s.appendTokens tokens) s =
        some s' ∧ s'.Growing (text ++ chunks.flatten) longest' := by
  induction chunks generalizing s text longest with
  | nil => exact ⟨s, longest, rfl, by simpa using h⟩
  | cons tokens chunks ih =>
      obtain ⟨s₁, longest₁, happend, h₁⟩ := appendTokens_spec h tokens
      rw [List.foldlM_cons, happend, List.flatten_cons, ← List.append_assoc]
      exact ih h₁

section Propagate

variable {s : SuffixAutomaton} {text : List Int} {longest : Nat → List Int} {u v : Nat}

theorem mem_byLength (v : Nat) : v ∈ s.byLength.reverse ↔ v < s.size := by
  rw [List.mem_reverse, byLength, List.mem_insertionSort, List.mem_range]

theorem byLength_nodup : s.byLength.reverse.Nodup := by
  rw [List.nodup_reverse, byLength, (List.perm_insertionSort _ _).nodup_iff]
  exact List.nodup_range

theorem byLength_pairwise :
    s.byLength.reverse.Pairwise fun v w => (s.states w).maxLen ≤ (s.states v).maxLen := by
  have : Std.Total fun v w => (s.states v).maxLen ≤ (s.states w).maxLen :=
    ⟨fun _ _ => Nat.le_total _ _⟩
  have : IsTrans Nat fun v w => (s.states v).maxLen ≤ (s.states w).maxLen :=
    ⟨fun _ _ _ => Nat.le_trans⟩
  rw [List.pairwise_reverse]
  exact List.pairwise_insertionSort _ _

theorem link_shorter (h : Indexes s.automaton text longest s.last) (hv : v < s.size)
    (hlink : (s.states v).link = some u) :
    u < s.size ∧ (s.states u).maxLen < (s.states v).maxLen := by
  have hroot : v ≠ 0 := fun heq => by
    have hnone : (s.states 0).link = none := h.link_root
    rw [← heq, hlink] at hnone
    cases hnone
  obtain ⟨u', hu', hlink', _, hlt⟩ := h.link v hv hroot
  obtain rfl := Option.some.inj (hlink.symm.trans hlink')
  exact ⟨hu', hlt⟩

/-- The states that link to a state, in the order of the propagation. -/
def linkKids (s : SuffixAutomaton) : Nat → List Nat :=
  LinkSums.linking (fun v => (s.states v).link) s.byLength.reverse

theorem behind_byLength (h : Indexes s.automaton text longest s.last) :
    LinkSums.Behind (fun v => (s.states v).link) s.byLength.reverse := by
  refine (byLength_pairwise (s := s)).imp_of_mem fun {v w} _ hw hle hlink => ?_
  have hlt := (link_shorter h ((mem_byLength w).mp hw) hlink).2
  omega

theorem ranked_linkKids (h : Indexes s.automaton text longest s.last) :
    Ranked s.linkKids (· ∈ s.byLength.reverse) fun v => text.length - (s.states v).maxLen := by
  refine LinkSums.ranked_linking byLength_nodup (fun v hv => ?_) fun v hv u hlink => ?_
  · have hlive := (mem_byLength v).mp hv
    have hlen : (s.states v).maxLen = (longest v).length := h.length v hlive
    rw [hlen]
    exact ((h.words _).mp (by rw [h.run_longest hlive]; rfl)).length_le
  · rw [mem_byLength] at hv ⊢
    exact link_shorter h hv hlink

private theorem mem_linkKids (hu : u < s.size) :
    u ∈ s.linkKids v ↔ s.automaton.link u = some v := by
  simp only [linkKids, LinkSums.linking, List.mem_filter, mem_byLength, hu, true_and,
    decide_eq_true_eq]
  rfl

theorem below_linkKids_iff (h : Indexes s.automaton text longest s.last) {l : List Nat}
    (hu : u < s.size) (hl : s.automaton.Chain u l) : Below s.linkKids v u ↔ v ∈ l := by
  constructor
  · intro hbelow
    induction hbelow generalizing l with
    | refl => exact hl.self_mem
    | @tail b u _ hkid ih =>
        have hlink := (mem_linkKids hu).mp hkid
        cases hl with
        | root hroot => rw [hlink] at hroot; cases hroot
        | step hlink' hl =>
            obtain rfl := Option.some.inj (hlink.symm.trans hlink')
            exact List.mem_cons_of_mem _ (ih (link_shorter h hu hlink).1 hl)
  · intro hv
    induction hl with
    | root =>
        obtain rfl := List.mem_singleton.mp hv
        exact .refl
    | @step u u' l hlink hl ih =>
        rcases List.mem_cons.mp hv with rfl | hv
        · exact .refl
        · exact (ih (link_shorter h hu hlink).1 hv).tail ((mem_linkKids hu).mpr hlink)

/-- A word ends where the states below its own have their longest words. -/
theorem below_iff_suffix (h : Indexes s.automaton text longest s.last) (hu : u < s.size)
    {w : List Int} (hw : s.automaton.run w = some v) : Below s.linkKids v u ↔ w <:+ longest u := by
  obtain ⟨l, hl⟩ := h.exists_chain hu
  rw [below_linkKids_iff h hu hl, h.mem_chain_iff hu hl hw]

open Classical in
/-- The states below a state that count an occurrence of their own stand for the places where its
words end. -/
theorem below_heads_perm (h : s.Built text longest) {w : List Int}
    (hw : s.automaton.run w = some v) :
    (((below s.linkKids id s.byLength.reverse v).filter fun u =>
      longest u ≠ [] ∧ longest u <+: text).map fun u => (longest u).length - 1).Perm
        (endings text w) := by
  have hrun : ∀ u < s.size, s.automaton.run (longest u) = some u := fun u hu =>
    h.indexes.run_longest hu
  have hnodup : (endings text w).Nodup := List.nodup_range.filter _
  refine (List.perm_ext_iff_of_nodup ?_ hnodup).mpr fun e => ?_
  · refine List.Nodup.map_on (fun u hu u' hu' hlen => ?_) ((byLength_nodup.filter _).filter _)
    obtain ⟨hmem, hhead⟩ := List.mem_filter.mp hu
    obtain ⟨hmem', hhead'⟩ := List.mem_filter.mp hu'
    obtain ⟨hne, hpref⟩ := of_decide_eq_true hhead
    obtain ⟨hne', hpref'⟩ := of_decide_eq_true hhead'
    have hpos := List.length_pos_of_ne_nil hne
    have hpos' := List.length_pos_of_ne_nil hne'
    have heq : longest u = longest u' :=
      (List.prefix_of_prefix_length_le hpref hpref' (by omega)).eq_of_length (by omega)
    have hu := hrun u ((mem_byLength u).mp (List.mem_filter.mp hmem).1)
    rw [heq, hrun u' ((mem_byLength u').mp (List.mem_filter.mp hmem').1)] at hu
    exact (Option.some.inj hu).symm
  · rw [mem_endings, List.mem_map]
    constructor
    · rintro ⟨u, hu, rfl⟩
      obtain ⟨hmem, hhead⟩ := List.mem_filter.mp hu
      obtain ⟨hne, hpref⟩ := of_decide_eq_true hhead
      obtain ⟨hlive, hbelow⟩ := List.mem_filter.mp hmem
      have hpos := List.length_pos_of_ne_nil hne
      have hsuffix := (below_iff_suffix h.indexes ((mem_byLength u).mp hlive) hw).mp
        (of_decide_eq_true hbelow)
      rw [Nat.sub_add_cancel hpos, ← List.prefix_iff_eq_take.mp hpref]
      exact ⟨Nat.lt_of_lt_of_le (Nat.sub_lt hpos Nat.one_pos) hpref.length_le, hsuffix⟩
    · rintro ⟨he, hsuffix⟩
      have hpref : text.take (e + 1) <+: text := List.take_prefix _ _
      obtain ⟨u, hu⟩ := Option.isSome_iff_exists.mp ((h.indexes.words _).mpr hpref.isInfix)
      have hlive := h.indexes.run_live hu
      have hlongest := h.indexes.longest_of_prefix hu hpref
      refine ⟨u, List.mem_filter.mpr ⟨List.mem_filter.mpr ⟨(mem_byLength u).mpr hlive, ?_⟩, ?_⟩, ?_⟩
      · exact decide_eq_true ((below_iff_suffix h.indexes hlive hw).mpr (hlongest ▸ hsuffix))
      · refine decide_eq_true ⟨fun hnil => ?_, hlongest ▸ hpref⟩
        have hlen := congrArg List.length (hlongest.symm.trans hnil)
        rw [List.length_take_of_le he] at hlen
        cases hlen
      · rw [hlongest, List.length_take_of_le he, Nat.succ_sub_one]

theorem sum_ite_one {P : Nat → Prop} [DecidablePred P] (l : List Nat) :
    (l.map fun u => if P u then 1 else 0).sum = (l.filter fun u => P u).length := by
  induction l with
  | nil => rfl
  | cons u l ih =>
      rw [List.map_cons, List.sum_cons, ih]
      by_cases hu : P u
      · simp [hu, Nat.add_comm]
      · simp [hu]

theorem no_self_link (h : Indexes s.automaton text longest s.last) :
    ∀ u ∈ s.byLength.reverse, (s.states u).link ≠ some u := fun u hu hlink =>
  Nat.lt_irrefl _ (link_shorter h ((mem_byLength u).mp hu) hlink).2

theorem propagate_occCount (h : s.Built text longest) {w : List Int}
    (hw : s.automaton.run w = some v) :
    (s.propagate.states v).occCount = (endings text w).length := by
  have hv := (mem_byLength v).mpr (h.indexes.run_live hw)
  rw [← (below_heads_perm h hw).length_eq, List.length_map, ← sum_ite_one]
  change s.byLength.reverse.foldl (LinkSums.absorb (fun v => (s.states v).link) (· + ·))
    (fun v => (s.states v).occCount) v = _
  rw [LinkSums.absorb_sum (ranked_linkKids h.indexes) byLength_nodup (behind_byLength h.indexes)
    (no_self_link h.indexes) hv]
  refine congrArg List.sum (List.map_congr_left fun u hu => ?_)
  rw [h.occCount u ((mem_byLength u).mp (List.mem_filter.mp hu).1)]

/-- The end position of a state below is a place where the word ends, and every such place is
the end position of one. -/
theorem propagate_maxEndPos (h : s.Built text longest) (htext : text ≠ []) {w : List Int}
    (hw : s.automaton.run w = some v) :
    IsGreatest {pos : Int | ∃ e ∈ endings text w, pos = e} (s.propagate.states v).maxEndPos := by
  have hinfix : w <:+: text := (h.indexes.words w).mp (by rw [hw]; rfl)
  have hle : ∀ c, (s.propagate.states v).maxEndPos ≤ c ↔
      ∀ u ∈ s.byLength.reverse, Below s.linkKids v u → (s.states u).maxEndPos ≤ c :=
    LinkSums.absorb_max_le (ranked_linkKids h.indexes) (behind_byLength h.indexes)
      (no_self_link h.indexes) ((mem_byLength v).mpr (h.indexes.run_live hw))
  have hupper : ∀ e ∈ endings text w, (e : Int) ≤ (s.propagate.states v).maxEndPos := by
    intro e he
    obtain ⟨helt, hsuffix⟩ := mem_endings.mp he
    have hpref : text.take (e + 1) <+: text := List.take_prefix _ _
    obtain ⟨u, hu⟩ := Option.isSome_iff_exists.mp ((h.indexes.words _).mpr hpref.isInfix)
    have hlive := h.indexes.run_live hu
    have hlongest := h.indexes.longest_of_prefix hu hpref
    have hroot : u ≠ 0 := by
      rintro rfl
      have hlen := congrArg List.length (hlongest.symm.trans h.indexes.longest_root)
      rw [List.length_take_of_le helt] at hlen
      cases hlen
    obtain ⟨e', he', hpos, _, hlonger⟩ := h.endPos u hlive hroot
    have heq : e' = e := by
      have hlen := congrArg List.length (hlongest.symm.trans (hlonger (hlongest ▸ hpref)))
      rw [List.length_take_of_le helt, List.length_take_of_le he'] at hlen
      exact (Nat.succ.inj hlen).symm
    have hbelow := (below_iff_suffix h.indexes hlive hw).mpr (hlongest ▸ hsuffix)
    rw [← heq, ← hpos]
    exact (hle _).mp (Int.le_refl _) u ((mem_byLength u).mpr hlive) hbelow
  obtain ⟨m, hm, hmax⟩ := (endings text w).toFinset.exists_max_image id
    (List.toFinset_nonempty_iff _ |>.mpr (endings_ne_nil hinfix htext))
  rw [List.mem_toFinset] at hm
  have hlast : (s.propagate.states v).maxEndPos ≤ m := by
    refine (hle _).mpr fun u hu hbelow => ?_
    have hlive := (mem_byLength u).mp hu
    by_cases hroot : u = 0
    · rw [hroot, h.endPos_root]
      omega
    · obtain ⟨e, he, hpos, hsuffix, _⟩ := h.endPos u hlive hroot
      have hword := (below_iff_suffix h.indexes hlive hw).mp hbelow
      have hem : e ≤ m := hmax e (List.mem_toFinset.mpr (mem_endings.mpr ⟨he, hword.trans hsuffix⟩))
      rw [hpos]
      exact Int.ofNat_le.mpr hem
  refine ⟨⟨m, hm, Int.le_antisymm hlast (hupper m hm)⟩, ?_⟩
  rintro _ ⟨e, he, rfl⟩
  exact hupper e he

end Propagate

structure Indexed (s : SuffixAutomaton) (text : List Int) (longest : Nat → List Int) : Prop where
  indexes : Indexes s.automaton text longest s.last
  keys : KeysNodup s.states
  loaded : s.loaded = true ↔ text ≠ []
  occCount : ∀ v w, s.automaton.run w = some v → (s.states v).occCount = (endings text w).length
  maxEndPos : text ≠ [] → ∀ v w, s.automaton.run w = some v →
    IsGreatest {pos : Int | ∃ e ∈ endings text w, pos = e} (s.states v).maxEndPos
  childrenByFreq : text ≠ [] → ∀ v, (s.states v).childrenByFreq.Perm
    ((s.states v).next.filter fun entry => entry.1 ≠ separatorToken)
  childrenByRecency : text ≠ [] → ∀ v, (s.states v).childrenByRecency.Perm
    ((s.states v).next.filter fun entry => entry.1 ≠ separatorToken)

private theorem sortChildren_perm (key : Nat → Int) (next : List (Int × Nat)) :
    (sortChildren key next).Perm (next.filter fun entry => entry.1 ≠ separatorToken) :=
  List.perm_insertionSort _ _

/-- The children that a state keeps are all that the separator does not lead to. -/
private theorem propagate_children (s : SuffixAutomaton) (v : Nat) :
    ((s.propagate.states v).childrenByFreq.Perm
      ((s.propagate.states v).next.filter fun entry => entry.1 ≠ separatorToken)) ∧
    (s.propagate.states v).childrenByRecency.Perm
      ((s.propagate.states v).next.filter fun entry => entry.1 ≠ separatorToken) := by
  simp only [propagate]
  exact ⟨sortChildren_perm _ _, sortChildren_perm _ _⟩

theorem finalize_spec {s : SuffixAutomaton}
    (h : s.Growing text longest) : s.finalize.Indexed text longest := by
  rw [finalize, h.unfinished.1, if_neg Bool.false_ne_true]
  by_cases htext : text = []
  · have hsaw : s.sawToken = false := by
      rw [← Bool.not_eq_true, h.sawToken, not_not]
      exact htext
    rw [hsaw, if_neg Bool.false_ne_true]
    refine ⟨h.built.indexes, h.keys, ?_, fun v w hw => ?_, fun hne => absurd htext hne,
      fun hne => absurd htext hne, fun hne => absurd htext hne⟩
    · simp [h.unfinished.2, htext]
    · have hcount := h.built.occCount v (h.built.indexes.run_live hw)
      rw [htext, if_neg fun hhead => hhead.1 (List.prefix_nil.mp hhead.2)] at hcount
      rw [htext]
      exact hcount
  · rw [if_pos (h.sawToken.mpr htext)]
    exact ⟨h.built.indexes, h.keys, by simp [htext], fun v w hw => propagate_occCount h.built hw,
      fun _ v w hw => propagate_maxEndPos h.built htext hw, fun _ v => (propagate_children s v).1,
      fun _ v => (propagate_children s v).2⟩

theorem load_spec (chunks : List (List Int)) :
    ∃ s longest, load chunks = some s ∧ s.Indexed chunks.flatten longest := by
  obtain ⟨s, longest, hs, hgrowing⟩ := foldlM_appendTokens growing_new chunks
  exact ⟨s.finalize, longest, by rw [load, hs]; rfl, finalize_spec hgrowing⟩

end SuffixAutomaton

end SpecDecode.Ngram
