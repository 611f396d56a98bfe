import SpecDecode.Ngram.SuffixIndex

/-!
# Matching a context

The state and the matched length are those of the longest suffix of the context that occurs in
the corpus. The anchors are the states of its chain that can go on.
-/

namespace SpecDecode.Ngram

open SpecDecode.SuffixAutomaton

namespace SuffixAutomaton

variable {s : SuffixAutomaton} {text : List Int} {longest : Nat → List Int}
variable {w context : List Int} {token : Int} {fuel v : Nat} {l : List Nat}

structure Cursor (s : SuffixAutomaton) (context : List Int) (cursor : Nat × Nat) (w : List Int) :
    Prop where
  suffix : w <:+ context
  run : s.automaton.run w = some cursor.1
  length : cursor.2 = w.length
  greatest : ∀ w', w' <:+ context → (s.automaton.run w').isSome → w' <:+ w

theorem cursor_nil : s.Cursor [] (0, 0) [] where
  suffix := List.suffix_rfl
  run := rfl
  length := rfl
  greatest _ h _ := h

/-- One step along the links: the longest word of the next state is a suffix, and what can go on
with the token is not lost. -/
theorem failLoop_step (h : Indexes s.automaton text longest s.last)
    (hw : s.automaton.run w = some v) (hroot : v ≠ 0) (hnone : s.automaton.next v token = none) :
    ∃ u, s.automaton.link v = some u ∧ s.automaton.run (longest u) = some u ∧ longest u <:+ w ∧
      min w.length (s.states u).maxLen = (longest u).length ∧
      ∀ x, x <:+ w → (s.automaton.run (x ++ [token])).isSome → x <:+ longest u := by
  have hv := h.run_live hw
  obtain ⟨u, hu, hlink, hsuffix, _⟩ := h.link v hv hroot
  obtain ⟨hlong, hmin⟩ := (h.run v hv w).mp hw
  have hlen := h.length u hu
  have hminLen : s.automaton.minLen v = s.automaton.maxLen u + 1 := by
    rw [Automaton.minLen, hlink]
    rfl
  have hle : (longest u).length ≤ w.length := by omega
  refine ⟨u, hlink, h.run_longest hu, List.suffix_of_suffix_length_le hsuffix hlong hle, ?_,
    fun x hx hsome => ?_⟩
  · change min w.length (s.automaton.maxLen u) = _
    omega
  · -- the words of `v` cannot go on
    have hshort : x.length < s.automaton.minLen v := by
      by_contra hge
      have hrun := (h.run v hv x).mpr ⟨hx.trans hlong, Nat.le_of_not_lt hge⟩
      rw [Automaton.run_concat, hrun, Option.bind_some, hnone] at hsome
      cases hsome
    exact List.suffix_of_suffix_length_le (hx.trans hlong) hsuffix (by omega)

/-- Where the loop along the links stops: at the longest suffix that can go on with the token, or
at the empty one. -/
theorem failLoop_spec (token : Int) (h : Indexes s.automaton text longest s.last)
    (hw : s.automaton.run w = some v) (hl : s.automaton.Chain v l) (hfuel : l.length ≤ fuel + 1) :
    ∃ v' w', s.failLoop token fuel v w.length = some (v', w'.length) ∧ w' <:+ w ∧
      s.automaton.run w' = some v' ∧ (v' ≠ 0 → s.automaton.next v' token ≠ none) ∧
      ∀ x, x <:+ w → (s.automaton.run (x ++ [token])).isSome → x <:+ w' := by
  induction hl generalizing w fuel with
  | @root v hnone =>
      have hroot : v = 0 := by
        by_contra hne
        obtain ⟨u, _, hlink, _⟩ := h.link v (h.run_live hw) hne
        rw [hnone] at hlink
        cases hlink
      refine ⟨v, w, ?_, List.suffix_rfl, hw, fun hne => absurd hroot hne, fun x hx _ => hx⟩
      unfold failLoop
      rw [if_neg fun hgo => hgo.1 hroot]
  | @step v u l hlink hl ih =>
      by_cases hgo : v ≠ 0 ∧ (s.states v).next.lookup token = none
      · obtain ⟨fuel, rfl⟩ := Nat.exists_eq_succ_of_ne_zero (n := fuel) (by
          rintro rfl
          have hpos := List.length_pos_of_mem hl.self_mem
          rw [List.length_cons] at hfuel
          omega)
        obtain ⟨u', hlink', hrun, hsuffix, hlen, hkeep⟩ := failLoop_step h hw hgo.1 hgo.2
        obtain rfl := Option.some.inj (hlink.symm.trans hlink')
        obtain ⟨v', w', hloop, hw', hrun', hnext, hgreatest⟩ :=
          ih hrun (Nat.le_of_succ_le_succ hfuel)
        refine ⟨v', w', ?_, hw'.trans hsuffix, hrun', hnext,
          fun x hx hsome => hgreatest x (hkeep x hx hsome) hsome⟩
        have hlink : (s.states v).link = some u := hlink
        unfold failLoop
        rw [if_pos hgo, hlink]
        simp only [Option.bind_some, hlen]
        exact hloop
      · refine ⟨v, w, ?_, List.suffix_rfl, hw, fun hne hnone => hgo ⟨hne, hnone⟩, fun x hx _ => hx⟩
        unfold failLoop
        rw [if_neg hgo]

theorem matchToken_spec (h : Indexes s.automaton text longest s.last) {cursor : Nat × Nat}
    (hc : s.Cursor context cursor w) (token : Int) :
    ∃ cursor' w', s.matchToken cursor token = some cursor' ∧
      s.Cursor (context ++ [token]) cursor' w' := by
  obtain ⟨v, m⟩ := cursor
  obtain ⟨hsuffix, hrun, rfl, hgreatest⟩ := hc
  obtain ⟨l, hl⟩ := h.exists_chain (h.run_live hrun)
  have hfuel : l.length ≤ s.size + 1 := Nat.le_succ_of_le (chain_length h (h.run_live hrun) hl)
  obtain ⟨v', w', hloop, hw', hrun', hnext, hkeep⟩ := failLoop_spec token h hrun hl hfuel
  have hgo : ∀ x, x ++ [token] <:+ context ++ [token] → (s.automaton.run (x ++ [token])).isSome →
      x <:+ w' := by
    intro x hx hsome
    have hxcontext : x <:+ context := by
      obtain ⟨front, hfront⟩ := hx
      rw [← List.append_assoc] at hfront
      exact ⟨front, (List.append_inj' hfront rfl).1⟩
    have hxsome : (s.automaton.run x).isSome := by
      rw [Automaton.run_concat] at hsome
      exact Option.isSome_of_isSome_bind hsome
    exact hkeep x (hgreatest x hxcontext hxsome) hsome
  have hgreatest' : ∀ x, x <:+ context ++ [token] → (s.automaton.run x).isSome →
      x = [] ∨ ∃ y, x = y ++ [token] ∧ y <:+ w' := by
    intro x hx hsome
    rcases List.eq_nil_or_concat x with rfl | ⟨y, b, rfl⟩
    · exact Or.inl rfl
    · rw [List.concat_eq_append] at hx hsome ⊢
      have hb : b = token := by
        obtain ⟨front, hfront⟩ := hx
        rw [← List.append_assoc] at hfront
        exact (List.cons.inj (List.append_inj' hfront rfl).2).1
      subst hb
      exact Or.inr ⟨y, rfl, hgo y hx hsome⟩
  have hword : w' ++ [token] <:+ context ++ [token] := by
    obtain ⟨front, hfront⟩ := hw'.trans hsuffix
    exact ⟨front, by rw [← List.append_assoc, hfront]⟩
  simp only [matchToken, hloop, Option.map_some]
  cases hlookup : (s.states v').next.lookup token with
  | some u =>
      refine ⟨_, w' ++ [token], rfl, hword, ?_, by rw [List.length_append]; rfl,
        fun x hx hsome => ?_⟩
      · rw [Automaton.run_concat, hrun']
        exact hlookup
      · rcases hgreatest' x hx hsome with rfl | ⟨y, rfl, front, rfl⟩
        · exact List.nil_suffix
        · exact ⟨front, by rw [List.append_assoc]⟩
  | none =>
      have hroot : v' = 0 := by
        by_contra hne
        exact hnext hne hlookup
      subst hroot
      simp only [hlookup]
      refine ⟨_, [], rfl, List.nil_suffix, rfl, rfl, fun x hx hsome => ?_⟩
      rcases hgreatest' x hx hsome with rfl | ⟨y, rfl, hy⟩
      · exact List.suffix_rfl
      · have hynil : y = [] := by
          have hlong := hy.trans ((h.run 0 h.live_root _).mp hrun').1
          rwa [h.longest_root, List.suffix_nil] at hlong
        rw [hynil, Automaton.run_concat, Automaton.run_nil] at hsome
        have hsome : ((s.states 0).next.lookup token).isSome := hsome
        rw [hlookup] at hsome
        cases hsome

theorem foldlM_matchToken (h : Indexes s.automaton text longest s.last) {cursor : Nat × Nat}
    (hc : s.Cursor context cursor w) (tokens : List Int) :
    ∃ cursor' w', tokens.foldlM s.matchToken cursor = some cursor' ∧
      s.Cursor (context ++ tokens) cursor' w' := by
  induction tokens generalizing context cursor w with
  | nil => exact ⟨cursor, w, rfl, by rwa [List.append_nil]⟩
  | cons token tokens ih =>
      obtain ⟨cursor', w', hstep, hc'⟩ := matchToken_spec h hc token
      rw [List.foldlM_cons, hstep, List.append_cons]
      exact ih hc'

/-- The states of a chain that can be anchors, each with its longest suffix of a word of length
`m`. -/
def anchorsAt (s : SuffixAutomaton) (m : Nat) (l : List Nat) : List SamAnchor :=
  (l.filter fun u => u ≠ 0 ∧ (s.states u).childrenByFreq ≠ []).map fun u =>
    ⟨u, min m (s.states u).maxLen⟩

theorem anchorsAt_cons {m : Nat} (hroot : v ≠ 0) (hm : m ≤ (s.states v).maxLen) :
    s.anchorsAt m (v :: l) =
      (if (s.states v).childrenByFreq ≠ [] then [⟨v, m⟩] else []) ++ s.anchorsAt m l := by
  by_cases hkids : (s.states v).childrenByFreq = []
  · simp [anchorsAt, hkids]
  · simp [anchorsAt, hkids, hroot, hm]

private theorem anchorsAt_min {m n : Nat} (h : ∀ x ∈ l, (s.states x).maxLen ≤ n) :
    s.anchorsAt (min m n) l = s.anchorsAt m l := by
  refine List.map_congr_left fun x hx => ?_
  have hle := h x (List.mem_filter.mp hx).1
  rw [Nat.min_assoc, Nat.min_eq_right hle]

theorem anchorLoop_spec (h : Indexes s.automaton text longest s.last) {m : Nat} (hv : v < s.size)
    (hl : s.automaton.Chain v l) (hfuel : l.length ≤ fuel + 2) (hpos : v ≠ 0 → 0 < m)
    (hm : m ≤ (s.states v).maxLen) : s.anchorLoop fuel v m = some (s.anchorsAt m l) := by
  induction hl generalizing m fuel with
  | @root v hnone =>
      have hroot : v = 0 := by
        by_contra hne
        obtain ⟨u, _, hlink, _⟩ := h.link v hv hne
        rw [hnone] at hlink
        cases hlink
      subst hroot
      unfold anchorLoop
      rw [if_neg fun hgo => Nat.lt_irrefl _ hgo.1]
      rfl
  | @step v u l hlink hl ih =>
      have hroot : v ≠ 0 := by
        rintro rfl
        rw [h.link_root] at hlink
        cases hlink
      have hu := (link_shorter h hv hlink).1
      have hlinkv : (s.states v).link = some u := hlink
      rw [anchorsAt_cons hroot hm]
      unfold anchorLoop
      rw [if_pos ⟨Nat.pos_of_ne_zero hroot, hpos hroot⟩, hlinkv]
      by_cases huroot : u = 0
      · subst huroot
        obtain rfl : l = [0] := hl.unique (.root h.link_root)
        simp [anchorsAt]
      · obtain ⟨u', _, hlink', _, hlt'⟩ := h.link u hu huroot
        have hlong : 2 ≤ l.length := by
          cases hl with
          | root hnone => rw [hlink'] at hnone; cases hnone
          | step _ hl => exact Nat.succ_le_succ (List.length_pos_of_mem hl.self_mem)
        rw [List.length_cons] at hfuel
        obtain ⟨fuel, rfl⟩ : ∃ n, fuel = n + 1 := ⟨fuel - 1, by omega⟩
        have hlen : (s.states u').maxLen < (s.states u).maxLen := hlt'
        have hupos := hpos hroot
        have hrec := ih hu (m := min m (s.states u).maxLen)
          (Nat.le_of_succ_le_succ hfuel) (fun _ => by omega) (Nat.min_le_right _ _)
        have hle : ∀ x ∈ l, (s.states x).maxLen ≤ (s.states u).maxLen := fun x hx =>
          (h.chain_mem hu hl hx).2.2
        rw [anchorsAt_min hle] at hrec
        simp only [if_neg huroot, hrec, Option.map_some]

theorem children_iff (h : s.Indexed text longest) (htext : text ≠ [])
    (hw : s.automaton.run w = some v) : (s.states v).childrenByFreq ≠ [] ↔
      ∃ token ≠ separatorToken, w ++ [token] <:+: text := by
  have hgo : ∀ token, w ++ [token] <:+: text ↔ (s.states v).next.lookup token ≠ none := by
    intro token
    rw [← h.indexes.words, Automaton.run_concat, hw, ← Option.isSome_iff_ne_none]
    rfl
  have hmem : ∀ entry, entry ∈ (s.states v).childrenByFreq ↔
      entry ∈ (s.states v).next ∧ entry.1 ≠ separatorToken := by
    intro entry
    rw [(h.childrenByFreq htext v).mem_iff, List.mem_filter, decide_eq_true_eq]
  simp only [hgo]
  constructor
  · intro hne
    obtain ⟨entry, hentry⟩ := List.exists_mem_of_ne_nil _ hne
    obtain ⟨hnext, hsep⟩ := (hmem entry).mp hentry
    refine ⟨entry.1, hsep, fun hnone => ?_⟩
    simpa using List.lookup_eq_none_iff.mp hnone entry hnext
  · rintro ⟨token, hsep, hsome⟩
    obtain ⟨u, hu⟩ := Option.ne_none_iff_exists'.mp hsome
    obtain ⟨front, back, hnext, _⟩ := List.lookup_eq_some_iff.mp hu
    exact List.ne_nil_of_mem ((hmem (token, u)).mpr ⟨by rw [hnext]; simp, hsep⟩)

theorem exists_suffix (h : Indexes s.automaton text longest s.last)
    (hw : s.automaton.run w = some v) (hl : s.automaton.Chain v l) {u : Nat} (hu : u ∈ l) :
    s.automaton.minLen u ≤ w.length ∧ ∃ x, x <:+ w ∧ s.automaton.run x = some u ∧
      x.length = min w.length (s.states u).maxLen := by
  obtain ⟨hlong, hmin⟩ := (h.run v (h.run_live hw) w).mp hw
  obtain ⟨hulive, hsuffix, _⟩ := h.chain_mem (h.run_live hw) hl hu
  have hlen := h.length u hulive
  have hcases : u = v ∨ s.automaton.maxLen u < s.automaton.minLen v := by
    have hpair := h.chain_pairwise (h.run_live hw) hl
    cases hl with
    | root => exact Or.inl (List.mem_singleton.mp hu)
    | step =>
        rcases List.mem_cons.mp hu with rfl | hu
        · exact Or.inl rfl
        · exact Or.inr ((List.pairwise_cons.mp hpair).1 u hu)
  rcases hcases with rfl | hlt
  · refine ⟨hmin, w, List.suffix_rfl, hw, (Nat.min_eq_left ?_).symm⟩
    exact h.length_le hw
  · have hle := h.minLen_le hulive
    have hwle : s.automaton.maxLen u ≤ w.length := by omega
    refine ⟨by omega, longest u, List.suffix_of_suffix_length_le hsuffix hlong (by omega),
      h.run_longest hulive, ?_⟩
    rw [← hlen]
    exact (Nat.min_eq_right hwle).symm

/-- The anchors of the longest suffix that occurs: the states of all suffixes that occur and can
go on. -/
theorem mem_anchorsAt (h : s.Indexed text longest) (htext : text ≠ []) {cursor : Nat × Nat}
    (hc : s.Cursor context cursor w) (hl : s.automaton.Chain cursor.1 l) (state len : Nat) :
    ⟨state, len⟩ ∈ s.anchorsAt w.length l ↔
      IsGreatest {n | ∃ x, x ≠ [] ∧ x <:+ context ∧ s.automaton.run x = some state ∧
        x.length = n ∧ ∃ token ≠ separatorToken, x ++ [token] <:+: text} len := by
  have hlive := h.indexes.run_live hc.run
  have hlong := ((h.indexes.run _ hlive w).mp hc.run).1
  simp only [anchorsAt, List.mem_map, List.mem_filter, decide_eq_true_eq, SamAnchor.mk.injEq]
  constructor
  · rintro ⟨u, ⟨hu, hroot, hkids⟩, rfl, rfl⟩
    obtain ⟨-, x, hx, hrun, hlen⟩ := exists_suffix h.indexes hc.run hl hu
    refine ⟨⟨x, ?_, hx.trans hc.suffix, hrun, hlen, (children_iff h htext hrun).mp hkids⟩, ?_⟩
    · rintro rfl
      exact hroot (Option.some.inj hrun).symm
    · rintro _ ⟨y, _, hy, hyrun, rfl, _⟩
      exact Nat.le_min.mpr ⟨(hc.greatest y hy (by rw [hyrun]; rfl)).length_le,
        h.indexes.length_le hyrun⟩
  · rintro ⟨⟨x, hne, hx, hrun, rfl, hgo⟩, hgreatest⟩
    have hxw := hc.greatest x hx (by rw [hrun]; rfl)
    have hmem := (h.indexes.mem_chain_iff hlive hl hrun).mpr (hxw.trans hlong)
    have hkids := (children_iff h htext hrun).mpr hgo
    have hroot : state ≠ 0 := by
      rintro rfl
      have hnil := ((h.indexes.run 0 h.indexes.live_root x).mp hrun).1
      rw [h.indexes.longest_root, List.suffix_nil] at hnil
      exact hne hnil
    obtain ⟨-, y, hy, hyrun, hylen⟩ := exists_suffix h.indexes hc.run hl hmem
    have hyne : y ≠ [] := by
      rintro rfl
      exact hroot (Option.some.inj hyrun).symm
    have hle := hgreatest ⟨y, hyne, hy.trans hc.suffix, hyrun, rfl,
      (children_iff h htext hyrun).mp hkids⟩
    have hge := Nat.le_min.mpr ⟨hxw.length_le, h.indexes.length_le hrun⟩
    exact ⟨state, ⟨hmem, hroot, hkids⟩, rfl, Nat.le_antisymm (hylen ▸ hle) hge⟩

private theorem anchorsAt_pairwise (h : Indexes s.automaton text longest s.last)
    (hw : s.automaton.run w = some v) (hl : s.automaton.Chain v l) :
    (s.anchorsAt w.length l).Pairwise fun a b => b.matchedLen < a.matchedLen := by
  refine List.pairwise_map.mpr (List.Pairwise.filter _ ?_)
  refine (h.chain_pairwise (h.run_live hw) hl).imp_of_mem fun {x y} hx _ hlt => ?_
  have hmin := (exists_suffix h hw hl hx).1
  have hle := h.minLen_le (h.chain_mem (h.run_live hw) hl hx).1
  change min w.length (s.automaton.maxLen y) < min w.length (s.automaton.maxLen x)
  omega

/-- `matchContext` ends, and its anchors are the states of the suffixes of the last `maxDepth`
tokens that occur in the corpus and go on with a token there, each with the length of its longest
such suffix, the longest first. -/
theorem matchContext_anchors (h : s.Indexed text longest) (context : List Int) (maxDepth : Nat) :
    ∃ anchors, s.matchContext context maxDepth = some anchors ∧
      (anchors.Pairwise fun a b => b.matchedLen < a.matchedLen) ∧
      ∀ state len, ⟨state, len⟩ ∈ anchors ↔
        IsGreatest {n | ∃ x, x ≠ [] ∧ x <:+ context.drop (context.length - maxDepth) ∧
          s.automaton.run x = some state ∧ x.length = n ∧
          ∃ token ≠ separatorToken, x ++ [token] <:+: text} len := by
  by_cases hnone : text = [] ∨ context = []
  · have hempty : s.matchContext context maxDepth = some [] := by
      rw [matchContext, if_pos]
      rcases hnone with htext | hcontext
      · have hloaded : s.loaded = false := by
          rw [← Bool.not_eq_true, h.loaded, not_not]
          exact htext
        rw [hloaded]
        rfl
      · simp [hcontext]
    refine ⟨[], hempty, List.Pairwise.nil, fun state len => ?_⟩
    refine ⟨fun hmem => absurd hmem List.not_mem_nil, ?_⟩
    rintro ⟨⟨x, hne, hx, hrun, -⟩, -⟩
    rcases hnone with rfl | rfl
    · exact absurd (List.infix_nil.mp ((h.indexes.words x).mp (by rw [hrun]; rfl))) hne
    · rw [List.drop_nil] at hx
      exact absurd (List.suffix_nil.mp hx) hne
  · obtain ⟨htext, hcontext⟩ := not_or.mp hnone
    obtain ⟨cursor, w, hfold, hc⟩ := foldlM_matchToken h.indexes cursor_nil
      (context.drop (context.length - maxDepth))
    rw [List.nil_append] at hc
    have hlive := h.indexes.run_live hc.run
    obtain ⟨l, hl⟩ := h.indexes.exists_chain hlive
    have hpos : cursor.1 ≠ 0 → 0 < cursor.2 := by
      intro hroot
      rw [hc.length]
      refine List.length_pos_of_ne_nil ?_
      rintro rfl
      exact hroot (Option.some.inj hc.run).symm
    have hle : cursor.2 ≤ (s.states cursor.1).maxLen := by
      rw [hc.length]
      exact h.indexes.length_le hc.run
    have hloop : s.anchorLoop s.size cursor.1 cursor.2 = some (s.anchorsAt cursor.2 l) :=
      anchorLoop_spec h.indexes hlive hl (Nat.le_add_right_of_le (chain_length h.indexes hlive hl))
        hpos hle
    refine ⟨s.anchorsAt w.length l, ?_, anchorsAt_pairwise h.indexes hc.run hl,
      mem_anchorsAt h htext hc hl⟩
    rw [matchContext, if_neg, hfold, Option.bind_some]
    · rw [← hc.length]
      exact hloop
    · simp [h.loaded.mpr htext, hcontext]

/-- The index of a corpus, however it is cut into chunks. The paths from the initial state spell
its substrings; a state counts the places at which its words end and has the last of them; a
context is matched by the states of its suffixes that go on in the corpus. -/
theorem load_indexes (chunks : List (List Int)) : ∃ s, load chunks = some s ∧
    (∀ w, (s.automaton.run w).isSome ↔ w <:+: chunks.flatten) ∧
    (∀ w state, s.automaton.run w = some state →
      (s.states state).occCount = (endings chunks.flatten w).length ∧
      (chunks.flatten ≠ [] → IsGreatest {pos : Int | ∃ e ∈ endings chunks.flatten w, pos = e}
        (s.states state).maxEndPos)) ∧
    ∀ context maxDepth, ∃ anchors, s.matchContext context maxDepth = some anchors ∧
      (anchors.Pairwise fun a b => b.matchedLen < a.matchedLen) ∧
      ∀ state len, ⟨state, len⟩ ∈ anchors ↔
        IsGreatest {n | ∃ x, x ≠ [] ∧ x <:+ context.drop (context.length - maxDepth) ∧
          s.automaton.run x = some state ∧ x.length = n ∧
          ∃ token ≠ separatorToken, x ++ [token] <:+: chunks.flatten} len := by
  obtain ⟨s, longest, hload, h⟩ := load_spec chunks
  exact ⟨s, hload, h.indexes.words,
    fun w state hw => ⟨h.occCount state w hw, fun htext => h.maxEndPos htext state w hw⟩,
    matchContext_anchors h⟩

/-- The last token of a corpus occurs in it, but no anchor is found for it. -/
theorem load_last_token_unmatched :
    ((load [[1]]).map fun s => (s.automaton.run [1], s.matchContext [1] 8)) =
      some (some 1, some []) := by
  decide

example : (load [[1, 2], [1]]).bind (·.matchContext [3, 1] 8) = some [⟨1, 1⟩] := by decide +kernel

end SuffixAutomaton

end SpecDecode.Ngram
