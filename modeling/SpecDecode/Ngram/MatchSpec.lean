import SpecDecode.Lib.OptionMap
import SpecDecode.Ngram.MatchState

/-!
# What a match returns

Advancing the cached anchors by a token gives what a rebuild over the longer context
gives, except below an anchor that was cached as null: it stays null whatever has been
inserted since. Versions and the epoch keep a cached reference from resolving to a
node that has been recycled.
-/

namespace SpecDecode.Ngram

open OptionMap

namespace Trie

variable {c : TrieConfig} {t t' : Trie}

section Descend

theorem descend_concat (cursor : Nat) (path : List Int) (token : Int) :
    t.descend cursor (path ++ [token]) =
      (t.descend cursor path).bind fun node => t.findChild node token := by
  induction path generalizing cursor with
  | nil =>
      simp only [List.nil_append, descend, Option.bind_some]
      cases t.findChild cursor token <;> rfl
  | cons token' path ih =>
      simp only [List.cons_append, descend]
      cases t.findChild cursor token' with
      | none => rfl
      | some child => exact ih child

theorem descend_eq_some (h : Inv c t) {path : List Int} {node : Nat} :
    t.descend t.root path = some node ↔ t.Spells node path := by
  induction path using List.reverseRecOn generalizing node with
  | nil =>
      constructor
      · intro heq
        cases heq
        exact .root
      · intro hs
        exact congrArg some (Spells.node_unique h .root hs)
  | append_singleton path token ih =>
      rw [descend_concat, Option.bind_eq_some_iff]
      constructor
      · rintro ⟨u, hu, hchild⟩
        have hs := ih.mp hu
        exact .child hs ((h.node u (hs.live h)).findChild_eq_some.mp hchild)
      · intro hs
        have hu := hs.parent h
        refine ⟨_, ih.mpr hu, (h.node _ (hu.live h)).findChild_eq_some.mpr ?_⟩
        generalize hq : path ++ [token] = q at hs
        cases hs with
        | root => simp at hq
        | @child u _ path' token' hu' hchild =>
            obtain rfl : token = token' := by
              have := congrArg List.getLast? hq
              simpa using this
            rw [((h.node u (hu'.live h)).child _ hchild).2.1]
            exact hchild

end Descend

/-- The last tokens of a list are those of a long enough tail of it. -/
theorem rtake_of_suffix {context tail : List Int} (htail : tail <:+ context) {n : Nat}
    (hn : n ≤ tail.length) : context.rtake n = tail.rtake n := by
  obtain ⟨front, rfl⟩ := htail
  have hdrop : (front ++ tail).length - n = front.length + (tail.length - n) := by
    rw [List.length_append]
    omega
  rw [List.rtake, List.rtake, hdrop, List.drop_append]
  simp

/-- The anchors for `context` where those with `missing i` are cached as null. -/
def cachedAnchors (c : TrieConfig) (t : Trie) (context : List Int) (missing : Nat → Bool) :
    List NodeRef :=
  (List.range (min context.length c.maxTrieDepth)).map fun i =>
    if missing i then .null else t.captureSuffix (context.rtake (i + 1))

/-- After `k` more tokens every anchor is `k` deeper and the first ones are new. -/
def shift (k : Nat) (missing : Nat → Bool) (i : Nat) : Bool := k ≤ i && missing (i - k)

section Advance

variable {state : MatchState} {context : List Int} {missing : Nat → Bool}

theorem resolve_eq_some {ref : NodeRef} {node : Nat} : t.resolve state ref = some node ↔
    ref.ptr = some node ∧ state.trieEpoch = t.trieEpoch ∧
      (t.nodes node).version = ref.version := by
  unfold resolve
  cases ref.ptr with
  | none => simp
  | some ptr =>
      by_cases hok : state.trieEpoch ≠ t.trieEpoch ∨ (t.nodes ptr).version ≠ ref.version
      · simp only [hok, if_true, reduceCtorEq, Option.some.injEq, false_iff]
        rintro ⟨rfl, hepoch, hversion⟩
        rcases hok with hne | hne
        · exact hne hepoch
        · exact hne hversion
      · rw [not_or, not_not, not_not] at hok
        simp only [hok, ne_eq, not_true_eq_false, or_self, if_false, Option.some.injEq, true_and]
        constructor
        · rintro rfl
          exact ⟨rfl, hok.2⟩
        · exact fun h => h.1

theorem resolve_capture (hepoch : state.trieEpoch = t.trieEpoch) (node : Nat) :
    t.resolve state (t.capture node) = some node := by
  simp [resolve, capture, hepoch]

theorem captureSuffix_concat (path : List Int) (token : Int) :
    t.captureSuffix (path ++ [token]) =
      match t.descend t.root path with
      | some node => t.captureChild node token
      | none => .null := by
  rw [captureSuffix, descend_concat]
  cases t.descend t.root path with
  | none => rfl
  | some node => rfl

private theorem advanceRef_captureSuffix (hepoch : state.trieEpoch = t.trieEpoch) (path : List Int)
    (token : Int) : t.advanceRef state token (t.captureSuffix path) =
      some (t.captureSuffix (path ++ [token])) := by
  rw [captureSuffix_concat]
  cases hfind : t.descend t.root path with
  | none => simp [captureSuffix, hfind, advanceRef, NodeRef.null]
  | some node =>
      have href : t.captureSuffix path = t.capture node := by simp [captureSuffix, hfind]
      rw [href]
      change (t.resolve state (t.capture node)).map _ = _
      rw [resolve_capture hepoch]
      rfl

theorem advanceAnchors_eq (hepoch : state.trieEpoch = t.trieEpoch)
    (hanchors : state.anchors = t.cachedAnchors c context missing) (token : Int) :
    t.advanceAnchors c state token =
      some (t.cachedAnchors c (context ++ [token]) (shift 1 missing)) := by
  have hlen : state.anchors.length = min context.length c.maxTrieDepth := by
    simp [hanchors, cachedAnchors]
  have hdepth : min (state.anchors.length + 1) c.maxTrieDepth =
      min (context.length + 1) c.maxTrieDepth := by omega
  -- The anchors that get one deeper.
  have hdeeper : (state.anchors.take (min (context.length + 1) c.maxTrieDepth - 1)).mapM
      (t.advanceRef state token) =
        some ((List.range (min (context.length + 1) c.maxTrieDepth - 1)).map fun i =>
          if missing i then NodeRef.null else t.captureSuffix
            (context.rtake (i + 1) ++ [token])) := by
    have htake : state.anchors.take (min (context.length + 1) c.maxTrieDepth - 1) =
        (List.range (min (context.length + 1) c.maxTrieDepth - 1)).map fun i =>
          if missing i then NodeRef.null else t.captureSuffix (context.rtake (i + 1)) := by
      rw [hanchors, cachedAnchors, ← List.map_take, List.take_range]
      congr 2
      omega
    rw [htake, List.mapM_map]
    refine mapM_eq_some_map fun i _ => ?_
    rw [Function.comp_apply]
    cases missing i with
    | true => rfl
    | false => exact advanceRef_captureSuffix hepoch _ _
  rw [advanceAnchors, hdepth, hdeeper]
  refine congrArg some ?_
  simp only [cachedAnchors, List.length_append, List.length_singleton]
  rcases Nat.eq_zero_or_pos (min (context.length + 1) c.maxTrieDepth) with hzero | hpos
  · rw [hzero]
    rfl
  · obtain ⟨k, hk⟩ : ∃ k, min (context.length + 1) c.maxTrieDepth = k + 1 :=
      ⟨_, (Nat.sub_add_cancel hpos).symm⟩
    rw [hk, Nat.add_sub_cancel, List.take_of_length_le (by simp), List.range_succ_eq_map,
      List.map_cons, List.map_map]
    refine congrArg₂ List.cons ?_ (List.map_congr_left fun i _ => ?_)
    · rw [List.rtake_concat_succ, List.rtake_zero, captureSuffix_concat]
      rfl
    · rw [Function.comp_apply, List.rtake_concat_succ]
      rfl

@[simp] theorem shift_shift (j k : Nat) (missing : Nat → Bool) :
    shift j (shift k missing) = shift (k + j) missing := by
  funext i
  rw [Bool.eq_iff_iff]
  simp only [shift, Bool.and_eq_true, decide_eq_true_eq, Nat.sub_sub, Nat.add_comm j k]
  constructor
  · rintro ⟨hj, hk, hmissing⟩
    exact ⟨by omega, hmissing⟩
  · rintro ⟨hjk, hmissing⟩
    exact ⟨by omega, by omega, hmissing⟩

theorem advanceLoop_eq (tokens : List Int) (hepoch : state.trieEpoch = t.trieEpoch)
    (hanchors : state.anchors = t.cachedAnchors c context missing) :
    t.advanceLoop c tokens state = some { state with
      anchors := t.cachedAnchors c (context ++ tokens) (shift tokens.length missing) } := by
  induction tokens generalizing state context missing with
  | nil =>
      have hshift : shift 0 missing = missing := by
        funext i
        simp [shift]
      rw [List.append_nil, List.length_nil, hshift, ← hanchors]
      rfl
  | cons token tokens ih =>
      have hnext := @ih { state with
        anchors := t.cachedAnchors c (context ++ [token]) (shift 1 missing) } _ _ hepoch rfl
      rw [advanceLoop, advanceAnchors_eq hepoch hanchors, Option.bind_some, hnext, shift_shift,
        List.append_assoc, Nat.add_comm 1]
      rfl

end Advance

/-- What a match has to say about the last `i + 1` tokens. -/
def expandableSuffix (t : Trie) (context : List Int) (i : Nat) : Option (Nat × Nat) :=
  match t.descend t.root (context.rtake (i + 1)) with
  | none => none
  | some node => if (t.nodes node).child ≠ [] then some (node, i + 1) else none

theorem expandableSuffix_eq_some {context : List Int} {i node d : Nat}
    (hmem : t.expandableSuffix context i = some (node, d)) :
    d = i + 1 ∧ t.descend t.root (context.rtake d) = some node := by
  unfold expandableSuffix at hmem
  split at hmem
  · cases hmem
  · next node' hnode =>
      split at hmem
      · cases hmem
        exact ⟨rfl, hnode⟩
      · cases hmem

/-- The expandable anchors of `context`, less the missing ones. -/
def expandableAnchors (c : TrieConfig) (t : Trie) (context : List Int) (missing : Nat → Bool) :
    List (Nat × Nat) :=
  (List.range (min context.length c.maxTrieDepth)).reverse.filterMap fun i =>
    if missing i then none else t.expandableSuffix context i

theorem getExpandableAnchors_cached (t : Trie) (context : List Int) (missing : Nat → Bool)
    (totalLen : Nat) :
    t.getExpandableAnchors ⟨t.trieEpoch, totalLen, t.cachedAnchors c context missing⟩ =
      t.expandableAnchors c context missing := by
  rw [getExpandableAnchors, expandableAnchors, cachedAnchors, List.length_map, List.length_range]
  refine List.filterMap_congr fun i hi => ?_
  rw [List.mem_reverse, List.mem_range] at hi
  simp only [expandable, List.getElem?_map, List.getElem?_range hi, Option.map_some]
  cases missing i with
  | true => rfl
  | false =>
      simp only [Bool.false_eq_true, if_false, captureSuffix, expandableSuffix]
      cases t.descend t.root (context.rtake (i + 1)) with
      | none => rfl
      | some node => simp only [resolve_capture]

theorem mem_expandableAnchors {context : List Int} {missing : Nat → Bool} {node d : Nat} :
    (node, d) ∈ t.expandableAnchors c context missing ↔
      ∃ i, i < min context.length c.maxTrieDepth ∧ missing i = false ∧
        t.expandableSuffix context i = some (node, d) := by
  simp only [expandableAnchors, List.mem_filterMap, List.mem_reverse, List.mem_range]
  refine exists_congr fun i => and_congr_right fun _ => ?_
  cases missing i <;> simp

theorem expandableAnchors_eq_iff {context : List Int} {missing : Nat → Bool} :
    t.expandableAnchors c context missing = t.expandableAnchors c context (fun _ => false) ↔
      ∀ i, i < min context.length c.maxTrieDepth → missing i = true →
        t.expandableSuffix context i = none := by
  constructor
  · intro heq i hi hmissing
    cases hentry : t.expandableSuffix context i with
    | none => rfl
    | some entry =>
        obtain ⟨node, d⟩ := entry
        have hmem : (node, d) ∈ t.expandableAnchors c context missing := by
          rw [heq]
          exact mem_expandableAnchors.mpr ⟨i, hi, rfl, hentry⟩
        obtain ⟨j, _, hj, hentry'⟩ := mem_expandableAnchors.mp hmem
        have hd := (expandableSuffix_eq_some hentry).1
        have hd' := (expandableSuffix_eq_some hentry').1
        obtain rfl : i = j := by omega
        rw [hmissing] at hj
        cases hj
  · intro hall
    refine List.filterMap_congr fun i hi => ?_
    rw [List.mem_reverse, List.mem_range] at hi
    cases hmissing : missing i with
    | false => rfl
    | true => simp [hall i hi hmissing]

/-- A cached reference to a node that spelled `path`: as long as the node keeps its
version it still spells it. -/
structure RefOk (t : Trie) (path : List Int) (ref : NodeRef) : Prop where
  null : ref.ptr = none → ref = .null
  version : ∀ ptr, ref.ptr = some ptr → ref.version ≤ (t.nodes ptr).version
  spells : ∀ ptr, ref.ptr = some ptr → ref.version = (t.nodes ptr).version → t.Spells ptr path

/-- A request's state: it was made for the first `processedTotalLen` tokens of the
context, in this epoch or an earlier one. -/
structure StateOk (t : Trie) (context : List Int) (state : MatchState) : Prop where
  epoch : state.trieEpoch ≤ t.trieEpoch
  len : state.processedTotalLen ≤ context.length
  anchors : state.trieEpoch = t.trieEpoch → ∀ i ref, state.anchors[i]? = some ref →
    RefOk t ((context.take state.processedTotalLen).rtake (i + 1)) ref

def isNull (state : MatchState) (i : Nat) : Bool :=
  match state.anchors[i]? with
  | none => false
  | some ref => ref.ptr.isNone

section State

variable {state : MatchState} {context : List Int}

theorem RefOk.of_null (t : Trie) (path : List Int) : RefOk t path .null := by
  refine ⟨fun _ => rfl, ?_, ?_⟩ <;> simp [NodeRef.null]

theorem RefOk.of_capture {path : List Int} {node : Nat} (hs : t.Spells node path) :
    RefOk t path (t.capture node) := by
  refine ⟨by simp [capture], ?_, ?_⟩
  · rintro ptr ⟨⟩
    exact Nat.le_refl _
  · rintro ptr ⟨⟩ _
    exact hs

theorem RefOk.of_captureSuffix (h : Inv c t) (path : List Int) :
    RefOk t path (t.captureSuffix path) := by
  unfold captureSuffix
  cases hfind : t.descend t.root path with
  | none => exact .of_null t path
  | some node => exact .of_capture ((descend_eq_some h).mp hfind)

theorem RefOk.evolves (hevolves : Evolves t t') {path : List Int} {ref : NodeRef}
    (href : RefOk t path ref) : RefOk t' path ref where
  null := href.null
  version ptr hptr := Nat.le_trans (href.version ptr hptr) (hevolves.version ptr)
  spells ptr hptr heq := by
    have hle := href.version ptr hptr
    have hmono := hevolves.version ptr
    exact hevolves.path ptr path (href.spells ptr hptr (by omega)) (by omega)

theorem RefOk.eq_captureSuffix (h : Inv c t) {path : List Int} {ref : NodeRef} {ptr : Nat}
    (href : RefOk t path ref) (hptr : ref.ptr = some ptr)
    (hresolve : (t.resolve state ref).isSome = true) : ref = t.captureSuffix path := by
  have hversion : (t.nodes ptr).version = ref.version := by
    obtain ⟨node, hnode⟩ := Option.isSome_iff_exists.mp hresolve
    obtain ⟨hptr', _, hversion⟩ := resolve_eq_some.mp hnode
    rw [hptr] at hptr'
    exact Option.some.inj hptr' ▸ hversion
  rw [captureSuffix, (descend_eq_some h).mpr (href.spells ptr hptr hversion.symm)]
  obtain ⟨ptr', version⟩ := ref
  obtain rfl : ptr' = some ptr := hptr
  exact congrArg (NodeRef.mk (some ptr)) hversion.symm

theorem StateOk.new (t : Trie) (context : List Int) : StateOk t context .new := by
  refine ⟨Nat.zero_le _, Nat.zero_le _, ?_⟩
  simp [MatchState.new]

theorem StateOk.evolves (hevolves : Evolves t t') (hs : StateOk t context state) :
    StateOk t' context state where
  epoch := hevolves.epoch ▸ hs.epoch
  len := hs.len
  anchors hepoch i ref hget :=
    (hs.anchors (hepoch.trans hevolves.epoch) i ref hget).evolves hevolves

theorem StateOk.of_epoch_lt (hs : StateOk t context state) (hlt : t.trieEpoch < t'.trieEpoch) :
    StateOk t' context state where
  epoch := Nat.le_trans hs.epoch (Nat.le_of_lt hlt)
  len := hs.len
  anchors hepoch := by
    have := hs.epoch
    omega

theorem StateOk.append (hs : StateOk t context state) (tokens : List Int) :
    StateOk t (context ++ tokens) state where
  epoch := hs.epoch
  len := by
    rw [List.length_append]
    exact Nat.le_add_right_of_le hs.len
  anchors hepoch i ref hget := by
    rw [List.take_append_of_le_length hs.len]
    exact hs.anchors hepoch i ref hget

theorem StateOk.anchors_eq (h : Inv c t) (hs : StateOk t context state)
    (hvalid : t.validateMatchState state = true)
    (hlen : state.anchors.length = min state.processedTotalLen c.maxTrieDepth) :
    state.anchors =
      t.cachedAnchors c (context.take state.processedTotalLen) (isNull state) := by
  simp only [validateMatchState, Bool.and_eq_true, decide_eq_true_eq, List.all_eq_true,
    Bool.or_eq_true] at hvalid
  have hprocessed := hs.len
  refine List.ext_getElem ?_ fun i hi hi' => ?_
  · simp only [cachedAnchors, List.length_map, List.length_range, List.length_take]
    omega
  · have hget : state.anchors[i]? = some state.anchors[i] := List.getElem?_eq_getElem hi
    simp only [cachedAnchors, List.getElem_map, List.getElem_range, isNull, hget]
    have href := hs.anchors hvalid.1 i _ hget
    have hresolve := hvalid.2 _ (List.getElem_mem hi)
    cases hptr : state.anchors[i].ptr with
    | none =>
        rw [href.null hptr]
        rfl
    | some ptr =>
        rw [hptr] at hresolve
        simp only [Option.isNone_some, Bool.false_eq_true, if_false]
        exact href.eq_captureSuffix h hptr (by simpa using hresolve)

theorem StateOk.of_cachedAnchors (h : Inv c t) {missing : Nat → Bool}
    (hepoch : state.trieEpoch = t.trieEpoch) (hlen : state.processedTotalLen = context.length)
    {tail : List Int} (htail : tail <:+ context)
    (hanchors : state.anchors = t.cachedAnchors c tail missing) : StateOk t context state where
  epoch := Nat.le_of_eq hepoch
  len := Nat.le_of_eq hlen
  anchors _ i ref hget := by
    rw [hlen, List.take_length]
    rw [hanchors, cachedAnchors, List.getElem?_map, Option.map_eq_some_iff] at hget
    obtain ⟨j, hj, rfl⟩ := hget
    obtain ⟨hi, rfl⟩ := List.getElem?_eq_some_iff.mp hj
    rw [List.getElem_range]
    rw [List.length_range] at hi
    split
    · exact .of_null _ _
    · rw [rtake_of_suffix htail (by omega)]
      exact .of_captureSuffix h _

end State

section Match

variable {state : MatchState} {context tail : List Int}

/-- Whether a match takes over the cached anchors. -/
def advances (c : TrieConfig) (t : Trie) (state : MatchState) (len totalLen : Nat) : Bool :=
  t.canAdvance c state len totalLen && t.validateMatchState state

theorem matchContext_advances (h : Inv c t) (hs : StateOk t context state)
    (htail : tail <:+ context) (hadvances : t.advances c state tail.length context.length = true) :
    ∃ missing, missing = shift (context.length - state.processedTotalLen) (isNull state) ∧
      t.matchContext c tail state context.length =
        (t.expandableAnchors c context missing,
          ⟨t.trieEpoch, context.length, t.cachedAnchors c context missing⟩) := by
  refine ⟨_, rfl, ?_⟩
  rw [advances, Bool.and_eq_true] at hadvances
  obtain ⟨hcan, hvalid⟩ := hadvances
  have hguard := hcan
  simp only [canAdvance, Bool.and_eq_true, decide_eq_true_eq] at hguard
  obtain ⟨⟨⟨hepoch, hle⟩, hlen⟩, hdepth⟩ := hguard
  -- The tokens passed on are those the state has not seen.
  have htokens : tail.drop (tail.length - (context.length - state.processedTotalLen)) =
      context.drop state.processedTotalLen := by
    have hrtake := rtake_of_suffix htail hlen
    rw [List.rtake, List.rtake, Nat.sub_sub_self hle] at hrtake
    exact hrtake.symm
  have hloop := advanceLoop_eq (context.drop state.processedTotalLen) hepoch
    (hs.anchors_eq h hvalid hdepth)
  rw [List.take_append_drop, List.length_drop] at hloop
  simp only [matchContext, hcan, if_true, advanceMatchState, hvalid, htokens, hloop,
    Option.map_some, Option.getD_some, hepoch, getExpandableAnchors_cached]

theorem matchContext_rebuilds {totalLen : Nat}
    (hadvances : t.advances c state tail.length totalLen = false) :
    t.matchContext c tail state totalLen =
      (t.expandableAnchors c tail fun _ => false,
        ⟨t.trieEpoch, totalLen, t.cachedAnchors c tail fun _ => false⟩) := by
  have hadvanced : (if t.canAdvance c state tail.length totalLen then
      t.advanceMatchState c state (tail.drop (tail.length - (totalLen - state.processedTotalLen)))
        totalLen else none) = none := by
    rw [advances, Bool.and_eq_false_iff] at hadvances
    rcases hadvances with hcan | hvalid
    · simp [hcan]
    · simp [advanceMatchState, hvalid]
  have hrebuilt : t.rebuildMatchState c tail totalLen =
      ⟨t.trieEpoch, totalLen, t.cachedAnchors c tail fun _ => false⟩ := rfl
  simp only [matchContext, hadvanced, Option.getD_none, hrebuilt, getExpandableAnchors_cached]

theorem matchContext_spec (h : Inv c t) (hs : StateOk t context state)
    (htail : tail <:+ context) : ∃ used missing, used <:+ context ∧
      t.matchContext c tail state context.length =
        (t.expandableAnchors c used missing,
          ⟨t.trieEpoch, context.length, t.cachedAnchors c used missing⟩) := by
  cases hadvances : t.advances c state tail.length context.length with
  | true =>
      obtain ⟨missing, _, heq⟩ := matchContext_advances h hs htail hadvances
      exact ⟨context, missing, List.suffix_rfl, heq⟩
  | false => exact ⟨tail, _, htail, matchContext_rebuilds hadvances⟩

theorem StateOk.matchContext (h : Inv c t) (hs : StateOk t context state)
    (htail : tail <:+ context) :
    StateOk t context (t.matchContext c tail state context.length).2 := by
  obtain ⟨used, missing, hused, heq⟩ := matchContext_spec h hs htail
  rw [heq]
  exact .of_cachedAnchors h rfl rfl hused rfl

theorem matchContext_sound (h : Inv c t) (hs : StateOk t context state)
    (htail : tail <:+ context) {node d : Nat}
    (hmem : (node, d) ∈ (t.matchContext c tail state context.length).1) :
    d ≤ context.length ∧ t.Spells node (context.rtake d) := by
  obtain ⟨used, missing, hused, heq⟩ := matchContext_spec h hs htail
  rw [heq] at hmem
  obtain ⟨i, hi, _, hentry⟩ := mem_expandableAnchors.mp hmem
  obtain ⟨rfl, hfind⟩ := expandableSuffix_eq_some hentry
  have hle := hused.length_le
  rw [rtake_of_suffix hused (by omega)]
  exact ⟨by omega, (descend_eq_some h).mp hfind⟩

/-- A tail that reaches down to the depth of the trie stands for the context. -/
theorem expandableAnchors_of_suffix (htail : tail <:+ context)
    (hcover : min context.length c.maxTrieDepth ≤ tail.length) (missing : Nat → Bool) :
    t.expandableAnchors c tail missing = t.expandableAnchors c context missing := by
  have hle := htail.length_le
  have hlen : min tail.length c.maxTrieDepth = min context.length c.maxTrieDepth := by omega
  rw [expandableAnchors, expandableAnchors, hlen]
  refine List.filterMap_congr fun i hi => ?_
  rw [List.mem_reverse, List.mem_range] at hi
  rw [expandableSuffix, expandableSuffix, rtake_of_suffix htail (by omega)]

end Match

end Trie

end SpecDecode.Ngram
