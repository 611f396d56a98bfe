import SpecDecode.Eagle.GreedyPath
import SpecDecode.Eagle.VerifyGreedy
import Mathlib.Data.List.GetD

/-!
# What `VerifyTreeGreedy` accepts

`acceptPath` performs the stores of a walk along a given path. The kernel's loop
is `acceptPath` along `followTarget` (`walkTree_eq`), so its output is read off
the path (`RowResult`), and blocks write disjoint rows (`RowEffect`).
-/

namespace SpecDecode.Eagle

open Function Buffer Launch

/-- The rows of one request after a walk that accepted `path`: rows of `predicts`
have `n` entries and rows of `accept_index` have `stride`. -/
structure RowResult (n stride bx : Nat) (predicted : Nat → Int) (path : List Nat)
    (b : VerifyBuffers) : Prop where
  predicts : ∀ v ∈ 0 :: path, b.predicts (bx * n + v) = predicted v
  index : ∀ i, i ≤ path.length →
    b.acceptIndex (bx * stride + i) = (bx * n + (0 :: path).getD i 0 : Nat)
  num : b.acceptTokenNum bx = path.length

structure RowEffect (n stride bx : Nat) (b b' : VerifyBuffers) : Prop where
  predicts : ∀ x, x < bx * n ∨ bx * n + n ≤ x → b'.predicts x = b.predicts x
  index : ∀ x, x < bx * stride ∨ bx * stride + stride ≤ x → b'.acceptIndex x = b.acceptIndex x
  num : ∀ x, x ≠ bx → b'.acceptTokenNum x = b.acceptTokenNum x

theorem RowResult.keep {n stride p q : Nat} {predicted : Nat → Int} {path : List Nat}
    {b b' : VerifyBuffers} (h : RowResult n stride q predicted path b) (hpath : ∀ v ∈ path, v < n)
    (hn : 0 < n) (hlen : path.length < stride) (hpq : p ≠ q) (heffect : RowEffect n stride p b b') :
    RowResult n stride q predicted path b' where
  predicts v hv := by
    have hlt : v < n := by
      rcases List.mem_cons.mp hv with rfl | hv
      · exact hn
      · exact hpath v hv
    rw [heffect.predicts _ (window_outside hlt hpq), h.predicts v hv]
  index i hi := by
    rw [heffect.index _ (window_outside (by omega) hpq), h.index i hi]
  num := by rw [heffect.num q (Ne.symm hpq), h.num]

/-- A launch of blocks that each fill their own rows fills all of them. -/
theorem launch_rowResult {n stride bs : Nat} {step : Nat → VerifyBuffers → Option VerifyBuffers}
    {predicted : Nat → Nat → Int} {path : Nat → List Nat} (hn : 0 < n)
    (hpath : ∀ bx, bx < bs → ∀ v ∈ path bx, v < n)
    (hlen : ∀ bx, bx < bs → (path bx).length < stride)
    (hstep : ∀ bx, bx < bs → ∀ b, ∃ b', step bx b = some b' ∧
      RowResult n stride bx (predicted bx) (path bx) b' ∧ RowEffect n stride bx b b')
    (b : VerifyBuffers) :
    ∃ b', launch step (List.range bs) b = some b' ∧
      ∀ bx, bx < bs → RowResult n stride bx (predicted bx) (path bx) b' := by
  let rows : Local step (List.range bs) :=
    { pre := fun _ _ => True
      post := fun bx b => RowResult n stride bx (predicted bx) (path bx) b
      effect := fun bx b b' => RowEffect n stride bx b b'
      run := fun bx hbx b _ => hstep bx (List.mem_range.mp hbx) b
      keep_pre := fun _ _ _ _ _ _ _ _ _ => trivial
      keep_post := fun p _ q hq hpq b b' heffect hpost =>
        have hq := List.mem_range.mp hq
        hpost.keep (hpath q hq) hn (hlen q hq) hpq heffect }
  obtain ⟨b', hrun, hpost⟩ := rows.launch_post List.nodup_range b (fun _ _ => trivial)
  exact ⟨b', hrun, fun bx hbx => hpost bx (List.mem_range.mpr hbx)⟩

def Walk.acceptPath (base rowStart : Nat) (predicted : Nat → Int) : Nat → List Nat → Walk → Walk
  | _, [], w => w
  | v, c :: path, w =>
      acceptPath base rowStart predicted c path (w.accept rowStart (predicted v) (base + c : Nat))

namespace Walk

variable {base rowStart bx v : Nat} {predicted : Nat → Int}

theorem acceptPath_lastAccepted (path : List Nat) (v : Nat) {w : Walk}
    (hw : w.lastAccepted = (base + v : Nat)) :
    (acceptPath base rowStart predicted v path w).lastAccepted =
      (base + (v :: path).getLast (List.cons_ne_nil _ _) : Nat) := by
  induction path generalizing v w with
  | nil => exact hw
  | cons c path ih =>
      rw [acceptPath, ih c rfl, List.getLast_cons (List.cons_ne_nil c path)]

@[simp] theorem acceptPath_numAccepted (path : List Nat) (v : Nat) (w : Walk) :
    (acceptPath base rowStart predicted v path w).numAccepted = w.numAccepted + path.length := by
  induction path generalizing v w with
  | nil => rfl
  | cons c path ih =>
      rw [acceptPath, ih]
      simp only [accept, List.length_cons]
      omega

@[simp] theorem acceptPath_acceptTokenNum (path : List Nat) (v : Nat) (w : Walk) :
    (acceptPath base rowStart predicted v path w).buffers.acceptTokenNum =
      w.buffers.acceptTokenNum := by
  induction path generalizing v w with
  | nil => rfl
  | cons c path ih => rw [acceptPath, ih]; rfl

/-- Entries up to the walk's count, and past its end, stay as they are. -/
theorem acceptPath_index_frame (path : List Nat) (v : Nat) (w : Walk) {x : Nat}
    (hx : x ≤ rowStart + w.numAccepted ∨ rowStart + w.numAccepted + path.length < x) :
    (acceptPath base rowStart predicted v path w).buffers.acceptIndex x =
      w.buffers.acceptIndex x := by
  induction path generalizing v w with
  | nil => rfl
  | cons c path ih =>
      rw [List.length_cons] at hx
      rw [acceptPath, ih c _ (by simp only [accept]; omega)]
      exact update_of_ne (by omega) _ _

theorem acceptPath_index (path : List Nat) (v : Nat) (w : Walk) {i : Nat} (hi : i < path.length) :
    (acceptPath base rowStart predicted v path w).buffers.acceptIndex
      (rowStart + w.numAccepted + 1 + i) = (base + path.getD i 0 : Nat) := by
  induction path generalizing v w i with
  | nil => simp at hi
  | cons c path ih =>
      rw [acceptPath]
      cases i with
      | zero =>
          rw [acceptPath_index_frame path c _ (by simp only [accept]; omega)]
          exact update_self ..
      | succ i =>
          have := ih c (w.accept rowStart (predicted v) (base + c : Nat)) (by simpa using hi)
          simp only [accept] at this
          rw [List.getD_cons_succ, ← this]
          congr 1
          omega

theorem finish_predicts (path : List Nat) (v : Nat) {w : Walk}
    (hw : w.lastAccepted = (base + v : Nat)) (x : Nat) :
    ((acceptPath base rowStart predicted v path w).finish bx
      (predicted ((v :: path).getLast (List.cons_ne_nil _ _)))).predicts x =
      if ∃ u ∈ v :: path, x = base + u then predicted (x - base) else w.buffers.predicts x := by
  induction path generalizing v w with
  | nil =>
      simp only [acceptPath, finish, hw, Int.toNat_natCast, List.getLast_singleton,
        List.mem_singleton, exists_eq_left, update_apply]
      by_cases hx : x = base + v <;> simp [hx]
  | cons c path ih =>
      have hlast := List.getLast_cons (List.cons_ne_nil c path) (a := v)
      rw [hlast, acceptPath, ih c rfl]
      simp only [accept, hw, Int.toNat_natCast, update_apply]
      by_cases htail : ∃ u ∈ c :: path, x = base + u
      · rw [if_pos htail]
        obtain ⟨u, hu, rfl⟩ := htail
        rw [if_pos ⟨u, List.mem_cons_of_mem v hu, rfl⟩]
      · rw [if_neg htail]
        by_cases hx : x = base + v
        · rw [if_pos hx, if_pos ⟨v, List.mem_cons_self .., hx⟩, hx, Nat.add_sub_cancel_left]
        · rw [if_neg hx, if_neg]
          rintro ⟨u, hu, rfl⟩
          rcases List.mem_cons.mp hu with rfl | hu
          · exact hx rfl
          · exact htail ⟨u, hu, rfl⟩

end Walk

def walkPath (n stride bx : Nat) (predicted : Nat → Int) (path : List Nat) (b : VerifyBuffers) :
    VerifyBuffers :=
  (Walk.acceptPath (bx * n) (bx * stride) predicted 0 path
    (b.start (bx * stride) (bx * n : Nat))).finish bx
      (predicted ((0 :: path).getLast (List.cons_ne_nil _ _)))

section WalkPath

variable {n stride bx : Nat} {predicted : Nat → Int} {path : List Nat}

theorem walkPath_predicts (b : VerifyBuffers) (x : Nat) :
    (walkPath n stride bx predicted path b).predicts x =
      if ∃ u ∈ 0 :: path, x = bx * n + u then predicted (x - bx * n) else b.predicts x :=
  Walk.finish_predicts path 0 rfl x

theorem walkPath_result (b : VerifyBuffers) :
    RowResult n stride bx predicted path (walkPath n stride bx predicted path b) where
  predicts v hv := by
    rw [walkPath_predicts, if_pos ⟨v, hv, rfl⟩, Nat.add_sub_cancel_left]
  index i hi := by
    cases i with
    | zero =>
        refine (Walk.acceptPath_index_frame path 0 _ (.inl (Nat.le_refl _))).trans ?_
        exact update_self ..
    | succ i =>
        have hget : (Walk.acceptPath (bx * n) (bx * stride) predicted 0 path
            (b.start (bx * stride) (bx * n : Nat))).buffers.acceptIndex (bx * stride + 0 + 1 + i) =
            (bx * n + path.getD i 0 : Nat) := Walk.acceptPath_index path 0 _ hi
        rw [List.getD_cons_succ, ← hget]
        exact congrArg _ (by omega)
  num := by
    simp only [walkPath, Walk.finish, Walk.acceptPath_numAccepted, VerifyBuffers.start,
      update_self, Nat.zero_add]

/-- Of its row of `accept_index`, a walk writes one entry per accepted node. -/
theorem walkPath_index_frame (b : VerifyBuffers) {x : Nat}
    (hx : x < bx * stride ∨ bx * stride + path.length < x) :
    (walkPath n stride bx predicted path b).acceptIndex x = b.acceptIndex x := by
  refine (Walk.acceptPath_index_frame path 0 _ ?_).trans ?_
  · simp only [VerifyBuffers.start]
    omega
  · exact update_of_ne (by omega) _ _

theorem walkPath_effect (hn : 0 < n) (hpath : ∀ v ∈ path, v < n) (hlen : path.length < stride)
    (b : VerifyBuffers) : RowEffect n stride bx b (walkPath n stride bx predicted path b) where
  predicts x hx := by
    rw [walkPath_predicts, if_neg]
    rintro ⟨u, hu, rfl⟩
    rcases List.mem_cons.mp hu with rfl | hu
    · omega
    · have := hpath u hu
      omega
  index x hx := walkPath_index_frame b (by omega)
  num x hx := by
    simp only [walkPath, Walk.finish, Walk.acceptPath_acceptTokenNum, update_of_ne hx,
      VerifyBuffers.start]

end WalkPath

namespace VerifyArgs

variable (a : VerifyArgs) {bx : Nat}

/-- Row `bx` encodes the tree: sibling lists spell its children in order, and
`retrive_index` numbers the tokens of the batch. -/
structure RowWellFormed (bx : Nat) (t : OrderedTree a.numDraftTokens) : Prop where
  chains : ∀ v, v < a.numDraftTokens →
    Chain (row a.retriveNextSibling (bx * a.numDraftTokens))
      (a.retriveNextToken (bx * a.numDraftTokens + v)) (t.children v)
  index : ∀ v, v < a.numDraftTokens →
    a.retriveIndex (bx * a.numDraftTokens + v) = (bx * a.numDraftTokens + v : Nat)

/-- The tree of row `bx` with its candidate tokens and the target's predictions. -/
def tokenTree (bx : Nat) (t : OrderedTree a.numDraftTokens) : TokenTree a.numDraftTokens :=
  { t with
    token := fun v => a.candidates (bx * a.numDraftTokens + v)
    predicted := fun v => a.targetPredict (bx * a.numDraftTokens + v) }

def acceptedPath (bx : Nat) (t : OrderedTree a.numDraftTokens) : List Nat :=
  (a.tokenTree bx t).followTarget (a.numSpeculativeTokens - 1) 0

variable {a} {t : OrderedTree a.numDraftTokens}

/-- How the kernel stores a node it may not have: `-1` for none. -/
def nodeIndex : Option Nat → Int
  | none => -1
  | some c => c

theorem scanSiblings_eq {v fuel : Nat} {curIndex : Int} {xs : List Nat}
    (h : Chain (row a.retriveNextSibling (bx * a.numDraftTokens)) curIndex xs)
    (hfuel : xs.length < fuel) :
    a.scanSiblings bx (bx * a.numDraftTokens + v : Nat) fuel curIndex =
      some (nodeIndex (xs.find? fun c =>
        (a.tokenTree bx t).token c = (a.tokenTree bx t).predicted v)) := by
  induction h generalizing fuel with
  | nil =>
      obtain ⟨k, rfl⟩ : ∃ k, fuel = k + 1 := ⟨fuel - 1, by simp at hfuel; omega⟩
      simp [scanSiblings, nodeIndex]
  | @cons i xs rest ih =>
      obtain ⟨k, rfl⟩ : ∃ k, fuel = k + 1 := ⟨fuel - 1, by simp at hfuel; omega⟩
      have hne : (i : Int) ≠ -1 := by omega
      rw [scanSiblings, if_neg hne]
      by_cases hmatch : (a.tokenTree bx t).token i = (a.tokenTree bx t).predicted v
      · rw [List.find?_cons_of_pos (by simpa using hmatch)]
        exact if_pos hmatch
      · rw [List.find?_cons_of_neg (by simpa using hmatch), ← ih (by simpa using hfuel)]
        exact if_neg hmatch

/-- The loop over `j` accepts the path that follows the target. -/
theorem walkTree_eq (hwf : a.RowWellFormed bx t) (count : Nat) {v : Nat}
    (hv : v < a.numDraftTokens) {w : Walk}
    (hw : w.lastAccepted = (bx * a.numDraftTokens + v : Nat)) :
    a.walkTree bx count v w =
      some (Walk.acceptPath (bx * a.numDraftTokens) (bx * a.numSpeculativeTokens)
        (a.tokenTree bx t).predicted v ((a.tokenTree bx t).followTarget count v) w) := by
  induction count generalizing v w with
  | zero => rfl
  | succ count ih =>
      have hscan : a.scanSiblings bx (bx * a.numDraftTokens + v : Nat) (a.numDraftTokens + 1)
          (a.retriveNextToken (bx * a.numDraftTokens + v)) =
            some (nodeIndex ((a.tokenTree bx t).nextNode v)) :=
        scanSiblings_eq (hwf.chains v hv) (Nat.lt_succ_iff.mpr (t.children_length_le v))
      unfold walkTree TokenTree.followTarget
      rw [hw, Int.toNat_natCast, Int.toNat_natCast, hscan]
      cases hnext : (a.tokenTree bx t).nextNode v with
      | none => rfl
      | some c =>
          have hc : c < a.numDraftTokens := t.child_lt (TokenTree.nextNode_eq_some hnext).1
          have hne : nodeIndex (some c) ≠ -1 := by
            simp only [nodeIndex]
            omega
          dsimp only
          rw [if_neg hne]
          simp only [nodeIndex, Int.toNat_natCast, hwf.index c hc]
          exact ih hc rfl

theorem verifyTreeGreedy_eq (hn : 0 < a.numDraftTokens) (hwf : a.RowWellFormed bx t)
    (b : VerifyBuffers) :
    a.verifyTreeGreedy bx b =
      some (walkPath a.numDraftTokens a.numSpeculativeTokens bx (a.tokenTree bx t).predicted
        (a.acceptedPath bx t) b) := by
  have hroot : a.retriveIndex (bx * a.numDraftTokens) = (bx * a.numDraftTokens : Nat) :=
    hwf.index 0 hn
  unfold verifyTreeGreedy
  rw [hroot]
  have hwalk : a.walkTree bx (a.numSpeculativeTokens - 1) 0
      (b.start (bx * a.numSpeculativeTokens) (bx * a.numDraftTokens : Nat)) =
      some (Walk.acceptPath (bx * a.numDraftTokens) (bx * a.numSpeculativeTokens)
        (a.tokenTree bx t).predicted 0 (a.acceptedPath bx t)
        (b.start (bx * a.numSpeculativeTokens) (bx * a.numDraftTokens : Nat))) :=
    walkTree_eq hwf (a.numSpeculativeTokens - 1) hn rfl
  simp only [hwalk, walkPath]
  rw [Walk.acceptPath_lastAccepted _ 0 rfl, Int.toNat_natCast]
  rfl

theorem acceptedPath_length_lt (hT : 0 < a.numSpeculativeTokens) :
    (a.acceptedPath bx t).length < a.numSpeculativeTokens := by
  have := TokenTree.followTarget_length_le (t := a.tokenTree bx t) (a.numSpeculativeTokens - 1) 0
  unfold acceptedPath
  omega

theorem acceptedPath_lt : ∀ v ∈ a.acceptedPath bx t, v < a.numDraftTokens :=
  (TokenTree.followTarget_matches _ 0).lt

variable {trees : Nat → OrderedTree a.numDraftTokens}

theorem launchVerify_result {bs : Nat} (hn : 0 < a.numDraftTokens) (hT : 0 < a.numSpeculativeTokens)
    (hwf : ∀ bx, bx < bs → a.RowWellFormed bx (trees bx)) (b : VerifyBuffers) :
    ∃ b', a.launchVerify bs b = some b' ∧ ∀ bx, bx < bs →
      RowResult a.numDraftTokens a.numSpeculativeTokens bx (a.tokenTree bx (trees bx)).predicted
        (a.acceptedPath bx (trees bx)) b' := by
  refine launch_rowResult hn (fun _ _ => acceptedPath_lt) (fun _ _ => acceptedPath_length_lt hT)
    (fun bx hbx b => ⟨_, verifyTreeGreedy_eq hn (hwf bx hbx) b, walkPath_result b, ?_⟩) b
  exact walkPath_effect hn acceptedPath_lt (acceptedPath_length_lt hT) b

/-- The launch keeps what was predicted for a token that it does not accept. -/
theorem launchVerify_predicts {bs : Nat}
    (hwf : ∀ bx, bx < bs → a.RowWellFormed bx (trees bx)) {b b' : VerifyBuffers}
    (hrun : a.launchVerify bs b = some b') (bx : Nat) {v : Nat} (hv : v < a.numDraftTokens)
    (hout : v ∉ 0 :: a.acceptedPath bx (trees bx)) :
    b'.predicts (bx * a.numDraftTokens + v) = b.predicts (bx * a.numDraftTokens + v) := by
  refine launch_preserves (P := fun m => m.predicts (bx * a.numDraftTokens + v) =
    b.predicts (bx * a.numDraftTokens + v)) ?_ rfl hrun
  intro p hp m m' hm hstep
  rw [verifyTreeGreedy_eq (by omega) (hwf p (List.mem_range.mp hp)), Option.some.injEq] at hstep
  rw [← hstep, walkPath_predicts, if_neg, hm]
  rintro ⟨u, hu, heq⟩
  by_cases hpb : p = bx
  · subst hpb
    exact hout (Nat.add_left_cancel heq ▸ hu)
  · have hlt : u < a.numDraftTokens := by
      rcases List.mem_cons.mp hu with rfl | hu
      · omega
      · exact acceptedPath_lt u hu
    have := window_outside hv hpb
    omega

theorem launchVerify_acceptIndex {bs : Nat}
    (hn : 0 < a.numDraftTokens) (hT : 0 < a.numSpeculativeTokens)
    (hwf : ∀ bx, bx < bs → a.RowWellFormed bx (trees bx)) {b b' : VerifyBuffers}
    (hrun : a.launchVerify bs b = some b') (bx : Nat) {i : Nat} (hi : i < a.numSpeculativeTokens)
    (hout : (a.acceptedPath bx (trees bx)).length < i) :
    b'.acceptIndex (bx * a.numSpeculativeTokens + i) =
      b.acceptIndex (bx * a.numSpeculativeTokens + i) := by
  refine launch_preserves (P := fun m => m.acceptIndex (bx * a.numSpeculativeTokens + i) =
    b.acceptIndex (bx * a.numSpeculativeTokens + i)) ?_ rfl hrun
  intro p hp m m' hm hstep
  rw [verifyTreeGreedy_eq hn (hwf p (List.mem_range.mp hp)), Option.some.injEq] at hstep
  rw [← hstep, walkPath_index_frame _ ?_, hm]
  by_cases hpb : p = bx
  · subst hpb
    omega
  · have := window_outside hi hpb
    have : (a.acceptedPath p (trees p)).length < _ := acceptedPath_length_lt hT
    omega

/-- The tokens a request emits: `predict[accept_index]` over its accepted entries. -/
def emitted (a : VerifyArgs) (bx : Nat) (b : VerifyBuffers) : List Int :=
  (List.range ((b.acceptTokenNum bx).toNat + 1)).map fun i =>
    b.predicts (b.acceptIndex (bx * a.numSpeculativeTokens + i)).toNat

theorem emitted_eq {b : VerifyBuffers} {predicted : Nat → Int} {path : List Nat}
    (h : RowResult a.numDraftTokens a.numSpeculativeTokens bx predicted path b) :
    a.emitted bx b = (0 :: path).map predicted := by
  unfold emitted
  rw [h.num, Int.toNat_natCast]
  refine List.ext_getElem (by simp) fun i hi _ => ?_
  have hle : i ≤ path.length := by simpa [Nat.lt_succ_iff] using hi
  have hmem : (0 :: path).getD i 0 ∈ 0 :: path := by
    rw [List.getD_eq_getElem _ _ (by simpa using hi)]
    exact List.getElem_mem _
  rw [List.getElem_map, List.getElem_range, h.index i hle, Int.toNat_natCast,
    h.predicts _ hmem, List.getElem_map, List.getD_eq_getElem]

/-- What a verified request looks like: it accepted `path` and emits what the
target decodes. -/
structure Verified (a : VerifyArgs) (bx : Nat) (t : TokenTree a.numDraftTokens)
    (target : List Int → Int) (path : List Nat) (b : VerifyBuffers) : Prop where
  follows : path = t.followTarget (a.numSpeculativeTokens - 1) 0
  matching : t.MatchPath 0 path
  bounded : path.length ≤ a.numSpeculativeTokens - 1
  longest : t.DistinctSiblings → ∀ p, t.MatchPath 0 p → p.length ≤ a.numSpeculativeTokens - 1 →
    p <+: path
  num : b.acceptTokenNum bx = path.length
  index : ∀ i, i ≤ path.length →
    b.acceptIndex (bx * a.numSpeculativeTokens + i) =
      (bx * a.numDraftTokens + (0 :: path).getD i 0 : Nat)
  predicts : ∀ v ∈ 0 :: path, b.predicts (bx * a.numDraftTokens + v) = t.predicted v
  tokens : a.emitted bx b =
    path.map t.token ++ [t.predicted ((0 :: path).getLast (List.cons_ne_nil _ _))]
  lossless : a.emitted bx b = greedyDecode target [t.token 0] (path.length + 1)

/-- Greedy verification is lossless. For every batch of well-formed draft trees
and targets, each request accepts the path that takes, at every node, the first
child with the target's token. That is the longest matching root path when
siblings carry distinct tokens, and the emitted tokens are always those of plain
greedy decoding. -/
theorem verifyTreeGreedy_lossless (a : VerifyArgs) {bs : Nat} (hn : 1 ≤ a.numDraftTokens)
    (hT : 1 ≤ a.numSpeculativeTokens) (trees : Nat → OrderedTree a.numDraftTokens)
    (hwf : ∀ bx, bx < bs → a.RowWellFormed bx (trees bx)) (target : Nat → List Int → Int)
    (hdec : ∀ bx, bx < bs → (a.tokenTree bx (trees bx)).DecodedBy (target bx)) (b : VerifyBuffers) :
    ∃ b', a.launchVerify bs b = some b' ∧ ∀ bx, bx < bs →
      ∃ path, a.Verified bx (a.tokenTree bx (trees bx)) (target bx) path b' := by
  obtain ⟨b', hrun, hrows⟩ := launchVerify_result hn hT hwf b
  refine ⟨b', hrun, fun bx hbx => ⟨a.acceptedPath bx (trees bx), ?_⟩⟩
  have hmatch : (a.tokenTree bx (trees bx)).MatchPath 0 (a.acceptedPath bx (trees bx)) :=
    TokenTree.followTarget_matches _ 0
  exact
    { follows := rfl
      matching := hmatch
      bounded := TokenTree.followTarget_length_le _ 0
      longest := fun hd p hp hlen => hp.isPrefix_followTarget hd hlen
      num := (hrows bx hbx).num
      index := (hrows bx hbx).index
      predicts := (hrows bx hbx).predicts
      tokens := (emitted_eq (hrows bx hbx)).trans hmatch.tokens_eq
      lossless := (emitted_eq (hrows bx hbx)).trans (hmatch.predicted_eq (hdec bx hbx) .root) }

/-- Nodes `1` and `2` hang off the root and `3` off `2`. -/
def twinTree : ParentTree where
  parent i := if i = 3 then 2 else 0
  parent_lt i hi := by
    split
    · omega
    · exact hi

/-- A request whose twins `1` and `2` carry the same token `7`, which the target
predicts at the root; only `2` has a child. -/
def twinArgs : VerifyArgs where
  candidates x := [5, 7, 7, 8].getD x 0
  retriveIndex x := x
  retriveNextToken x := [1, -1, 3, -1].getD x (-1)
  retriveNextSibling x := [-1, 2, -1, -1].getD x (-1)
  targetPredict x := [7, 8, 8, 9].getD x 0
  numSpeculativeTokens := 3
  numDraftTokens := 4

def twinTarget (p : List Int) : Int :=
  if p = [5] then 7 else if p = [5, 7] then 8 else 9

theorem twinArgs_rowWellFormed : twinArgs.RowWellFormed 0 (twinTree.ordered 4) where
  chains v hv := by
    have hv : v = 0 ∨ v = 1 ∨ v = 2 ∨ v = 3 := by
      change v < 4 at hv
      omega
    rcases hv with rfl | rfl | rfl | rfl
    · exact Chain.cons (i := 1) (Chain.cons (i := 2) Chain.nil)
    · exact Chain.nil
    · exact Chain.cons (i := 3) Chain.nil
    · exact Chain.nil
  index v _ := by simp [twinArgs]

theorem twinArgs_decodedBy : (twinArgs.tokenTree 0 (twinTree.ordered 4)).DecodedBy twinTarget := by
  have hpaths : ∀ v p, (twinArgs.tokenTree 0 (twinTree.ordered 4)).TokenPath v p →
      (v = 0 ∧ p = [5]) ∨ ((v = 1 ∨ v = 2) ∧ p = [5, 7]) ∨ (v = 3 ∧ p = [5, 7, 8]) := by
    intro v p h
    induction h with
    | root => exact .inl ⟨rfl, rfl⟩
    | @child v c p _ hc ih =>
        obtain ⟨h0, hc4, hparent⟩ := twinTree.mem_children.mp hc
        have hc : c = 1 ∨ c = 2 ∨ c = 3 := by omega
        rcases hc with rfl | rfl | rfl
        · obtain rfl : 0 = v := hparent
          obtain rfl : p = [5] := by simpa using ih
          exact .inr (.inl ⟨.inl rfl, rfl⟩)
        · obtain rfl : 0 = v := hparent
          obtain rfl : p = [5] := by simpa using ih
          exact .inr (.inl ⟨.inr rfl, rfl⟩)
        · obtain rfl : 2 = v := hparent
          obtain rfl : p = [5, 7] := by simpa using ih
          exact .inr (.inr ⟨rfl, rfl⟩)
  intro v p h
  rcases hpaths v p h with ⟨rfl, rfl⟩ | ⟨rfl | rfl, rfl⟩ | ⟨rfl, rfl⟩ <;> decide

theorem verifyTreeGreedy_lossless_twin :
    ∃ b, twinArgs.launchVerify 1 ⟨fun _ => 0, fun _ => -1, fun _ => 0⟩ = some b ∧
      ∀ bx, bx < 1 →
        ∃ path, twinArgs.Verified bx (twinArgs.tokenTree bx (twinTree.ordered 4))
        twinTarget path b :=
  verifyTreeGreedy_lossless twinArgs (by decide) (by decide) (fun _ => twinTree.ordered 4)
    (fun bx hbx => by
      obtain rfl : bx = 0 := by omega
      exact twinArgs_rowWellFormed)
    (fun _ => twinTarget)
    (fun bx hbx => by
      obtain rfl : bx = 0 := by omega
      exact twinArgs_decodedBy) _

/-- With twins, the kernel follows the first one: it accepts one token although
the path through the second twin matches for two. -/
theorem verifyTreeGreedy_not_longest :
    twinArgs.RowWellFormed 0 (twinTree.ordered 4) ∧
    (twinArgs.tokenTree 0 (twinTree.ordered 4)).DecodedBy twinTarget ∧
    (twinArgs.launchVerify 1 ⟨fun _ => 0, fun _ => -1, fun _ => 0⟩).map (·.acceptTokenNum 0) =
      some 1 ∧
    (twinArgs.tokenTree 0 (twinTree.ordered 4)).MatchPath 0 [2, 3] ∧
    [2, 3].length ≤ twinArgs.numSpeculativeTokens - 1 := by
  refine ⟨twinArgs_rowWellFormed, twinArgs_decodedBy, rfl, ?_, by decide⟩
  have hroot : 2 ∈ twinTree.children 4 0 := by decide
  have htwo : 3 ∈ twinTree.children 4 2 := by decide
  exact .cons hroot rfl (.cons htwo rfl .nil)

end VerifyArgs

end SpecDecode.Eagle
