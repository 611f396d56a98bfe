import SpecDecode.Npu.VerifyGreedy
import Mathlib.Algebra.Order.Ring.Int

/-!
# The fallback `verify_tree_greedy_native` and the DFlash rule

The general path of the fallback walks every tree on the host; a store past the end of a
row of `accept_index` raises an `IndexError`, which is `none` here. The fast path of two
draft tokens compares whole tensors and returns new ones.

`compute_dflash_accept_len_and_bonus` counts the accepted tokens of a chain by a cumulative
product.
-/

namespace SpecDecode.Npu

open Buffer Eagle Launch

section Native

variable (a : VerifyArgs)

/-- `cur_target[last_accepted_idx - num_draft_tokens * bx]`. -/
def curTarget (bx : Nat) (lastAccepted : Int) : Int :=
  a.targetPredict (bx * a.numDraftTokens + (lastAccepted - (a.numDraftTokens * bx : Nat)).toNat)

def nativeScan (bx : Nat) (lastAccepted : Int) : Nat → Int → Option Int
  | 0, _ => none
  | fuel + 1, curNode =>
      if curNode = -1 then some (-1)
      else if a.candidates (bx * a.numDraftTokens + curNode.toNat) =
          curTarget a bx lastAccepted then some curNode
      else
        nativeScan bx lastAccepted fuel
          (a.retriveNextSibling (bx * a.numDraftTokens + curNode.toNat))

def nativeWalkTree (bx : Nat) : (count : Nat) → (curNode : Int) → Walk → Option Walk
  | 0, _, w => some w
  | count + 1, curNode, w =>
      match nativeScan a bx w.lastAccepted (a.numDraftTokens + 1)
          (a.retriveNextToken (bx * a.numDraftTokens + curNode.toNat)) with
      | none => none
      | some curNode =>
          if curNode = -1 then some w
          else if w.numAccepted + 1 < a.numSpeculativeTokens then
            nativeWalkTree bx count curNode
              (w.accept (bx * a.numSpeculativeTokens) (curTarget a bx w.lastAccepted)
                (a.retriveIndex (bx * a.numDraftTokens + curNode.toNat)))
          else none

def nativeVerifyRow (bx : Nat) (b : VerifyBuffers) : Option VerifyBuffers :=
  if a.numSpeculativeTokens = 0 then none
  else
    let w := b.start (bx * a.numSpeculativeTokens) (a.retriveIndex (bx * a.numDraftTokens))
    (nativeWalkTree a bx (a.numDraftTokens - 1) 0 w).map fun w =>
      w.finish bx (curTarget a bx w.lastAccepted)

/-- When the fast path is taken. -/
def FastPath (topk : Int) : Prop :=
  a.numDraftTokens = 2 ∧ a.numSpeculativeTokens = 2 ∧ topk = 1

instance (topk : Int) : Decidable (FastPath a topk) :=
  inferInstanceAs (Decidable (_ ∧ _ ∧ _))

def comparisonResult (bx : Nat) : Int :=
  if a.candidates (bx * a.numDraftTokens + 1) = a.targetPredict (bx * a.numDraftTokens) then 1
  else 0

def nativeFastPath (bs : Nat) (b : VerifyBuffers) : VerifyBuffers where
  predicts := fill b.predicts 0 (bs * a.numDraftTokens) a.targetPredict
  acceptIndex := fill b.acceptIndex 0 (a.numDraftTokens * bs) fun x =>
    if x % 2 = 1 then x * comparisonResult a (x / 2) - (1 - comparisonResult a (x / 2)) else x
  acceptTokenNum := fill b.acceptTokenNum 0 bs (comparisonResult a)

/-- `verify_tree_greedy_native`. -/
def verifyTreeGreedyNative (topk : Int) (bs : Nat) (b : VerifyBuffers) : Option VerifyBuffers :=
  if FastPath a topk then some (nativeFastPath a bs b)
  else launch (nativeVerifyRow a) (List.range bs) b

def cumprod (acc : Nat) : List Nat → List Nat
  | [] => []
  | x :: xs => (acc * x) :: cumprod (acc * x) xs

def dflashAcceptLen (bx : Nat) : Nat :=
  (cumprod 1 ((List.range (a.numDraftTokens - 1)).map fun i =>
    if a.candidates (bx * a.numDraftTokens + (i + 1)) =
      a.targetPredict (bx * a.numDraftTokens + i) then 1 else 0)).sum

def computeDflashAcceptLenAndBonus (bs : Nat) : Option ((Nat → Nat) × (Nat → Int)) :=
  if bs = 0 ∨ a.numDraftTokens = 0 then none
  else
    some (dflashAcceptLen a, fun bx =>
      a.targetPredict (bx * a.numDraftTokens + dflashAcceptLen a bx))

end Native

section General

variable {a : VerifyArgs} {bx : Nat} {t : OrderedTree a.numDraftTokens}

theorem curTarget_eq (v : Nat) :
    curTarget a bx (bx * a.numDraftTokens + v : Nat) =
      a.targetPredict (bx * a.numDraftTokens + v) := by
  rw [curTarget, Nat.mul_comm a.numDraftTokens bx]
  congr 1
  omega

theorem nativeScan_eq (v fuel : Nat) (curNode : Int) :
    nativeScan a bx (bx * a.numDraftTokens + v : Nat) fuel curNode =
      a.scanSiblings bx (bx * a.numDraftTokens + v : Nat) fuel curNode := by
  induction fuel generalizing curNode with
  | zero => rfl
  | succ fuel ih =>
      rw [nativeScan, VerifyArgs.scanSiblings, curTarget_eq, Int.toNat_natCast, ih]

variable (a bx t) in
/-- The path that follows the target through the whole tree. -/
def greedyPath : List Nat := (a.tokenTree bx t).followTarget (a.numDraftTokens - 1) 0

/-- The general path accepts the greedy path if the row of `accept_index` holds it. -/
theorem nativeWalkTree_eq (hwf : a.RowWellFormed bx t) (count : Nat) {v : Nat}
    (hv : v < a.numDraftTokens) {w : Walk} (hw : w.lastAccepted = (bx * a.numDraftTokens + v : Nat))
    (hroom : w.numAccepted < a.numSpeculativeTokens) :
    nativeWalkTree a bx count v w =
      if w.numAccepted + ((a.tokenTree bx t).followTarget count v).length <
          a.numSpeculativeTokens then
        some (Walk.acceptPath (bx * a.numDraftTokens) (bx * a.numSpeculativeTokens)
          (a.tokenTree bx t).predicted v ((a.tokenTree bx t).followTarget count v) w)
      else none := by
  induction count generalizing v w with
  | zero => exact (if_pos hroom).symm
  | succ count ih =>
      have hscan : a.scanSiblings bx (bx * a.numDraftTokens + v : Nat) (a.numDraftTokens + 1)
          (a.retriveNextToken (bx * a.numDraftTokens + v)) =
            some (VerifyArgs.nodeIndex ((a.tokenTree bx t).nextNode v)) :=
        VerifyArgs.scanSiblings_eq (hwf.chains v hv) (Nat.lt_succ_iff.mpr (t.children_length_le v))
      rw [nativeWalkTree, TokenTree.followTarget, hw, Int.toNat_natCast, nativeScan_eq, hscan,
        curTarget_eq]
      cases hnext : (a.tokenTree bx t).nextNode v with
      | none => exact (if_pos hroom).symm
      | some c =>
          have hc : c < a.numDraftTokens := t.child_lt (TokenTree.nextNode_eq_some hnext).1
          have hne : VerifyArgs.nodeIndex (some c) ≠ -1 := by
            rw [VerifyArgs.nodeIndex]
            omega
          dsimp only
          rw [if_neg hne, List.length_cons]
          by_cases hnow : w.numAccepted + 1 < a.numSpeculativeTokens
          · rw [if_pos hnow]
            simp only [VerifyArgs.nodeIndex, Int.toNat_natCast, hwf.index c hc]
            rw [ih hc rfl hnow]
            simp only [Walk.accept, Nat.add_assoc, Nat.add_comm 1]
            rfl
          · rw [if_neg hnow, if_neg (by omega)]

theorem nativeVerifyRow_eq (hn : 0 < a.numDraftTokens) (hT : 0 < a.numSpeculativeTokens)
    (hwf : a.RowWellFormed bx t) (b : VerifyBuffers) :
    nativeVerifyRow a bx b =
      if (greedyPath a bx t).length < a.numSpeculativeTokens then
        some (walkPath a.numDraftTokens a.numSpeculativeTokens bx (a.tokenTree bx t).predicted
          (greedyPath a bx t) b)
      else none := by
  have hroot : a.retriveIndex (bx * a.numDraftTokens) = (bx * a.numDraftTokens : Nat) :=
    hwf.index 0 hn
  have hwalk : nativeWalkTree a bx (a.numDraftTokens - 1) 0
      (b.start (bx * a.numSpeculativeTokens) (bx * a.numDraftTokens : Nat)) =
      if (greedyPath a bx t).length < a.numSpeculativeTokens then
        some (Walk.acceptPath (bx * a.numDraftTokens) (bx * a.numSpeculativeTokens)
          (a.tokenTree bx t).predicted 0 (greedyPath a bx t)
          (b.start (bx * a.numSpeculativeTokens) (bx * a.numDraftTokens : Nat)))
      else none := by
    have h := nativeWalkTree_eq hwf (a.numDraftTokens - 1) hn
      (w := b.start (bx * a.numSpeculativeTokens) (bx * a.numDraftTokens : Nat)) rfl hT
    rwa [VerifyBuffers.start, Nat.zero_add] at h
  rw [nativeVerifyRow, if_neg (by omega), hroot]
  dsimp only
  rw [hwalk]
  split
  · rw [Option.map_some, Walk.acceptPath_lastAccepted _ 0 rfl, curTarget_eq]
    rfl
  · rfl

/-- The kernel stops after `num_speculative_tokens - 1` tokens: it accepts the greedy path if
that is shorter than a row of `accept_index`. -/
theorem acceptedPath_eq_greedyPath_iff (hn : 0 < a.numDraftTokens)
    (hT : 0 < a.numSpeculativeTokens) :
    a.acceptedPath bx t = greedyPath a bx t ↔
      (greedyPath a bx t).length < a.numSpeculativeTokens := by
  constructor
  · intro heq
    rw [← heq]
    exact VerifyArgs.acceptedPath_length_lt hT
  · intro hlen
    rw [VerifyArgs.acceptedPath, greedyPath] at *
    rcases Nat.le_total (a.numSpeculativeTokens - 1) (a.numDraftTokens - 1) with hle | hle
    · rw [TokenTree.followTarget_take hle, List.take_of_length_le (by omega)]
    · have hlt := (TokenTree.followTarget_matches (t := a.tokenTree bx t)
        (a.numSpeculativeTokens - 1) 0).length_lt hn
      rw [TokenTree.followTarget_take hle, List.take_of_length_le (by omega)]

variable {bs : Nat} {trees : Nat → OrderedTree a.numDraftTokens}

theorem nativeLaunch_eq (hn : 0 < a.numDraftTokens) (hT : 0 < a.numSpeculativeTokens)
    (hwf : ∀ bx, bx < bs → a.RowWellFormed bx (trees bx))
    (hfits : ∀ bx, bx < bs → (greedyPath a bx (trees bx)).length < a.numSpeculativeTokens)
    (b : VerifyBuffers) : launch (nativeVerifyRow a) (List.range bs) b = a.launchVerify bs b := by
  refine launch_congr (fun bx hbx m => ?_) b
  have hbx := List.mem_range.mp hbx
  rw [nativeVerifyRow_eq hn hT (hwf bx hbx), if_pos (hfits bx hbx),
    VerifyArgs.verifyTreeGreedy_eq hn (hwf bx hbx),
    (acceptedPath_eq_greedyPath_iff hn hT).mpr (hfits bx hbx)]

theorem fits_of_nativeLaunch (hn : 0 < a.numDraftTokens) (hT : 0 < a.numSpeculativeTokens)
    (hwf : ∀ bx, bx < bs → a.RowWellFormed bx (trees bx)) {b b' : VerifyBuffers}
    (hrun : launch (nativeVerifyRow a) (List.range bs) b = some b') {bx : Nat} (hbx : bx < bs) :
    (greedyPath a bx (trees bx)).length < a.numSpeculativeTokens := by
  obtain ⟨m, m', hstep⟩ := launch_runs hrun (List.mem_range.mpr hbx)
  rw [nativeVerifyRow_eq hn hT (hwf bx hbx)] at hstep
  by_contra hfits
  rw [if_neg hfits] at hstep
  cases hstep

end General

section Fast

/-- The returned tensors are the same. -/
structure SameResult (a : VerifyArgs) (bs : Nat) (cuda native : VerifyBuffers) : Prop where
  predicts : ∀ x, x < bs * a.numDraftTokens → native.predicts x = cuda.predicts x
  index : ∀ x, x < bs * a.numSpeculativeTokens → native.acceptIndex x = cuda.acceptIndex x
  num : ∀ bx, bx < bs → native.acceptTokenNum bx = cuda.acceptTokenNum bx

theorem pair_children {n : Nat} (t : OrderedTree n) (hn : n = 2) : t.children 0 = [1] := by
  have hone : ∀ c ∈ t.children 0, c = 1 := by
    intro c hc
    have hlt := t.child_lt hc
    have hroot : c ≠ 0 := fun h0 => t.root_orphan 0 (h0 ▸ hc)
    omega
  have hmem : 1 ∈ t.children 0 := by
    rcases (t.reach 1 (by omega)).cases_tail with h | ⟨p, hp, hchild⟩
    · omega
    · rcases hp.cases_tail with h | ⟨q, -, hq⟩
      · exact h ▸ hchild
      · have hlt := t.child_lt hq
        have hroot : p ≠ 0 := fun h0 => t.root_orphan q (h0 ▸ hq)
        obtain rfl : p = 1 := by omega
        exact absurd .refl (OrderedTree.not_below_parent hchild)
  have hnodup := t.nodup 0
  match hc : t.children 0 with
  | [] => simp [hc] at hmem
  | [c] => rw [hone c (by simp [hc])]
  | c :: d :: cs =>
      rw [hc] at hnodup hone
      rw [hone c (by simp), hone d (by simp)] at hnodup
      simp at hnodup

variable {a : VerifyArgs} {bs : Nat} {trees : Nat → OrderedTree a.numDraftTokens}

/-- The draft token of a request is the one the target predicts. -/
def DraftMatches (a : VerifyArgs) (bx : Nat) : Prop :=
  a.candidates (bx * a.numDraftTokens + 1) = a.targetPredict (bx * a.numDraftTokens)

instance (bx : Nat) : Decidable (DraftMatches a bx) := inferInstanceAs (Decidable (_ = _))

theorem acceptedPath_pair (hn : a.numDraftTokens = 2) (hT : a.numSpeculativeTokens = 2) (bx : Nat)
    (t : OrderedTree a.numDraftTokens) :
    a.acceptedPath bx t = if DraftMatches a bx then [1] else [] := by
  have hnext : (a.tokenTree bx t).nextNode 0 = if DraftMatches a bx then some 1 else none := by
    rw [TokenTree.nextNode, show (a.tokenTree bx t).children 0 = [1] from pair_children t hn]
    by_cases hmatch : DraftMatches a bx
    · rw [if_pos hmatch]
      exact List.find?_cons_of_pos (decide_eq_true hmatch)
    · rw [if_neg hmatch]
      refine List.find?_cons_of_neg (fun h => hmatch (of_decide_eq_true h))
  rw [VerifyArgs.acceptedPath, hT, TokenTree.followTarget, hnext]
  by_cases hmatch : DraftMatches a bx
  · simp only [if_pos hmatch]
    rfl
  · simp only [if_neg hmatch]

structure PairRow (a : VerifyArgs) (b c : VerifyBuffers) (bx : Nat) : Prop where
  root : c.predicts (bx * 2) = a.targetPredict (bx * 2)
  draft : c.predicts (bx * 2 + 1) =
    if DraftMatches a bx then a.targetPredict (bx * 2 + 1) else b.predicts (bx * 2 + 1)
  rootIndex : c.acceptIndex (bx * 2) = (bx * 2 : Nat)
  draftIndex : c.acceptIndex (bx * 2 + 1) =
    if DraftMatches a bx then ((bx * 2 + 1 : Nat) : Int) else -1
  num : c.acceptTokenNum bx = if DraftMatches a bx then 1 else 0

theorem pairRow (hn : a.numDraftTokens = 2) (hT : a.numSpeculativeTokens = 2)
    (hwf : ∀ bx, bx < bs → a.RowWellFormed bx (trees bx)) {b c : VerifyBuffers}
    (hb : ∀ x, b.acceptIndex x = -1) (hrun : a.launchVerify bs b = some c) {bx : Nat}
    (hbx : bx < bs) : PairRow a b c bx := by
  obtain ⟨c', hrun', hrows⟩ := VerifyArgs.launchVerify_result (by omega) (by omega) hwf b
  obtain rfl : c = c' := Option.some.inj (hrun.symm.trans hrun')
  have hrow := hrows bx hbx
  have hpath := acceptedPath_pair hn hT bx (trees bx)
  have hroot := hrow.predicts 0 List.mem_cons_self
  have hindex := hrow.index 0 (Nat.zero_le _)
  have hnum := hrow.num
  by_cases hmatch : DraftMatches a bx
  · rw [if_pos hmatch] at hpath
    have hdraft := hrow.predicts 1 (by simp [hpath])
    have hlast := hrow.index 1 (by simp [hpath])
    simp only [VerifyArgs.tokenTree, hn, hT, hpath] at hroot hindex hnum hdraft hlast
    exact ⟨hroot, by rw [if_pos hmatch, hdraft], hindex, by rw [if_pos hmatch, hlast]; rfl,
      by rw [if_pos hmatch, hnum]; rfl⟩
  · rw [if_neg hmatch] at hpath
    have hdraft := VerifyArgs.launchVerify_predicts hwf hrun bx (v := 1) (by omega)
      (by simp [hpath])
    have hlast := VerifyArgs.launchVerify_acceptIndex (by omega) (by omega) hwf hrun bx (i := 1)
      (by omega) (by simp [hpath])
    simp only [VerifyArgs.tokenTree, hn, hT, hpath] at hroot hindex hnum hdraft hlast
    exact ⟨hroot, by rw [if_neg hmatch, hdraft], hindex, by rw [if_neg hmatch, hlast, hb],
      by rw [if_neg hmatch, hnum]; rfl⟩

/-- On the fast path the tensors are the same exactly if every rejected token has been stored
its prediction beforehand. -/
theorem nativeFastPath_same_iff (hn : a.numDraftTokens = 2) (hT : a.numSpeculativeTokens = 2)
    (hwf : ∀ bx, bx < bs → a.RowWellFormed bx (trees bx)) {b c : VerifyBuffers}
    (hb : ∀ x, b.acceptIndex x = -1) (hrun : a.launchVerify bs b = some c) :
    SameResult a bs c (nativeFastPath a bs b) ↔ ∀ bx, bx < bs → ¬ DraftMatches a bx →
      b.predicts (bx * a.numDraftTokens + 1) = a.targetPredict (bx * a.numDraftTokens + 1) := by
  have hrow : ∀ bx, bx < bs → PairRow a b c bx := fun bx hbx => pairRow hn hT hwf hb hrun hbx
  have hcompare : ∀ bx, comparisonResult a bx = if DraftMatches a bx then 1 else 0 := fun _ => rfl
  have hfill : ∀ {f m : Nat → Int} {len x : Nat}, x < len → fill m 0 len f x = f x := by
    intro f m len x hx
    rw [fill_apply, if_pos (by omega), Nat.sub_zero]
  have hcells : bs * a.numDraftTokens = bs * 2 := by rw [hn]
  have hwidth : bs * a.numSpeculativeTokens = bs * 2 := by rw [hT]
  constructor
  · intro hsame bx hbx hmatch
    have hlt : bx * 2 + 1 < bs * a.numDraftTokens := by omega
    have hcell := hsame.predicts (bx * 2 + 1) hlt
    rw [(hrow bx hbx).draft, if_neg hmatch] at hcell
    rw [hn, ← hcell]
    exact hfill hlt
  · intro hsettled
    refine ⟨fun x hx => ?_, fun x hx => ?_, fun bx hbx => ?_⟩
    · rw [nativeFastPath]
      dsimp only
      rw [hfill hx]
      have hrow := hrow (x / 2) (by omega)
      have hsettled := hsettled (x / 2) (by omega)
      rcases Nat.mod_two_eq_zero_or_one x with hpar | hpar
      · have hx2 : x = x / 2 * 2 := by omega
        rw [hx2, hrow.root]
      · have hx2 : x = x / 2 * 2 + 1 := by omega
        rw [hn, ← hx2] at hsettled
        have hdraft := hrow.draft
        rw [← hx2] at hdraft
        rw [hdraft]
        split
        · rfl
        · next hmatch => exact (hsettled hmatch).symm
    · rw [nativeFastPath]
      dsimp only
      rw [hfill (by rw [hn, Nat.mul_comm]; rwa [hT] at hx), hcompare]
      have hrow := hrow (x / 2) (by omega)
      rcases Nat.mod_two_eq_zero_or_one x with hpar | hpar
      · have hx2 : x = x / 2 * 2 := by omega
        have hindex := hrow.rootIndex
        rw [← hx2] at hindex
        rw [if_neg (by omega), hindex]
      · have hx2 : x = x / 2 * 2 + 1 := by omega
        have hindex := hrow.draftIndex
        rw [← hx2] at hindex
        rw [if_pos hpar, hindex]
        split <;> simp
    · rw [nativeFastPath]
      dsimp only
      rw [hfill hbx, hcompare, (hrow bx hbx).num]

end Fast

section Chains

@[simp] theorem sum_cumprod_zero (xs : List Nat) : (cumprod 0 xs).sum = 0 := by
  induction xs with
  | nil => rfl
  | cons x xs ih => rw [cumprod, Nat.zero_mul, List.sum_cons, ih]

/-- The cumulative products count the ones up to the first zero. -/
theorem sum_cumprod (p : Nat → Bool) (xs : List Nat) :
    (cumprod 1 (xs.map fun i => if p i then 1 else 0)).sum = (xs.takeWhile p).length := by
  induction xs with
  | nil => rfl
  | cons x xs ih =>
      rw [List.map_cons, cumprod, List.sum_cons, Nat.one_mul, List.takeWhile_cons]
      cases p x with
      | false => simp [sum_cumprod_zero]
      | true => simpa [Nat.add_comm 1] using ih

variable {a : VerifyArgs} {bs bx : Nat} {t : OrderedTree a.numDraftTokens}

theorem dflashAcceptLen_eq :
    dflashAcceptLen a bx = (flatPath (a.tokenTree bx t) 0 (a.numDraftTokens - 1)).length := by
  have hsum := sum_cumprod (fun i => decide (a.candidates (bx * a.numDraftTokens + (i + 1)) =
    a.targetPredict (bx * a.numDraftTokens + i))) (List.range (a.numDraftTokens - 1))
  simp only [decide_eq_true_eq] at hsum
  rw [dflashAcceptLen, hsum, flatPath, List.range'_eq_map_range, List.takeWhile_map,
    List.length_map]
  congr 2
  funext i
  simp only [VerifyArgs.tokenTree, Function.comp_apply, Nat.zero_add, Nat.add_comm 1 i,
    Nat.add_sub_cancel]

/-- Every token is followed by the next one. -/
def IsChain {n : Nat} (t : OrderedTree n) : Prop :=
  ∀ v, v < n → t.children v = if v + 1 < n then [v + 1] else []

theorem greedyPath_eq_flatPath (hn : 0 < a.numDraftTokens) (hchain : IsChain t) :
    greedyPath a bx t = flatPath (a.tokenTree bx t) 0 (a.numDraftTokens - 1) := by
  refine (followTarget_eq_flatPath_iff _ _ 0 (by omega)).mpr fun i _ hi _ => ?_
  have hnext : (a.tokenTree bx t).nextNode i =
      (if i + 1 < a.numDraftTokens then [i + 1] else []).find? fun c =>
        (a.tokenTree bx t).token c = (a.tokenTree bx t).predicted i := by
    rw [← hchain i hi]
    rfl
  rw [FlatStep, show 0 + 1 + (a.numDraftTokens - 1) = a.numDraftTokens by omega]
  by_cases hlast : i + 1 < a.numDraftTokens
  · rw [if_pos hlast] at hnext
    by_cases hmatch : (a.tokenTree bx t).token (i + 1) = (a.tokenTree bx t).predicted i
    · rw [if_pos ⟨hlast, hmatch⟩, hnext]
      exact ⟨hlast, List.find?_cons_of_pos (decide_eq_true hmatch)⟩
    · rw [if_neg fun h => hmatch h.2, hnext]
      exact fun _ => List.find?_cons_of_neg fun h => hmatch (of_decide_eq_true h)
  · rw [if_neg fun h => hlast h.1]
    exact fun h => absurd h hlast

/-- The DFlash rule counts what the kernel accepts and emits its last token. -/
def DflashAgrees (a : VerifyArgs) (bs : Nat) (cuda : VerifyBuffers) : Prop :=
  ∃ acceptLen bonus, computeDflashAcceptLenAndBonus a bs = some (acceptLen, bonus) ∧
    ∀ bx, bx < bs → cuda.acceptTokenNum bx = acceptLen bx ∧
      cuda.predicts (cuda.acceptIndex (bx * a.numSpeculativeTokens + acceptLen bx)).toNat =
        bonus bx

theorem dflashAgrees {trees : Nat → OrderedTree a.numDraftTokens} (hbs : 0 < bs)
    (hn : 0 < a.numDraftTokens) (hT : 0 < a.numSpeculativeTokens)
    (hwf : ∀ bx, bx < bs → a.RowWellFormed bx (trees bx))
    (hfits : ∀ bx, bx < bs → (greedyPath a bx (trees bx)).length < a.numSpeculativeTokens)
    (hchain : ∀ bx, bx < bs → IsChain (trees bx)) {b c : VerifyBuffers}
    (hrun : a.launchVerify bs b = some c) : DflashAgrees a bs c := by
  obtain ⟨c', hrun', hrows⟩ := VerifyArgs.launchVerify_result hn hT hwf b
  obtain rfl : c = c' := Option.some.inj (hrun.symm.trans hrun')
  refine ⟨_, _, if_neg (by omega), fun bx hbx => ?_⟩
  have hrow := hrows bx hbx
  have hpath : a.acceptedPath bx (trees bx) =
      flatPath (a.tokenTree bx (trees bx)) 0 (a.numDraftTokens - 1) :=
    ((acceptedPath_eq_greedyPath_iff hn hT).mpr (hfits bx hbx)).trans
      (greedyPath_eq_flatPath hn (hchain bx hbx))
  rw [hpath] at hrow
  have hlen : dflashAcceptLen a bx =
      (flatPath (a.tokenTree bx (trees bx)) 0 (a.numDraftTokens - 1)).length := dflashAcceptLen_eq
  have hlast := flatPath_getD
    (Nat.le_refl (flatPath (a.tokenTree bx (trees bx)) 0 (a.numDraftTokens - 1)).length)
  refine ⟨by rw [hrow.num, hlen], ?_⟩
  rw [hlen, hrow.index _ (Nat.le_refl _), hlast, Int.toNat_natCast, Nat.zero_add]
  refine hrow.predicts _ ?_
  rw [← Nat.zero_add (flatPath _ _ _).length, ← hlast,
    List.getD_eq_getElem _ _ (Nat.lt_succ_self _)]
  exact List.getElem_mem _

end Chains

section NativeAgreement

/-- The fallback returns the tensors of the kernel, and on chains the DFlash rule agrees, exactly
if every greedy path is shorter than a row of `accept_index` and, on the fast path, every
rejected token has been stored its prediction beforehand. -/
theorem verifyTreeGreedyNative_agree_iff (a : VerifyArgs) (topk : Int) {bs : Nat} (hbs : 1 ≤ bs)
    (hn : 1 ≤ a.numDraftTokens) (hT : 1 ≤ a.numSpeculativeTokens)
    (trees : Nat → OrderedTree a.numDraftTokens)
    (hwf : ∀ bx, bx < bs → a.RowWellFormed bx (trees bx)) (b : VerifyBuffers)
    (hb : ∀ x, b.acceptIndex x = -1) :
    (∃ cuda native, a.launchVerify bs b = some cuda ∧
        verifyTreeGreedyNative a topk bs b = some native ∧ SameResult a bs cuda native ∧
        ((∀ bx, bx < bs → IsChain (trees bx)) → DflashAgrees a bs cuda)) ↔
      ∀ bx, bx < bs → (greedyPath a bx (trees bx)).length < a.numSpeculativeTokens ∧
        (FastPath a topk → ¬ DraftMatches a bx →
          b.predicts (bx * a.numDraftTokens + 1) =
            a.targetPredict (bx * a.numDraftTokens + 1)) := by
  obtain ⟨cuda, hcuda, -⟩ := VerifyArgs.launchVerify_result hn hT hwf b
  have hdflash := fun hfits hchain => dflashAgrees hbs hn hT hwf hfits hchain hcuda
  by_cases hfast : FastPath a topk
  · have hnative : verifyTreeGreedyNative a topk bs b = some (nativeFastPath a bs b) := if_pos hfast
    have hsame := nativeFastPath_same_iff hfast.1 hfast.2.1 hwf hb hcuda
    have hfits : ∀ bx, bx < bs → (greedyPath a bx (trees bx)).length < a.numSpeculativeTokens := by
      intro bx _
      have hlt := (TokenTree.followTarget_matches (t := a.tokenTree bx (trees bx))
        (a.numDraftTokens - 1) 0).length_lt hn
      have := hfast.1
      have := hfast.2.1
      rw [greedyPath]
      omega
    constructor
    · rintro ⟨cuda', native, hcuda', hnative', hagree, -⟩ bx hbx
      obtain rfl : cuda = cuda' := Option.some.inj (hcuda.symm.trans hcuda')
      obtain rfl : _ = native := Option.some.inj (hnative.symm.trans hnative')
      exact ⟨hfits bx hbx, fun _ => hsame.mp hagree bx hbx⟩
    · intro hcond
      exact ⟨cuda, _, hcuda, hnative, hsame.mpr fun bx hbx => (hcond bx hbx).2 hfast,
        hdflash hfits⟩
  · have hnative : verifyTreeGreedyNative a topk bs b =
        launch (nativeVerifyRow a) (List.range bs) b := if_neg hfast
    constructor
    · rintro ⟨-, native, -, hnative', -, -⟩ bx hbx
      rw [hnative] at hnative'
      exact ⟨fits_of_nativeLaunch hn hT hwf hnative' hbx, fun h => absurd h hfast⟩
    · intro hcond
      have hfits := fun bx hbx => (hcond bx hbx).1
      rw [hnative, nativeLaunch_eq hn hT hwf hfits, hcuda]
      exact ⟨cuda, cuda, rfl, rfl, ⟨fun _ _ => rfl, fun _ _ => rfl, fun _ _ => rfl⟩,
        hdflash hfits⟩

/-- Every token is followed by the next. -/
def lineTree : ParentTree where
  parent := Nat.pred
  parent_lt _ h := Nat.pred_lt (Nat.ne_of_gt h)

/-- One request with one draft token; the target predicts `7` at the root. -/
def singleArgs (draft : Int) : VerifyArgs where
  candidates x := [5, draft].getD x 0
  retriveIndex x := x
  retriveNextToken x := [1, -1].getD x (-1)
  retriveNextSibling _ := -1
  targetPredict x := [7, 9].getD x 0
  numSpeculativeTokens := 2
  numDraftTokens := 2

theorem singleArgs_rowWellFormed (draft : Int) :
    (singleArgs draft).RowWellFormed 0 (lineTree.ordered 2) where
  chains v hv := by
    match v, hv with
    | 0, _ => exact Chain.cons (i := 1) Chain.nil
    | 1, _ => exact Chain.nil
  index v _ := by simp [singleArgs]

theorem verifyTreeGreedyNative_agree_iff_single :
    (∃ cuda native, (singleArgs 7).launchVerify 1 ⟨fun _ => 0, fun _ => -1, fun _ => 0⟩ =
          some cuda ∧
        verifyTreeGreedyNative (singleArgs 7) 1 1 ⟨fun _ => 0, fun _ => -1, fun _ => 0⟩ =
          some native ∧
        SameResult (singleArgs 7) 1 cuda native ∧
        ((∀ bx, bx < 1 → IsChain (lineTree.ordered 2)) → DflashAgrees (singleArgs 7) 1 cuda)) ↔
      ∀ bx, bx < 1 → (greedyPath (singleArgs 7) bx (lineTree.ordered 2)).length < 2 ∧
        (FastPath (singleArgs 7) 1 → ¬ DraftMatches (singleArgs 7) bx →
          (0 : Int) = (singleArgs 7).targetPredict (bx * 2 + 1)) :=
  verifyTreeGreedyNative_agree_iff (singleArgs 7) 1 (Nat.le_refl 1) (by decide) (by decide)
    (fun _ => lineTree.ordered 2)
    (fun bx hbx => by
      obtain rfl : bx = 0 := by omega
      exact singleArgs_rowWellFormed 7)
    ⟨fun _ => 0, fun _ => -1, fun _ => 0⟩ (fun _ => rfl)

/-- A chain of two draft tokens that the target accepts, with a row of two entries. -/
def narrowArgs : VerifyArgs where
  candidates x := [5, 7, 8].getD x 0
  retriveIndex x := x
  retriveNextToken x := [1, 2, -1].getD x (-1)
  retriveNextSibling _ := -1
  targetPredict x := [7, 8, 9].getD x 0
  numSpeculativeTokens := 2
  numDraftTokens := 3

private theorem narrowArgs_rowWellFormed : narrowArgs.RowWellFormed 0 (lineTree.ordered 3) where
  chains v hv := by
    match v, hv with
    | 0, _ => exact Chain.cons (i := 1) Chain.nil
    | 1, _ => exact Chain.cons (i := 2) Chain.nil
    | 2, _ => exact Chain.nil
  index v _ := by simp [narrowArgs]

/-- The fast path stores a prediction for the rejected token `6`. The general path stores the
second accepted token of a chain behind a row of two entries, where the kernel stops. -/
theorem verifyTreeGreedyNative_disagree :
    ((singleArgs 6).RowWellFormed 0 (lineTree.ordered 2) ∧
      ∃ cuda native, (singleArgs 6).launchVerify 1 ⟨fun _ => 0, fun _ => -1, fun _ => 0⟩ =
          some cuda ∧
        verifyTreeGreedyNative (singleArgs 6) 1 1 ⟨fun _ => 0, fun _ => -1, fun _ => 0⟩ =
          some native ∧
        cuda.predicts 1 = 0 ∧ native.predicts 1 = 9 ∧ ¬ SameResult (singleArgs 6) 1 cuda native) ∧
    narrowArgs.RowWellFormed 0 (lineTree.ordered 3) ∧
      (∃ cuda, narrowArgs.launchVerify 1 ⟨fun _ => 0, fun _ => -1, fun _ => 0⟩ = some cuda ∧
        cuda.acceptTokenNum 0 = 1) ∧
      verifyTreeGreedyNative narrowArgs 1 1 ⟨fun _ => 0, fun _ => -1, fun _ => 0⟩ = none := by
  refine ⟨⟨singleArgs_rowWellFormed 6, _, _, rfl, rfl, rfl, rfl, fun hsame => ?_⟩,
    narrowArgs_rowWellFormed, ⟨_, rfl, rfl⟩, rfl⟩
  have hcell := hsame.predicts 1 (by decide)
  exact absurd hcell (by decide)

end NativeAgreement

end SpecDecode.Npu
