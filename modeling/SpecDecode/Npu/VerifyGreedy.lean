import SpecDecode.Eagle.VerifyGreedySpec
import Mathlib.Data.List.TakeWhile

/-!
# The Ascend kernel `verify_tree_greedy_kernel`

The Triton kernel reads neither `retrive_next_token` nor `retrive_next_sibling`:
it compares each candidate with the prediction at the position before it, and its
rows of `accept_index` have `num_draft_tokens` entries.

`verifyTreeGreedy_agree_iff` says on which inputs it leaves what the CUDA kernel
writes.
-/

namespace SpecDecode.Npu

open Eagle Launch

section Kernel

variable (a : VerifyArgs)

/-- Iteration `i` of the kernel's loop; the flag is `rejected`. -/
def verifyStep (reqIdx : Nat) : Walk × Bool → Nat → Walk × Bool
  | (w, true), _ => (w, true)
  | (w, false), i =>
      let draftToken := a.candidates (reqIdx * a.numDraftTokens + i)
      let targetToken := a.targetPredict (reqIdx * a.numDraftTokens + (i - 1))
      if draftToken = targetToken then
        (w.accept (reqIdx * a.numDraftTokens) targetToken
          (a.retriveIndex (reqIdx * a.numDraftTokens + i)), false)
      else (w, true)

def verifyTreeGreedyKernel (reqIdx : Nat) (b : VerifyBuffers) : VerifyBuffers :=
  let n := a.numDraftTokens
  let w := b.start (reqIdx * n) (a.retriveIndex (reqIdx * n))
  let w := ((List.range' 1 (n - 1)).foldl (verifyStep a reqIdx) (w, false)).1
  let targetToken := a.targetPredict (reqIdx * n + (w.lastAccepted - (n * reqIdx : Nat)).toNat)
  w.finish reqIdx targetToken

/-- `verify_tree_greedy`: the launch over a batch. -/
def verifyTreeGreedy (bs : Nat) (b : VerifyBuffers) : Option VerifyBuffers :=
  launch (fun reqIdx b => some (verifyTreeGreedyKernel a reqIdx b)) (List.range bs) b

end Kernel

section FlatPath

variable {n : Nat} (t : TokenTree n)

/-- The positions from `v + 1` on whose token is predicted one position earlier,
up to the first that is not. -/
def flatPath (v count : Nat) : List Nat :=
  (List.range' (v + 1) count).takeWhile fun i => t.token i = t.predicted (i - 1)

variable {t}

theorem flatPath_succ_pos {v count : Nat} (h : t.token (v + 1) = t.predicted v) :
    flatPath t v (count + 1) = (v + 1) :: flatPath t (v + 1) count := by
  simp [flatPath, List.range'_succ, h]

theorem flatPath_succ_neg {v count : Nat} (h : t.token (v + 1) ≠ t.predicted v) :
    flatPath t v (count + 1) = [] := by
  simp [flatPath, List.range'_succ, h]

theorem flatPath_eq_range' (v count : Nat) :
    flatPath t v count = List.range' (v + 1) (flatPath t v count).length := by
  induction count generalizing v with
  | zero => rfl
  | succ count ih =>
      by_cases h : t.token (v + 1) = t.predicted v
      · rw [flatPath_succ_pos h, List.length_cons, List.range'_succ, ← ih]
      · rw [flatPath_succ_neg h]
        rfl

theorem flatPath_length_le (v count : Nat) : (flatPath t v count).length ≤ count := by
  unfold flatPath
  simpa using (List.takeWhile_sublist _ (l := List.range' (v + 1) count)).length_le

theorem flatPath_getD {v count i : Nat} (hi : i ≤ (flatPath t v count).length) :
    (v :: flatPath t v count).getD i 0 = v + i := by
  cases i with
  | zero => rfl
  | succ i =>
      rw [List.getD_cons_succ, flatPath_eq_range',
        List.getD_eq_getElem _ _ (by simpa using Nat.lt_of_succ_le hi), List.getElem_range']
      omega

/-- What the tree must look like at position `i` for the flat walk to be the walk
of the tree: the next position is where the target leads, or both walks stop. -/
def FlatStep (t : TokenTree n) (limit i : Nat) : Prop :=
  if i + 1 < n ∧ t.token (i + 1) = t.predicted i then
    i + 1 < limit ∧ t.nextNode i = some (i + 1)
  else i + 1 < limit → t.nextNode i = none

/-- `FlatStep` wherever the positions up to `i` carry the predicted tokens. -/
def FlatWalk (t : TokenTree n) (limit : Nat) : Prop :=
  ∀ i, i < n → (∀ j, 0 < j → j ≤ i → t.token j = t.predicted (j - 1)) → FlatStep t limit i

/-- Following the target from `v` is the flat walk from `v` exactly when every
reached position is a `FlatStep`. -/
theorem followTarget_eq_flatPath_iff (count limit v : Nat) (hn : n = v + 1 + count) :
    t.followTarget limit v = flatPath t v count ↔
      ∀ i, v ≤ i → i < n → (∀ j, v < j → j ≤ i → t.token j = t.predicted (j - 1)) →
        FlatStep t (v + 1 + limit) i := by
  induction count generalizing limit v with
  | zero =>
      change t.followTarget limit v = [] ↔ _
      rw [TokenTree.followTarget_eq_nil_iff]
      constructor
      · intro h i hvi hin _
        obtain rfl : i = v := by omega
        rw [FlatStep, if_neg (by omega)]
        exact fun hlt => h (by omega)
      · intro h hpos
        have hv := h v (Nat.le_refl v) (by omega) (fun j _ _ => by omega)
        rw [FlatStep, if_neg (by omega)] at hv
        exact hv (by omega)
  | succ count ih =>
      by_cases hmatch : t.token (v + 1) = t.predicted v
      · rw [flatPath_succ_pos hmatch, TokenTree.followTarget_eq_cons_iff]
        constructor
        · rintro ⟨k, rfl, hnext, hrest⟩ i hvi hin hflat
          rcases Nat.eq_or_lt_of_le hvi with rfl | hlt
          · rw [FlatStep, if_pos ⟨by omega, hmatch⟩]
            exact ⟨by omega, hnext⟩
          · rw [show v + 1 + (k + 1) = v + 1 + 1 + k by omega]
            exact (ih k (v + 1) (by omega)).mp hrest i hlt hin
              fun j hj hji => hflat j (by omega) hji
        · intro h
          have hv := h v (Nat.le_refl v) (by omega) (fun j _ _ => by omega)
          rw [FlatStep, if_pos ⟨by omega, hmatch⟩] at hv
          obtain ⟨k, rfl⟩ : ∃ k, limit = k + 1 := ⟨limit - 1, by omega⟩
          refine ⟨k, rfl, hv.2, (ih k (v + 1) (by omega)).mpr fun i hvi hin hflat => ?_⟩
          rw [show v + 1 + 1 + k = v + 1 + (k + 1) by omega]
          refine h i (by omega) hin fun j hj hji => ?_
          rcases Nat.eq_or_lt_of_le (Nat.succ_le_of_lt hj) with rfl | hlt
          · exact hmatch
          · exact hflat j hlt hji
      · rw [flatPath_succ_neg hmatch, TokenTree.followTarget_eq_nil_iff]
        constructor
        · intro h i hvi hin hflat
          rcases Nat.eq_or_lt_of_le hvi with rfl | hlt
          · rw [FlatStep, if_neg (by simp [hmatch])]
            exact fun hlt => h (by omega)
          · exact absurd (hflat (v + 1) (by omega) (by omega)) hmatch
        · intro h hpos
          have hv := h v (Nat.le_refl v) (by omega) (fun j _ _ => by omega)
          rw [FlatStep, if_neg (by simp [hmatch])] at hv
          exact hv (by omega)

end FlatPath

section Agreement

variable {a : VerifyArgs} {reqIdx : Nat} {t : OrderedTree a.numDraftTokens}

@[simp] theorem foldl_verifyStep_rejected (xs : List Nat) (w : Walk) :
    xs.foldl (verifyStep a reqIdx) (w, true) = (w, true) := by
  induction xs with
  | nil => rfl
  | cons i xs ih => exact ih

theorem foldl_verifyStep (hindex : ∀ v, v < a.numDraftTokens →
      a.retriveIndex (reqIdx * a.numDraftTokens + v) = (reqIdx * a.numDraftTokens + v : Nat))
    (count v : Nat) (hcount : v + count < a.numDraftTokens) (w : Walk) :
    ((List.range' (v + 1) count).foldl (verifyStep a reqIdx) (w, false)).1 =
      Walk.acceptPath (reqIdx * a.numDraftTokens) (reqIdx * a.numDraftTokens)
        (a.tokenTree reqIdx t).predicted v (flatPath (a.tokenTree reqIdx t) v count) w := by
  induction count generalizing v w with
  | zero => rfl
  | succ count ih =>
      rw [List.range'_succ, List.foldl_cons]
      by_cases hmatch : (a.tokenTree reqIdx t).token (v + 1) = (a.tokenTree reqIdx t).predicted v
      · have hstep : verifyStep a reqIdx (w, false) (v + 1) =
            (w.accept (reqIdx * a.numDraftTokens) ((a.tokenTree reqIdx t).predicted v)
              (reqIdx * a.numDraftTokens + (v + 1) : Nat), false) := by
          rw [← hindex (v + 1) (by omega)]
          exact if_pos hmatch
        rw [hstep, flatPath_succ_pos hmatch]
        exact ih (v + 1) (by omega) _
      · have hstep : verifyStep a reqIdx (w, false) (v + 1) = (w, true) := if_neg hmatch
        rw [hstep, foldl_verifyStep_rejected, flatPath_succ_neg hmatch]
        rfl

variable (hn : 0 < a.numDraftTokens)

include hn

/-- Program `reqIdx` performs the stores of the flat path, in rows of
`num_draft_tokens` entries. -/
theorem verifyTreeGreedyKernel_eq (hwf : a.RowWellFormed reqIdx t) (b : VerifyBuffers) :
    verifyTreeGreedyKernel a reqIdx b =
      walkPath a.numDraftTokens a.numDraftTokens reqIdx (a.tokenTree reqIdx t).predicted
        (flatPath (a.tokenTree reqIdx t) 0 (a.numDraftTokens - 1)) b := by
  have hroot : a.retriveIndex (reqIdx * a.numDraftTokens) = (reqIdx * a.numDraftTokens : Nat) :=
    hwf.index 0 hn
  have hloop := foldl_verifyStep (t := t) hwf.index (a.numDraftTokens - 1) 0 (by omega)
    (b.start (reqIdx * a.numDraftTokens) (reqIdx * a.numDraftTokens : Nat))
  unfold verifyTreeGreedyKernel walkPath
  simp only [hroot]
  rw [hloop, Walk.acceptPath_lastAccepted _ 0 rfl, Nat.mul_comm a.numDraftTokens reqIdx]
  congr 1
  exact congrArg a.targetPredict (by omega)

theorem flatPath_length_lt :
    (flatPath (a.tokenTree reqIdx t) 0 (a.numDraftTokens - 1)).length < a.numDraftTokens := by
  have := flatPath_length_le (t := a.tokenTree reqIdx t) 0 (a.numDraftTokens - 1)
  omega

theorem flatPath_lt :
    ∀ v ∈ flatPath (a.tokenTree reqIdx t) 0 (a.numDraftTokens - 1), v < a.numDraftTokens := by
  intro v hv
  have hlen : (flatPath (a.tokenTree reqIdx t) 0 (a.numDraftTokens - 1)).length <
      a.numDraftTokens := flatPath_length_lt hn
  rw [flatPath_eq_range', List.mem_range'_1] at hv
  omega

variable {bs : Nat} {trees : Nat → OrderedTree a.numDraftTokens}
  (hwf : ∀ bx, bx < bs → a.RowWellFormed bx (trees bx))

include hwf

theorem verifyTreeGreedy_result (b : VerifyBuffers) :
    ∃ b', verifyTreeGreedy a bs b = some b' ∧ ∀ bx, bx < bs →
      RowResult a.numDraftTokens a.numDraftTokens bx (a.tokenTree bx (trees bx)).predicted
        (flatPath (a.tokenTree bx (trees bx)) 0 (a.numDraftTokens - 1)) b' := by
  refine launch_rowResult hn (fun _ _ => flatPath_lt hn) (fun _ _ => flatPath_length_lt hn)
    (fun bx hbx b => ⟨_, rfl, ?_⟩) b
  rw [verifyTreeGreedyKernel_eq hn (hwf bx hbx)]
  exact ⟨walkPath_result b, walkPath_effect hn (flatPath_lt hn) (flatPath_length_lt hn) b⟩

/-- Every entry of `accept_index` holds its own offset or what was there. -/
theorem verifyTreeGreedy_index {b b' : VerifyBuffers}
    (hrun : verifyTreeGreedy a bs b = some b') (x : Nat) :
    b'.acceptIndex x = x ∨ b'.acceptIndex x = b.acceptIndex x := by
  refine launch_preserves (P := fun m => m.acceptIndex x = (x : Int) ∨
    m.acceptIndex x = b.acceptIndex x)
    ?_ (.inr rfl) hrun
  intro bx hbx m m' hm hstep
  obtain rfl : verifyTreeGreedyKernel a bx m = m' := Option.some.inj hstep
  rw [verifyTreeGreedyKernel_eq hn (hwf bx (List.mem_range.mp hbx))]
  set path := flatPath (a.tokenTree bx (trees bx)) 0 (a.numDraftTokens - 1)
  by_cases hx : bx * a.numDraftTokens ≤ x ∧ x ≤ bx * a.numDraftTokens + path.length
  · left
    obtain ⟨i, rfl⟩ := Nat.exists_eq_add_of_le hx.1
    have hi : i ≤ path.length := by omega
    rw [(walkPath_result m).index i hi, flatPath_getD hi, Nat.zero_add]
  · rw [walkPath_index_frame m (by omega)]
    exact hm

omit hn hwf

/-- The Ascend result `npu` holds what the CUDA result `cuda` holds on the entries
the CUDA kernel writes: the count of each request, that many entries after the
first of its row of `accept_index`, and `predicts` at the tokens these name. -/
def Agree (a : VerifyArgs) (bs : Nat) (cuda npu : VerifyBuffers) : Prop :=
  ∀ bx, bx < bs → npu.acceptTokenNum bx = cuda.acceptTokenNum bx ∧
    ∀ i : Nat, (i : Int) ≤ cuda.acceptTokenNum bx →
      npu.acceptIndex (bx * a.numSpeculativeTokens + i) =
        cuda.acceptIndex (bx * a.numSpeculativeTokens + i) ∧
      npu.predicts (cuda.acceptIndex (bx * a.numSpeculativeTokens + i)).toNat =
        cuda.predicts (cuda.acceptIndex (bx * a.numSpeculativeTokens + i)).toNat

/-- The row condition says that the two kernels accept the same path. -/
theorem acceptedPath_eq_flatPath_iff (hn : 0 < a.numDraftTokens) (hT : 0 < a.numSpeculativeTokens) :
    a.acceptedPath reqIdx t = flatPath (a.tokenTree reqIdx t) 0 (a.numDraftTokens - 1) ↔
      FlatWalk (a.tokenTree reqIdx t) a.numSpeculativeTokens := by
  unfold VerifyArgs.acceptedPath
  rw [followTarget_eq_flatPath_iff _ _ 0 (by omega),
    show 0 + 1 + (a.numSpeculativeTokens - 1) = a.numSpeculativeTokens by omega]
  exact ⟨fun h i hi hflat => h i (Nat.zero_le i) hi hflat, fun h i _ hi hflat => h i hi hflat⟩

private theorem rowStart_eq {stride n bs bx : Nat} (h : bs ≤ 1 ∨ stride = n) (hbx : bx < bs) :
    bx * stride = bx * n := by
  rcases h with h | rfl
  · obtain rfl : bx = 0 := by omega
    simp
  · rfl

/-- The Ascend kernel leaves what the CUDA kernel writes exactly when rows of
`accept_index` start where it thinks they do and every request's tree leads the
target along the flat order of its tokens. -/
theorem verifyTreeGreedy_agree_iff (a : VerifyArgs) {bs : Nat} (hn : 1 ≤ a.numDraftTokens)
    (hT : 1 ≤ a.numSpeculativeTokens) (trees : Nat → OrderedTree a.numDraftTokens)
    (hwf : ∀ bx, bx < bs → a.RowWellFormed bx (trees bx)) (b : VerifyBuffers)
    (hb : ∀ x, b.acceptIndex x = -1) :
    (∃ cuda npu, a.launchVerify bs b = some cuda ∧ verifyTreeGreedy a bs b = some npu ∧
        Agree a bs cuda npu) ↔
      (bs ≤ 1 ∨ a.numSpeculativeTokens = a.numDraftTokens) ∧
        ∀ bx, bx < bs → FlatWalk (a.tokenTree bx (trees bx)) a.numSpeculativeTokens := by
  obtain ⟨cuda, hcuda, hcrows⟩ := VerifyArgs.launchVerify_result hn hT hwf b
  obtain ⟨npu, hnpu, hnrows⟩ := verifyTreeGreedy_result hn hwf b
  constructor
  · rintro ⟨cuda', npu', hcuda', hnpu', hagree⟩
    obtain rfl : cuda' = cuda := Option.some.inj (hcuda'.symm.trans hcuda)
    obtain rfl : npu' = npu := Option.some.inj (hnpu'.symm.trans hnpu)
    -- An entry the CUDA kernel writes is never `-1`, so it must be its own offset.
    have hoffset : ∀ bx, bx < bs → ∀ i, i ≤ (a.acceptedPath bx (trees bx)).length →
        bx * a.numDraftTokens + (0 :: a.acceptedPath bx (trees bx)).getD i 0 =
          bx * a.numSpeculativeTokens + i := by
      intro bx hbx i hi
      have hentry := ((hagree bx hbx).2 i (by rw [(hcrows bx hbx).num]; exact_mod_cast hi)).1
      rw [(hcrows bx hbx).index i hi] at hentry
      rcases verifyTreeGreedy_index hn hwf hnpu (bx * a.numSpeculativeTokens + i) with h | h
      · rw [hentry] at h
        exact_mod_cast h
      · rw [hentry, hb] at h
        omega
    have hstride : bs ≤ 1 ∨ a.numSpeculativeTokens = a.numDraftTokens := by
      rcases Nat.lt_or_ge 1 bs with hlt | hge
      · have := hoffset 1 hlt 0 (Nat.zero_le _)
        simp at this
        exact .inr this.symm
      · exact .inl hge
    refine ⟨hstride, fun bx hbx => (acceptedPath_eq_flatPath_iff hn hT).mp ?_⟩
    have hlen : (a.acceptedPath bx (trees bx)).length =
        (flatPath (a.tokenTree bx (trees bx)) 0 (a.numDraftTokens - 1)).length := by
      have := (hagree bx hbx).1
      rw [(hcrows bx hbx).num, (hnrows bx hbx).num] at this
      exact_mod_cast this.symm
    refine List.ext_getElem hlen fun i hi hi' => ?_
    have hacc := hoffset bx hbx (i + 1) hi
    have hflat := flatPath_getD (t := a.tokenTree bx (trees bx)) (v := 0) (i := i + 1) hi'
    rw [rowStart_eq hstride hbx, List.getD_cons_succ, List.getD_eq_getElem _ _ hi] at hacc
    rw [List.getD_cons_succ, List.getD_eq_getElem _ _ hi'] at hflat
    omega
  · rintro ⟨hstride, hflat⟩
    refine ⟨cuda, npu, hcuda, hnpu, fun bx hbx => ?_⟩
    have hpath := (acceptedPath_eq_flatPath_iff hn hT).mpr (hflat bx hbx)
    have hc := hcrows bx hbx
    have hr := hnrows bx hbx
    rw [← hpath] at hr
    refine ⟨by rw [hr.num, hc.num], fun i hi => ?_⟩
    have hi : i ≤ (a.acceptedPath bx (trees bx)).length := by
      rw [hc.num] at hi
      exact_mod_cast hi
    have hmem : (0 :: a.acceptedPath bx (trees bx)).getD i 0 ∈ 0 ::
        a.acceptedPath bx (trees bx) := by
      rw [List.getD_eq_getElem _ _ (by simpa [Nat.lt_succ_iff] using hi)]
      exact List.getElem_mem _
    rw [hc.index i hi, Int.toNat_natCast, hr.predicts _ hmem, hc.predicts _ hmem,
      rowStart_eq hstride hbx, hr.index i hi]
    exact ⟨rfl, rfl⟩

/-- Every token hangs off the root. -/
def starTree : ParentTree where
  parent _ := 0
  parent_lt _ h := h

/-- One request with two drafted children of the root; the target predicts the
second one. -/
def starArgs : VerifyArgs where
  candidates x := [5, 6, 7].getD x 0
  retriveIndex x := x
  retriveNextToken x := [1, -1, -1].getD x (-1)
  retriveNextSibling x := [-1, 2, -1].getD x (-1)
  targetPredict x := [7, 8, 9].getD x 0
  numSpeculativeTokens := 2
  numDraftTokens := 3

theorem starArgs_rowWellFormed : starArgs.RowWellFormed 0 (starTree.ordered 3) where
  chains v hv := by
    have hv : v = 0 ∨ v = 1 ∨ v = 2 := by
      change v < 3 at hv
      omega
    rcases hv with rfl | rfl | rfl
    · exact Chain.cons (i := 1) (Chain.cons (i := 2) Chain.nil)
    · exact Chain.nil
    · exact Chain.nil
  index v _ := by simp [starArgs]

/-- Two requests with one drafted token each; the target predicts that of the first. -/
def twoArgs : VerifyArgs where
  candidates x := [5, 6, 5, 6].getD x 0
  retriveIndex x := x
  retriveNextToken x := [1, -1, 1, -1].getD x (-1)
  retriveNextSibling _ := -1
  targetPredict x := [6, 7, 8, 9].getD x 0
  numSpeculativeTokens := 2
  numDraftTokens := 2

private theorem twoArgs_rowWellFormed {bx : Nat} (hbx : bx < 2) :
    twoArgs.RowWellFormed bx (starTree.ordered 2) where
  chains v hv := by
    match bx, hbx, v, hv with
    | 0, _, 0, _ => exact Chain.cons (i := 1) Chain.nil
    | 0, _, 1, _ => exact Chain.nil
    | 1, _, 0, _ => exact Chain.cons (i := 1) Chain.nil
    | 1, _, 1, _ => exact Chain.nil
  index v _ := by simp [twoArgs]

theorem verifyTreeGreedy_agree_two :
    ∃ cuda npu, twoArgs.launchVerify 2 ⟨fun _ => 0, fun _ => -1, fun _ => 0⟩ = some cuda ∧
      verifyTreeGreedy twoArgs 2 ⟨fun _ => 0, fun _ => -1, fun _ => 0⟩ = some npu ∧
      Agree twoArgs 2 cuda npu := by
  refine (verifyTreeGreedy_agree_iff twoArgs (by decide) (by decide) (fun _ => starTree.ordered 2)
    (fun bx hbx => twoArgs_rowWellFormed hbx) _ fun _ => rfl).mpr
      ⟨.inr rfl, fun bx hbx i hi _ => ?_⟩
  match bx, hbx, i, hi with
  | 0, _, 0, _ => exact ⟨by decide, by decide⟩
  | 0, _, 1, _ => exact fun hlt => absurd hlt (by decide)
  | 1, _, 0, _ => exact fun _ => by decide
  | 1, _, 1, _ => exact fun hlt => absurd hlt (by decide)

/-- The CUDA kernel accepts the second child of the root, the Ascend kernel
compares only the first one and accepts nothing. -/
theorem verifyTreeGreedy_disagree_star :
    starArgs.RowWellFormed 0 (starTree.ordered 3) ∧
    ∃ cuda npu, starArgs.launchVerify 1 ⟨fun _ => 0, fun _ => -1, fun _ => 0⟩ = some cuda ∧
      verifyTreeGreedy starArgs 1 ⟨fun _ => 0, fun _ => -1, fun _ => 0⟩ = some npu ∧
      cuda.acceptTokenNum 0 = 1 ∧ npu.acceptTokenNum 0 = 0 ∧ ¬ Agree starArgs 1 cuda npu := by
  refine ⟨starArgs_rowWellFormed, _, _, rfl, rfl, rfl, rfl, fun h => ?_⟩
  have hnum := (h 0 (by decide)).1
  exact absurd hnum (by decide)

end Agreement

end SpecDecode.Npu
