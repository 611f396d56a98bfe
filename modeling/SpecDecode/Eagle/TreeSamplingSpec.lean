import SpecDecode.Eagle.SampleLaw
import SpecDecode.Eagle.TreeSampling
import SpecDecode.Eagle.VerifyGreedySpec

/-!
# What `TreeSpeculativeSamplingTargetOnly` emits

The kernel walks the path that its coins accept (`walkTree_spec`) and marks the rejected tokens in
the rows of `draft_probs` on the way, which start with zeros. The last token is the one that the
final coin reaches in what is left (`finalSample_eq`).
-/

namespace SpecDecode.Eagle

open Function Buffer Launch

variable {K : Type}

namespace SampleArgs

section Rows

variable (a : SampleArgs K)

/-- Row `bx` encodes the tree: sibling lists spell its children in order, `retrive_index` numbers
the tokens of the batch, and the candidates are tokens of the vocabulary. -/
structure RowWellFormed (bx : Nat) (t : OrderedTree a.numDraftTokens) : Prop where
  chains : ∀ v, v < a.numDraftTokens →
    Chain (row a.retriveNextSibling (bx * a.numDraftTokens))
      (a.retriveNextToken (bx * a.numDraftTokens + v)) (t.children v)
  index : ∀ v, v < a.numDraftTokens →
    a.retriveIndex (bx * a.numDraftTokens + v) = (bx * a.numDraftTokens + v : Nat)
  token_nonneg : ∀ v, v < a.numDraftTokens → 0 ≤ a.candidates (bx * a.numDraftTokens + v)
  token_lt : ∀ v, v < a.numDraftTokens →
    (a.candidates (bx * a.numDraftTokens + v)).toNat < a.d

/-- Where the row of a node starts in `target_probs` and `draft_probs`. The kernel has it in a
`uint32_t`, so all rows of the batch together have fewer than `2 ^ 32` cells. -/
def offset (bx v : Nat) : Nat := (bx * a.numDraftTokens + v) * a.d

/-- The tree of row `bx` with its candidates and the rows of the target. -/
def sampleTree (bx : Nat) (t : OrderedTree a.numDraftTokens) :
    SampleTree a.numDraftTokens K :=
  { t with
    token := fun v => (a.candidates (bx * a.numDraftTokens + v)).toNat
    prob := fun v x => a.targetProbs (a.offset bx v + x)
    vocab := a.d
    thresholdSingle := a.thresholdSingle
    thresholdAcc := a.thresholdAcc }

/-- The coins of the nodes of row `bx`. -/
def coins (bx v : Nat) : K := a.uniformSamples (bx * a.numDraftTokens + v)

variable {a} {bx : Nat} {t : OrderedTree a.numDraftTokens}

theorem offset_eq (bx v : Nat) : a.offset bx v = bx * (a.numDraftTokens * a.d) + v * a.d := by
  rw [offset, Nat.add_mul, Nat.mul_assoc]

theorem offset_ne {v y x x' : Nat} (hx : x < a.d) (hx' : x' < a.d) (hne : y ≠ v) :
    a.offset bx y + x ≠ a.offset bx v + x' := by
  have hout := window_outside hx' (a := bx * a.numDraftTokens + y) (b := bx * a.numDraftTokens + v)
    (by omega)
  simp only [offset]
  omega

end Rows

section Walk

variable [Field K] [LinearOrder K] {a : SampleArgs K} {bx : Nat} {t : OrderedTree a.numDraftTokens}

/-- The sibling loop accepts the child that the coin reaches. On the way it marks tokens of the row
that it reads; where no child is accepted, it has marked them all. -/
theorem scanSiblings_spec (hwf : a.RowWellFormed bx t) {v fuel : Nat} {curIndex : Int}
    {xs : List Nat} (hchain : Chain (row a.retriveNextSibling (bx * a.numDraftTokens)) curIndex xs)
    (hfuel : xs.length < fuel) (hxs : ∀ c ∈ xs, c < a.numDraftTokens) {w : SampleWalk K}
    (hw : w.curProbOffset = a.offset bx v) :
    ∃ probAcc draftProbs,
      (∀ y, (∀ x, x < a.d → y ≠ a.offset bx v + x) → draftProbs y = w.draftProbs y) ∧
      match (a.sampleTree bx t).acceptFrom w.coin v w.probAcc xs with
      | some c => a.scanSiblings bx fuel curIndex w = some (((c : Nat) : Int), a.acceptNode bx c
          (a.candidates (bx * a.numDraftTokens + c)) { w with draftProbs := draftProbs })
      | none => a.scanSiblings bx fuel curIndex w =
          some (-1, { w with probAcc := probAcc, draftProbs := draftProbs }) ∧
          ∀ x, draftProbs (a.offset bx v + x) = if x ∈ xs.map (a.sampleTree bx t).token then
            (a.sampleTree bx t).prob v x else w.draftProbs (a.offset bx v + x) := by
  induction hchain generalizing fuel w with
  | nil =>
      obtain ⟨k, rfl⟩ := Nat.exists_eq_succ_of_ne_zero (Nat.ne_zero_of_lt hfuel)
      refine ⟨w.probAcc, w.draftProbs, fun y _ => rfl, ?_⟩
      simp [SampleTree.acceptFrom, scanSiblings]
  | @cons c xs rest ih =>
      obtain ⟨k, rfl⟩ := Nat.exists_eq_succ_of_ne_zero (Nat.ne_zero_of_lt hfuel)
      have hne : (c : Int) ≠ -1 := by omega
      have hc := hxs c List.mem_cons_self
      have hprob : a.targetProbs (w.curProbOffset +
          (a.candidates (bx * a.numDraftTokens + c)).toNat) =
          (a.sampleTree bx t).prob v ((a.sampleTree bx t).token c) := by rw [hw]; rfl
      rw [SampleTree.acceptFrom, scanSiblings, if_neg hne]
      simp only [Int.toNat_natCast, hprob]
      by_cases haccept : w.coin ≤ (w.probAcc + (a.sampleTree bx t).prob v
          ((a.sampleTree bx t).token c)) / (a.sampleTree bx t).thresholdAcc ∨
          (a.sampleTree bx t).thresholdSingle ≤
            (a.sampleTree bx t).prob v ((a.sampleTree bx t).token c)
      · refine ⟨w.probAcc, w.draftProbs, fun y _ => rfl, ?_⟩
        rw [if_pos haccept]
        exact if_pos haccept
      · obtain ⟨probAcc, draftProbs, hframe, hscan⟩ := ih (Nat.lt_of_succ_lt_succ hfuel)
          (fun d hd => hxs d (List.mem_cons_of_mem _ hd))
          (w := { w with
            probAcc := w.probAcc + (a.sampleTree bx t).prob v ((a.sampleTree bx t).token c)
            draftProbs := update w.draftProbs
              (w.curProbOffset + (a.candidates (bx * a.numDraftTokens + c)).toNat)
              ((a.sampleTree bx t).prob v ((a.sampleTree bx t).token c)) }) hw
        refine ⟨probAcc, draftProbs, fun y hy => ?_, ?_⟩
        · rw [hframe y hy, hw]
          exact update_of_ne (hy _ (hwf.token_lt c hc)) _ _
        · rw [if_neg haccept]
          cases hnext : (a.sampleTree bx t).acceptFrom w.coin v
              (w.probAcc + (a.sampleTree bx t).prob v ((a.sampleTree bx t).token c)) xs with
          | some d =>
              simp only [hnext] at hscan
              exact (if_neg haccept).trans hscan
          | none =>
              simp only [hnext] at hscan
              refine ⟨(if_neg haccept).trans hscan.1, fun x => ?_⟩
              rw [hscan.2 x, List.map_cons, hw]
              by_cases hmem : x ∈ xs.map (a.sampleTree bx t).token
              · rw [if_pos hmem, if_pos (List.mem_cons_of_mem _ hmem)]
              · rw [if_neg hmem]
                by_cases heq : x = (a.sampleTree bx t).token c
                · rw [if_pos (heq ▸ List.mem_cons_self), heq]
                  exact update_self _ _ _
                · rw [if_neg fun hin => (List.mem_cons.mp hin).elim heq hmem]
                  refine update_of_ne (fun hsame => heq ?_) _ _
                  exact Nat.add_left_cancel hsame

/-- The variables of a walk that has come to node `v`: the rows of `draft_probs` below are zero. -/
structure Arrived (bx : Nat) (t : OrderedTree a.numDraftTokens) (v : Nat) (w : SampleWalk K) :
    Prop where
  lastAccepted : w.lastAccepted = (bx * a.numDraftTokens + v : Nat)
  probAcc : w.probAcc = 0
  curProbOffset : w.curProbOffset = a.offset bx v
  coin : w.coin = a.coins bx v
  clean : ∀ y, t.Below v y → ∀ x, x < a.d → w.draftProbs (a.offset bx y + x) = 0

structure Ended (bx : Nat) (t : OrderedTree a.numDraftTokens) (count v : Nat) (path : List Nat)
    (w w' : SampleWalk K) : Prop where
  numAccepted : w'.numAccepted = w.numAccepted + path.length
  toWalk : ∀ predicted : Nat → Int,
    (∀ u c, [u, c] <:+: v :: path → a.candidates (bx * a.numDraftTokens + c) = predicted u) →
    w'.toWalk = Walk.acceptPath (bx * a.numDraftTokens) (bx * a.numSpeculativeTokens) predicted v
      path w.toWalk
  curProbOffset : w'.curProbOffset =
    a.offset bx ((v :: path).getLast (List.cons_ne_nil _ _))
  marked : path.length < count → ∀ x, x < a.d →
    w'.draftProbs (a.offset bx ((v :: path).getLast (List.cons_ne_nil _ _)) + x) =
      if x ∈ (a.sampleTree bx t).tokens ((v :: path).getLast (List.cons_ne_nil _ _)) then
        (a.sampleTree bx t).prob ((v :: path).getLast (List.cons_ne_nil _ _)) x else 0
  frame : ∀ y, (∀ u x, u < a.numDraftTokens → x < a.d → y ≠ a.offset bx u + x) →
    w'.draftProbs y = w.draftProbs y

theorem walkTree_spec (hwf : a.RowWellFormed bx t) (count : Nat) {v : Nat}
    (hv : v < a.numDraftTokens) {w : SampleWalk K} (hw : Arrived bx t v w) :
    ∃ w', a.walkTree bx count v w = some w' ∧
      Ended bx t count v ((a.sampleTree bx t).samplePath (a.coins bx) count v) w w' := by
  induction count generalizing v w with
  | zero =>
      exact ⟨w, rfl, rfl, fun _ _ => rfl, hw.curProbOffset, fun h => absurd h (Nat.lt_irrefl 0),
        fun _ _ => rfl⟩
  | succ count ih =>
      obtain ⟨probAcc, draftProbs, hframe, hscan⟩ := scanSiblings_spec hwf (hwf.chains v hv)
        (Nat.lt_succ_iff.mpr (t.children_length_le v)) (fun c hc => t.child_lt hc) hw.curProbOffset
      rw [hw.probAcc, hw.coin] at hscan
      rw [walkTree, SampleTree.samplePath, Int.toNat_natCast]
      cases hnext : (a.sampleTree bx t).nextNode (a.coins bx v) v with
      | some c =>
          have hc : (a.sampleTree bx t).acceptFrom (a.coins bx v) v 0 (t.children v) = some c :=
            hnext
          simp only [hc] at hscan
          have hmem : c ∈ t.children v := SampleTree.acceptFrom_mem hc
          have hlt : c < a.numDraftTokens := t.child_lt hmem
          have hne : (c : Int) ≠ -1 := by omega
          have harrived : Arrived bx t c (a.acceptNode bx c
              (a.candidates (bx * a.numDraftTokens + c)) { w with draftProbs := draftProbs }) := by
            refine ⟨?_, rfl, ?_, ?_, fun y hy x hx => ?_⟩
            · exact (congrArg a.retriveIndex (by rw [Int.toNat_natCast])).trans (hwf.index c hlt)
            · simp only [acceptNode, Int.toNat_natCast, offset]
            · simp only [acceptNode, Int.toNat_natCast, coins]
            · have hyv : y ≠ v := fun heq => OrderedTree.not_below_parent hmem (heq ▸ hy)
              rw [← hw.clean y (.head hmem hy) x hx]
              exact hframe _ fun x' hx' => offset_ne hx hx' hyv
          obtain ⟨w', hrun, hended⟩ := ih hlt harrived
          refine ⟨w', ?_, ?_, fun predicted hpredicted => ?_, ?_, fun hless => ?_, fun y hy => ?_⟩
          · rw [hscan]
            exact (if_neg hne).trans hrun
          · rw [hended.numAccepted, List.length_cons]
            exact Nat.add_right_comm _ _ _ |>.trans (Nat.add_assoc _ _ _)
          · rw [hended.toWalk predicted fun u d hsegment => hpredicted u d
              (hsegment.trans (List.suffix_cons v _).isInfix), Walk.acceptPath,
              ← hpredicted v c ⟨[], _, rfl⟩]
            simp only [acceptNode, Int.toNat_natCast, hwf.index c hlt]
          · rw [hended.curProbOffset, List.getLast_cons (List.cons_ne_nil c _)]
          · rw [List.getLast_cons (List.cons_ne_nil c _)]
            exact hended.marked (Nat.lt_of_succ_lt_succ hless)
          · rw [hended.frame y hy]
            exact hframe y fun x hx => hy v x hv hx
      | none =>
          have hnone : (a.sampleTree bx t).acceptFrom (a.coins bx v) v 0 (t.children v) = none :=
            hnext
          simp only [hnone] at hscan
          refine ⟨{ w with probAcc := probAcc, coin := a.coins bx v, draftProbs := draftProbs }, ?_,
            rfl, fun _ _ => rfl, hw.curProbOffset, fun _ x hx => ?_, fun y hy => ?_⟩
          · rw [hscan.1]
            exact if_pos rfl
          · refine (hscan.2 x).trans ?_
            rw [hw.clean v .refl x hx]
            rfl
          · exact hframe y fun x hx => hy v x hv hx

end Walk

end SampleArgs

section Final

variable [Field K] [LinearOrder K]

/-- What `DeviceSamplingFromProb` is documented to do on weights that are not negative, of which
there are none behind the vocabulary: it adds up the chunk and finds the first token at which the
running sum passes `u`. -/
structure Inverts (sampler : DeviceSampler K) : Prop where
  aggregate : ∀ i d u probs aggregate temp, (∀ p ∈ probs, 0 ≤ p) →
    (sampler i d u probs aggregate temp).1 = aggregate + probs.sum
  sampledId : ∀ i d u probs aggregate temp, (∀ p ∈ probs, 0 ≤ p) →
    (∀ k, d ≤ i * probs.length + k → probs.getD k 0 = 0) → aggregate ≤ u →
    (sampler i d u probs aggregate temp).2.sampledId =
      (firstReach (u < ·) aggregate probs).elim temp.sampledId
        fun k => min temp.sampledId (i * probs.length + k)

/-- A search that starts below the coin stops at a positive weight. -/
private theorem firstReach_pos [IsStrictOrderedRing K] {u acc : K} {probs : List K} {k : Nat}
    (hprobs : ∀ p ∈ probs, 0 ≤ p) (hacc : acc ≤ u) (h : firstReach (u < ·) acc probs = some k) :
    u < acc + (probs.take (k + 1)).sum ∧ acc + (probs.take k).sum ≤ u ∧ 0 < probs.getD k 0 := by
  obtain ⟨hlt, hnext, hbefore⟩ :=
    (firstReach_eq_some_iff (fun a b hab ha => ha.trans_le hab) hprobs hacc.not_gt).mp h
  rw [not_lt] at hbefore
  refine ⟨hnext, hbefore, ?_⟩
  rw [List.sum_take_succ _ _ hlt, ← add_assoc] at hnext
  rw [List.getD_eq_getElem _ _ hlt]
  exact pos_of_lt_add_right (hbefore.trans_lt hnext)

theorem searchChunk_inverts [IsStrictOrderedRing K] : Inverts (searchChunk : DeviceSampler K) where
  aggregate i d u probs aggregate temp _ := rfl
  sampledId i d u probs aggregate temp hprobs hbehind hacc := by
    have hfind : ((List.range probs.length).filter fun k =>
        decide (0 < probs.getD k 0 ∧ i * probs.length + k < d)).find?
          (fun k => decide (u < aggregate + (probs.take (k + 1)).sum)) =
        firstReach (u < ·) aggregate probs := by
      rw [List.find?_filter]
      cases hreach : firstReach (u < ·) aggregate probs with
      | none =>
          rw [firstReach_eq_none_iff (fun a b hab ha => ha.trans_le hab) hprobs hacc.not_gt,
            not_lt] at hreach
          rw [List.find?_eq_none]
          intro k _ hk
          simp only [decide_eq_true_eq] at hk
          have hle : (probs.take (k + 1)).sum ≤ probs.sum :=
            (List.take_sublist _ _).sum_le_sum hprobs
          exact absurd hk.2 (not_lt.mpr ((add_le_add_right hle aggregate).trans hreach))
      | some k =>
          obtain ⟨hnext, hbefore, hpos⟩ := firstReach_pos hprobs hacc hreach
          rw [List.find?_range_eq_some]
          refine ⟨?_, List.mem_range.mpr (firstReach_lt hreach), fun j hj => ?_⟩
          · have hlt : i * probs.length + k < d := by
              by_contra hge
              exact hpos.ne' (hbehind k (not_lt.mp hge))
            simp only [decide_eq_true_eq]
            exact ⟨⟨hpos, hlt⟩, hnext⟩
          · have hle : (probs.take (j + 1)).sum ≤ (probs.take k).sum :=
              (List.take_prefix_take_left hj).sublist.sum_le_sum
                fun p hp => hprobs p (List.mem_of_mem_take hp)
            simp only [Bool.not_eq_true', decide_eq_false_iff_not]
            exact fun hand => absurd (of_decide_eq_true hand.2)
              (not_lt.mpr ((add_le_add_right hle aggregate).trans hbefore))
    simp only [searchChunk, hfind]

namespace SampleArgs

variable {a : SampleArgs K} {w : SampleWalk K} {sampler : DeviceSampler K} {u : K}

/-- The weights that the threads load, with zeros behind the vocabulary. -/
def weights (a : SampleArgs K) (w : SampleWalk K) (x : Nat) : K :=
  if x < a.d then a.reluQMinusP w x else 0

theorem weights_nonneg (x : Nat) : 0 ≤ a.weights w x := by
  rw [weights]
  split
  · exact le_max_right _ _
  · exact le_rfl

omit [Field K] [LinearOrder K] in
theorem vecSize_pos (hd : 0 < a.d) : 0 < a.vecSize := Nat.gcd_pos_of_pos_right 4 hd

def chunkSize (a : SampleArgs K) : Nat := blockThreads * a.vecSize

omit [Field K] [LinearOrder K] in
theorem chunkSize_pos (hd : 0 < a.d) : 0 < a.chunkSize := Nat.mul_pos (by decide) (vecSize_pos hd)

/-- A chunk is a stretch of the weights: the vector size divides that of the vocabulary. -/
theorem chunk_eq (hd : 0 < a.d) (i : Nat) :
    a.chunk w i = (List.range' (i * a.chunkSize) a.chunkSize).map (a.weights w) := by
  have hpos := vecSize_pos hd
  rw [chunk, List.range'_eq_map_range, List.map_map]
  refine List.map_congr_left fun k _ => ?_
  have hload : (i * blockThreads + k / a.vecSize) * a.vecSize < a.d ↔
      i * a.chunkSize + k < a.d := by
    obtain ⟨m, hm⟩ : a.vecSize ∣ a.d := Nat.gcd_dvd_right 4 a.d
    have hsplit : i * a.chunkSize + k = (i * blockThreads) * a.vecSize + k := by
      rw [chunkSize, Nat.mul_assoc]
    have hdiv : (i * blockThreads * a.vecSize + k) / a.vecSize =
        i * blockThreads + k / a.vecSize := by
      rw [Nat.mul_comm, Nat.mul_add_div hpos]
    rw [hsplit, hm, Nat.mul_comm a.vecSize m, Nat.mul_lt_mul_right hpos, ← hdiv,
      Nat.div_lt_iff_lt_mul hpos]
  simp only [Function.comp_apply, weights, hload, chunkSize]

theorem chunks_split (j rounds size : Nat) : List.range' (j * size) ((rounds + 1) * size) =
    List.range' (j * size) size ++ List.range' ((j + 1) * size) (rounds * size) := by
  rw [Nat.add_mul, Nat.one_mul, Nat.add_comm, Nat.add_mul, Nat.one_mul, List.range'_append_1]

/-- The loop stops in the chunk of the first weight at which the running sum passes the coin. -/
theorem sampleLoop_spec [IsStrictOrderedRing K] (hs : Inverts sampler) (hd : 0 < a.d)
    (rounds : Nat) {j k : Nat}
    {aggregate : K} {temp : SampleTemp} (hacc : aggregate ≤ u) (htemp : temp.sampledId = a.d)
    (hreach : firstReach (u < ·) aggregate
      ((List.range' (j * a.chunkSize) (rounds * a.chunkSize)).map (a.weights w)) = some k)
    (hk : j * a.chunkSize + k < a.d) :
    (a.sampleLoop sampler w u (List.range' j rounds) aggregate temp).sampledId =
      j * a.chunkSize + k := by
  induction rounds generalizing j k aggregate temp with
  | zero =>
      rw [Nat.zero_mul] at hreach
      cases hreach
  | succ rounds ih =>
      have hchunk := chunk_eq (w := w) hd j
      have hlength : (a.chunk w j).length = a.chunkSize := by
        rw [hchunk, List.length_map, List.length_range']
      have hnonneg : ∀ p ∈ a.chunk w j, 0 ≤ p := by
        intro p hp
        rw [hchunk] at hp
        obtain ⟨x, -, rfl⟩ := List.mem_map.mp hp
        exact weights_nonneg x
      have hbehind : ∀ i, a.d ≤ j * (a.chunk w j).length + i → (a.chunk w j).getD i 0 = 0 := by
        intro i hi
        rw [hlength] at hi
        rw [hchunk, List.getD_eq_getElem?_getD, List.getElem?_map]
        by_cases hlt : i < a.chunkSize
        · rw [List.getElem?_range' hlt, Option.map_some, Option.getD_some, Nat.one_mul, weights,
            if_neg (not_lt.mpr hi)]
        · rw [List.getElem?_eq_none (by rw [List.length_range']; exact not_lt.mp hlt)]
          rfl
      have haggregate := hs.aggregate j a.d u (a.chunk w j) aggregate temp hnonneg
      have hsampled := hs.sampledId j a.d u (a.chunk w j) aggregate temp hnonneg hbehind hacc
      rw [chunks_split, List.map_append, ← hchunk, firstReach_append, hlength] at hreach
      rw [List.range'_succ, sampleLoop]
      simp only [haggregate]
      have hstart : ¬ u < aggregate := not_lt.mpr hacc
      cases hfirst : firstReach (u < ·) aggregate (a.chunk w j) with
      | some i =>
          rw [hfirst, Option.some_or, Option.some.injEq] at hreach
          subst hreach
          have hstop : u < aggregate + (a.chunk w j).sum := by
            by_contra hgo
            have hnone := (firstReach_eq_none_iff (fun x y hxy hx => hx.trans_le hxy) hnonneg
              hstart).mpr hgo
            rw [hfirst] at hnone
            cases hnone
          rw [if_pos hstop, hsampled, hfirst, Option.elim_some, htemp, hlength,
            min_eq_right hk.le]
      | none =>
          have hgo := (firstReach_eq_none_iff (fun x y hxy hx => hx.trans_le hxy) hnonneg
            hstart).mp hfirst
          rw [hfirst, Option.none_or] at hreach
          obtain ⟨i, hi, rfl⟩ := Option.map_eq_some_iff.mp hreach
          rw [hfirst, Option.elim_none, htemp] at hsampled
          have hnext : (j + 1) * a.chunkSize + i = j * a.chunkSize + (i + a.chunkSize) := by
            rw [Nat.add_mul, Nat.one_mul]
            omega
          rw [if_neg hgo, ih (not_lt.mp hgo) hsampled hi (hnext ▸ hk), hnext]

theorem sum_chunks (hd : 0 < a.d) (rounds j : Nat) :
    ((List.range' j rounds).map fun i => (a.chunk w i).sum).sum =
      ((List.range' (j * a.chunkSize) (rounds * a.chunkSize)).map (a.weights w)).sum := by
  induction rounds generalizing j with
  | zero => simp
  | succ rounds ih =>
      rw [List.range'_succ, List.map_cons, List.sum_cons, ih, chunk_eq hd, chunks_split,
        List.map_append, List.sum_append]

theorem weights_split (hd : 0 < a.d) :
    ∃ m, (List.range' 0 (a.numChunks * a.chunkSize)).map (a.weights w) =
      (List.range a.d).map (a.reluQMinusP w) ++ List.replicate m 0 := by
  have hle : a.d ≤ a.numChunks * a.chunkSize := by
    have hlt := Nat.lt_div_mul_add (chunkSize_pos hd) (a := a.d + a.chunkSize - 1)
    have hpos := chunkSize_pos hd
    change a.d ≤ (a.d + a.chunkSize - 1) / a.chunkSize * a.chunkSize
    omega
  refine ⟨a.numChunks * a.chunkSize - a.d, ?_⟩
  have hsplit : List.range' 0 (a.numChunks * a.chunkSize) =
      List.range a.d ++ List.range' a.d (a.numChunks * a.chunkSize - a.d) := by
    rw [List.range_eq_range', ← Nat.add_sub_cancel' hle, ← List.range'_append_1, Nat.zero_add,
      Nat.add_sub_cancel_left]
  rw [hsplit, List.map_append]
  congr 1
  · exact List.map_congr_left fun x hx => if_pos (List.mem_range.mp hx)
  · rw [List.eq_replicate_iff, List.length_map, List.length_range']
    refine ⟨rfl, fun p hp => ?_⟩
    obtain ⟨x, hx, rfl⟩ := List.mem_map.mp hp
    exact if_neg (not_lt.mpr (List.mem_range'_1.mp hx).1)

/-- The final sampling draws the token at which the running sum passes the scaled coin. -/
theorem finalSample_eq [IsStrictOrderedRing K] (hs : Inverts sampler) (hd : 0 < a.d) {bx x : Nat}
    {probs : List K} (hprobs : (List.range a.d).map (a.reluQMinusP w) = probs)
    (hcoin : 0 ≤ a.uniformSamplesForFinalSampling bx * probs.sum)
    (hreach : firstReach (a.uniformSamplesForFinalSampling bx * probs.sum < ·) 0 probs = some x) :
    a.finalSample sampler bx w = x := by
  obtain ⟨m, hsplit⟩ := weights_split (w := w) hd
  rw [hprobs] at hsplit
  have hsum : a.sumRelu w = probs.sum := by
    have hchunks := sum_chunks (w := w) hd a.numChunks 0
    rw [Nat.zero_mul, hsplit, List.sum_append, List.sum_replicate, smul_zero, add_zero] at hchunks
    rw [sumRelu, ← List.sum_eq_foldl, List.range_eq_range', hchunks]
  have hlt : x < a.d := by
    have hlt := firstReach_lt hreach
    rwa [← hprobs, List.length_map, List.length_range] at hlt
  have hloop := sampleLoop_spec (w := w) (j := 0) (k := x) hs hd a.numChunks hcoin
    (rfl : (⟨a.d, -1⟩ : SampleTemp).sampledId = a.d)
    (by rw [Nat.zero_mul, hsplit, firstReach_append, hreach, Option.some_or])
    (by rw [Nat.zero_mul, Nat.zero_add]; exact hlt)
  rw [Nat.zero_mul, Nat.zero_add, ← List.range_eq_range'] at hloop
  simp only [finalSample, hsum, hloop, if_neg (Nat.ne_of_lt hlt)]

end SampleArgs

end Final

namespace SampleArgs

variable [Field K] [LinearOrder K] {a : SampleArgs K} {bx : Nat}
variable {t : OrderedTree a.numDraftTokens} {sampler : DeviceSampler K}

def acceptedPath (a : SampleArgs K) (bx : Nat) (t : OrderedTree a.numDraftTokens) : List Nat :=
  (a.sampleTree bx t).samplePath (a.coins bx) (a.numSpeculativeTokens - 1) 0

/-- The last node of the path, and whether the walk has come to its limit there. -/
def lastNode (a : SampleArgs K) (bx : Nat) (t : OrderedTree a.numDraftTokens) : Nat :=
  (0 :: a.acceptedPath bx t).getLast (List.cons_ne_nil _ _)

def atLimit (a : SampleArgs K) (bx : Nat) (t : OrderedTree a.numDraftTokens) : Bool :=
  decide ((a.acceptedPath bx t).length = a.numSpeculativeTokens - 1)

def drawn (a : SampleArgs K) (bx : Nat) (t : OrderedTree a.numDraftTokens) : Nat :=
  (a.sampleTree bx t).finalToken (a.uniformSamplesForFinalSampling bx) (a.atLimit bx t)
    (a.lastNode bx t)

/-- What is stored for a node of the path: the token of the next node, or the one drawn. -/
def predictedAt (a : SampleArgs K) (bx : Nat) (t : OrderedTree a.numDraftTokens) (v : Nat) : Int :=
  if v = a.lastNode bx t then a.drawn bx t
  else ((a.sampleTree bx t).nextNode (a.coins bx v) v).elim 0 fun c =>
    a.candidates (bx * a.numDraftTokens + c)

/-- The tokens a request emits: `predict[accept_index]` over its accepted entries. -/
def emitted (a : SampleArgs K) (bx : Nat) (b : VerifyBuffers) : List Int :=
  (List.range ((b.acceptTokenNum bx).toNat + 1)).map fun i =>
    b.predicts (b.acceptIndex (bx * a.numSpeculativeTokens + i)).toNat

/-- A row can be drawn from: the target's probabilities are not negative, and the running sum of
what is left passes the scaled coin. -/
structure Draws (a : SampleArgs K) (bx : Nat) (t : OrderedTree a.numDraftTokens) : Prop where
  prob_nonneg : ∀ v x, v < a.numDraftTokens → x < a.d → 0 ≤ (a.sampleTree bx t).prob v x
  coin_nonneg : 0 ≤ a.uniformSamplesForFinalSampling bx *
    ((a.sampleTree bx t).residuals (a.atLimit bx t) (a.lastNode bx t)).sum
  reach : firstReach (a.uniformSamplesForFinalSampling bx *
      ((a.sampleTree bx t).residuals (a.atLimit bx t) (a.lastNode bx t)).sum < ·) 0
    ((a.sampleTree bx t).residuals (a.atLimit bx t) (a.lastNode bx t)) = some (a.drawn bx t)

theorem acceptedPath_childPath : (a.sampleTree bx t).ChildPath 0 (a.acceptedPath bx t) :=
  SampleTree.samplePath_childPath _ _ _

theorem acceptedPath_length_lt (hT : 0 < a.numSpeculativeTokens) :
    (a.acceptedPath bx t).length < a.numSpeculativeTokens := by
  have hle := SampleTree.length_samplePath_le (t := a.sampleTree bx t) (a.coins bx)
    (a.numSpeculativeTokens - 1) 0
  exact Nat.lt_of_le_of_lt hle (Nat.sub_lt hT Nat.one_pos)

theorem acceptedPath_predicted {u c : Nat} (h : [u, c] <:+: 0 :: a.acceptedPath bx t) :
    a.candidates (bx * a.numDraftTokens + c) = a.predictedAt bx t u := by
  have hnext := SampleTree.samplePath_infix h
  have hlast : u ≠ a.lastNode bx t := by
    intro heq
    have hnodup : (0 :: a.acceptedPath bx t).Nodup := acceptedPath_childPath.nodup
    obtain ⟨front, back, hsplit⟩ := h
    have hback : a.lastNode bx t = (c :: back).getLast (List.cons_ne_nil _ _) := by
      simp only [lastNode, ← hsplit]
      simp
    have hmem := List.getLast_mem (List.cons_ne_nil c back)
    rw [← hback, ← heq] at hmem
    rw [← hsplit, List.append_assoc, List.nodup_append] at hnodup
    exact (List.nodup_cons.mp hnodup.2.1).1 hmem
  rw [predictedAt, if_neg hlast, hnext, Option.elim_some]

/-- Block `bx` performs the stores of its path. It marks rejected tokens in its own rows only. -/
theorem treeSampling_eq [IsStrictOrderedRing K] (hs : Inverts sampler) (hn : 0 < a.numDraftTokens)
    (hwf : a.RowWellFormed bx t) (hdraws : a.Draws bx t) {b : SampleBuffers K}
    (hclean : ∀ v x, v < a.numDraftTokens → x < a.d → b.draftProbs (a.offset bx v + x) = 0) :
    ∃ b', a.treeSampling sampler bx b = some b' ∧
      b'.toVerifyBuffers = walkPath a.numDraftTokens a.numSpeculativeTokens bx (a.predictedAt bx t)
        (a.acceptedPath bx t) b.toVerifyBuffers ∧
      ∀ y, (∀ v x, v < a.numDraftTokens → x < a.d → y ≠ a.offset bx v + x) →
        b'.draftProbs y = b.draftProbs y := by
  have hd : 0 < a.d := Nat.zero_lt_of_lt (hwf.token_lt 0 hn)
  have hroot : a.retriveIndex (bx * a.numDraftTokens) = (bx * a.numDraftTokens : Nat) :=
    hwf.index 0 hn
  have harrived : Arrived bx t 0 (a.start bx b) := by
    refine ⟨hroot, rfl, rfl, rfl, fun y hy x hx => hclean y x ?_ hx⟩
    obtain rfl | ⟨u, -, hc⟩ := hy.cases_tail
    · exact hn
    · exact t.child_lt hc
  obtain ⟨w, hrun, hended⟩ := walkTree_spec hwf (a.numSpeculativeTokens - 1) hn harrived
  have hcount : w.numAccepted = (a.acceptedPath bx t).length :=
    hended.numAccepted.trans (Nat.zero_add _)
  have hlast : a.lastNode bx t < a.numDraftTokens := acceptedPath_childPath.last_lt hn
  have hlength : (a.acceptedPath bx t).length ≤ a.numSpeculativeTokens - 1 :=
    SampleTree.length_samplePath_le _ _ _
  have hweights : (List.range a.d).map (a.reluQMinusP w) =
      (a.sampleTree bx t).residuals (a.atLimit bx t) (a.lastNode bx t) := by
    refine List.map_congr_left fun x hx => ?_
    have hx := List.mem_range.mp hx
    have hprob := hdraws.prob_nonneg _ x hlast hx
    have hrow : a.targetProbs (w.curProbOffset + x) =
        (a.sampleTree bx t).prob (a.lastNode bx t) x := by rw [hended.curProbOffset]; rfl
    rw [reluQMinusP, SampleTree.residual, hrow, hcount, atLimit]
    by_cases hlimit : (a.acceptedPath bx t).length = a.numSpeculativeTokens - 1
    · rw [if_neg (not_not.mpr hlimit), decide_eq_true hlimit, if_neg (by simp), sub_zero,
        max_eq_left hprob]
    · have hmarked := hended.marked (Nat.lt_of_le_of_ne hlength hlimit) x hx
      rw [← hended.curProbOffset] at hmarked
      rw [if_pos hlimit, decide_eq_false hlimit, hmarked]
      change max (_ - if x ∈ (a.sampleTree bx t).tokens (a.lastNode bx t) then
        (a.sampleTree bx t).prob (a.lastNode bx t) x else 0) 0 = _
      by_cases hmem : x ∈ (a.sampleTree bx t).tokens (a.lastNode bx t)
      · rw [if_pos hmem, if_pos ⟨rfl, hmem⟩, sub_self, max_self]
      · rw [if_neg hmem, if_neg fun hand => hmem hand.2, sub_zero, max_eq_left hprob]
  have hfinal : a.finalSample sampler bx w = a.drawn bx t :=
    finalSample_eq hs hd hweights hdraws.coin_nonneg hdraws.reach
  have hwalk := hended.toWalk (a.predictedAt bx t) fun u c => acceptedPath_predicted
  refine ⟨⟨w.toWalk.finish bx (a.finalSample sampler bx w), w.draftProbs⟩, ?_, ?_, fun y hy => ?_⟩
  · have hrun : a.walkTree bx (a.numSpeculativeTokens - 1) 0 (a.start bx b) = some w := hrun
    rw [treeSampling, hrun]
  · have hpredicted : a.predictedAt bx t
        ((0 :: a.acceptedPath bx t).getLast (List.cons_ne_nil _ _)) = a.drawn bx t := if_pos rfl
    rw [walkPath, hpredicted, hfinal, hwalk, start, hroot]
    rfl
  · exact hended.frame y hy

end SampleArgs

end SpecDecode.Eagle
