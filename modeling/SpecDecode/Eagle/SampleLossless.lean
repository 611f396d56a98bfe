import SpecDecode.Eagle.TreeSamplingSpec

/-!
# Sampled verification is lossless

A launch fills the rows of every request (`launch_rows`). With independent uniform coins what the
requests emit has the law of the target: any tokens along the draft tree and one token behind them
begin the output with exactly the chance that the target samples them (`treeSampling_lossless`).
-/

namespace SpecDecode.Eagle

open Buffer Launch MeasureTheory Set

namespace SampleArgs

section Launch

variable {K : Type} [Field K] [LinearOrder K] {a : SampleArgs K} {sampler : DeviceSampler K}
variable {bs : Nat} {trees : Nat → OrderedTree a.numDraftTokens}

/-- The zeros in the rows of a request. -/
def Clean (a : SampleArgs K) (bx : Nat) (draftProbs : Nat → K) : Prop :=
  ∀ v x, v < a.numDraftTokens → x < a.d → draftProbs (a.offset bx v + x) = 0

theorem launch_rows [IsStrictOrderedRing K] (hs : Inverts sampler) (hn : 0 < a.numDraftTokens)
    (hT : 0 < a.numSpeculativeTokens) (hwf : ∀ bx, bx < bs → a.RowWellFormed bx (trees bx))
    (hdraws : ∀ bx, bx < bs → a.Draws bx (trees bx)) {b : SampleBuffers K}
    (hclean : ∀ bx, bx < bs → a.Clean bx b.draftProbs) :
    ∃ b', launch (a.treeSampling sampler) (List.range bs) b = some b' ∧ ∀ bx, bx < bs →
      RowResult a.numDraftTokens a.numSpeculativeTokens bx (a.predictedAt bx (trees bx))
        (a.acceptedPath bx (trees bx)) b'.toVerifyBuffers := by
  have hlt : ∀ bx, ∀ v ∈ a.acceptedPath bx (trees bx), v < a.numDraftTokens := fun bx =>
    acceptedPath_childPath.lt
  have hlength : ∀ bx, (a.acceptedPath bx (trees bx)).length < a.numSpeculativeTokens := fun bx =>
    acceptedPath_length_lt hT
  let rows : Local (a.treeSampling sampler) (List.range bs) :=
    { pre := fun bx b => a.Clean bx b.draftProbs
      post := fun bx b => RowResult a.numDraftTokens a.numSpeculativeTokens bx
        (a.predictedAt bx (trees bx)) (a.acceptedPath bx (trees bx)) b.toVerifyBuffers
      effect := fun bx b b' =>
        RowEffect a.numDraftTokens a.numSpeculativeTokens bx b.toVerifyBuffers
          b'.toVerifyBuffers ∧
        ∀ y, (∀ v x, v < a.numDraftTokens → x < a.d → y ≠ a.offset bx v + x) →
          b'.draftProbs y = b.draftProbs y
      run := fun bx hbx b hpre => by
        have hbx := List.mem_range.mp hbx
        obtain ⟨b', hrun, hbuffers, hframe⟩ :=
          treeSampling_eq hs hn (hwf bx hbx) (hdraws bx hbx) hpre
        refine ⟨b', hrun, ?_, ?_, hframe⟩
        · rw [hbuffers]
          exact walkPath_result _
        · rw [hbuffers]
          exact walkPath_effect hn (hlt bx) (hlength bx) _
      keep_pre := fun p _ q _ hpq b b' heffect hpre v x hv hx => by
        rw [heffect.2 _ fun u y hu hy => ?_]
        · exact hpre v x hv hx
        · have hx' : v * a.d + x < a.numDraftTokens * a.d := by
            have hle := Nat.mul_le_mul_right a.d (Nat.succ_le_of_lt hv)
            rw [Nat.succ_mul] at hle
            omega
          have hy' : u * a.d + y < a.numDraftTokens * a.d := by
            have hle := Nat.mul_le_mul_right a.d (Nat.succ_le_of_lt hu)
            rw [Nat.succ_mul] at hle
            omega
          have hout := window_outside hx' hpq
          rw [offset_eq, offset_eq]
          omega
      keep_post := fun p _ q _ hpq b b' heffect hpost =>
        hpost.keep (hlt q) hn (hlength q) hpq heffect.1 }
  obtain ⟨b', hrun, hpost⟩ := rows.launch_post List.nodup_range b fun bx hbx =>
    hclean bx (List.mem_range.mp hbx)
  exact ⟨b', hrun, fun bx hbx => hpost bx (List.mem_range.mpr hbx)⟩

theorem emitted_eq {bx : Nat} {t : OrderedTree a.numDraftTokens} {b : VerifyBuffers}
    (hwf : a.RowWellFormed bx t)
    (h : RowResult a.numDraftTokens a.numSpeculativeTokens bx (a.predictedAt bx t)
      (a.acceptedPath bx t) b) :
    a.emitted bx b = ((a.sampleTree bx t).emits (a.coins bx)
      (a.uniformSamplesForFinalSampling bx) (a.numSpeculativeTokens - 1) 0).map Nat.cast := by
  have hrow : a.emitted bx b = (0 :: a.acceptedPath bx t).map (a.predictedAt bx t) :=
    VerifyArgs.emitted_eq (a := ⟨a.candidates, a.retriveIndex, a.retriveNextToken,
      a.retriveNextSibling, fun _ => 0, a.numSpeculativeTokens, a.numDraftTokens⟩) h
  have hmatch : TokenTree.MatchPath ⟨t, fun v => a.candidates (bx * a.numDraftTokens + v),
      a.predictedAt bx t⟩ 0 (a.acceptedPath bx t) :=
    (acceptedPath_childPath (a := a) (t := t)).matchPath fun u c => acceptedPath_predicted
  have htokens := hmatch.tokens_eq
  have hdrawn : a.predictedAt bx t ((0 :: a.acceptedPath bx t).getLast (List.cons_ne_nil _ _)) =
      a.drawn bx t := if_pos rfl
  simp only [hdrawn] at htokens
  rw [hrow, htokens, SampleTree.emits_eq, List.map_append, List.map_map, List.map_singleton]
  refine congrArg (· ++ [(a.drawn bx t : Int)]) (List.map_congr_left fun v hv => ?_)
  exact (Int.toNat_of_nonneg (hwf.token_nonneg v (acceptedPath_childPath.lt v hv))).symm

end Launch

structure Tossed (a : SampleArgs ℝ) (bx : Nat) : Prop where
  acc_pos : 0 < a.thresholdAcc
  acc_le : a.thresholdAcc ≤ 1
  coin : ∀ u, u < a.numDraftTokens → 0 < a.coins bx u ∧ a.coins bx u < 1
  last : 0 < a.uniformSamplesForFinalSampling bx ∧ a.uniformSamplesForFinalSampling bx < 1

section Tossed

variable {a : SampleArgs ℝ} {bx : Nat} {t : OrderedTree a.numDraftTokens}

theorem Tossed.left_pos (h : a.Tossed bx) (hn : 0 < a.numDraftTokens)
    (hrows : (a.sampleTree bx t).Rows) :
    0 < ((a.sampleTree bx t).residuals (a.atLimit bx t) (a.lastNode bx t)).sum := by
  have hlast : a.lastNode bx t < a.numDraftTokens := acceptedPath_childPath.last_lt hn
  cases hlimit : a.atLimit bx t with
  | true =>
      rw [hrows.residuals_sum_limit hlast]
      exact one_pos
  | false =>
      have hless : (a.acceptedPath bx t).length < a.numSpeculativeTokens - 1 :=
        Nat.lt_of_le_of_ne (SampleTree.length_samplePath_le _ _ _) (of_decide_eq_false hlimit)
      obtain ⟨hpos, hone⟩ := h.coin _ hlast
      exact hrows.residuals_sum_pos hlast h.acc_pos h.acc_le hpos hone
        (SampleTree.nextNode_last hless)

theorem Tossed.draws (h : a.Tossed bx) (hn : 0 < a.numDraftTokens)
    (hrows : (a.sampleTree bx t).Rows) : a.Draws bx t := by
  have hsum := h.left_pos hn hrows
  refine ⟨hrows.prob_nonneg, mul_nonneg h.last.1.le hsum.le, ?_⟩
  exact (hrows.finalToken_spec (acceptedPath_childPath.last_lt hn) h.last.1.le h.last.2 hsum).1

/-- What a request may emit: the tokens of a path of drafts and one more, each of which the target
gives a chance behind those before it. The last one is no draft that was rejected. -/
structure Supported (a : SampleArgs ℝ) (bx : Nat) (t : OrderedTree a.numDraftTokens)
    (path : List Nat) (x : Nat) : Prop where
  drafts : (a.sampleTree bx t).ChildPath 0 path
  length_le : path.length ≤ a.numSpeculativeTokens - 1
  accepted : ∀ u c, [u, c] <:+: 0 :: path →
    0 < (a.sampleTree bx t).prob u ((a.sampleTree bx t).token c)
  drawn_lt : x < a.d
  drawn : 0 < (a.sampleTree bx t).prob ((0 :: path).getLast (List.cons_ne_nil _ _)) x
  fresh : path.length < a.numSpeculativeTokens - 1 →
    x ∉ (a.sampleTree bx t).tokens ((0 :: path).getLast (List.cons_ne_nil _ _))

theorem Tossed.supported (h : a.Tossed bx) (hn : 0 < a.numDraftTokens)
    (hsingle : 0 < a.thresholdSingle) (hrows : (a.sampleTree bx t).Rows) :
    a.Supported bx t (a.acceptedPath bx t) (a.drawn bx t) := by
  have hlast : a.lastNode bx t < a.numDraftTokens := acceptedPath_childPath.last_lt hn
  obtain ⟨-, hlt, hleft⟩ :=
    hrows.finalToken_spec hlast h.last.1.le h.last.2 (h.left_pos hn hrows)
  change 0 < (a.sampleTree bx t).residual (a.atLimit bx t) (a.lastNode bx t) (a.drawn bx t) at hleft
  have hdrawn : ¬ (a.atLimit bx t = false ∧
      a.drawn bx t ∈ (a.sampleTree bx t).tokens (a.lastNode bx t)) := by
    intro hrejected
    rw [SampleTree.residual, if_pos hrejected] at hleft
    exact lt_irrefl 0 hleft
  rw [SampleTree.residual, if_neg hdrawn] at hleft
  refine ⟨acceptedPath_childPath, SampleTree.length_samplePath_le _ _ _, fun u c hsegment => ?_,
    hlt, hleft, fun hless hmem => hdrawn ⟨decide_eq_false (Nat.ne_of_lt hless), hmem⟩⟩
  have hu : u < a.numDraftTokens := by
    rcases List.mem_cons.mp (hsegment.subset List.mem_cons_self) with rfl | hmem
    · exact hn
    · exact acceptedPath_childPath.lt u hmem
  exact SampleTree.Rows.acceptFrom_pos h.acc_pos hsingle (mul_pos (h.coin u hu).1 h.acc_pos)
    (SampleTree.samplePath_infix hsegment)

end Tossed

/-- Whatever the thresholds relax, a launch emits no token that the target gives no chance: each
request emits the tokens of a path of its draft tree and one token more, at most as many as it may,
each with a chance behind the tokens before it, and the last is none of the drafts that were
rejected. -/
theorem treeSampling_supported {a : SampleArgs ℝ} {bs : Nat} {sampler : DeviceSampler ℝ}
    (hs : Inverts sampler) (hn : 1 ≤ a.numDraftTokens) (hT : 1 ≤ a.numSpeculativeTokens)
    (trees : Nat → OrderedTree a.numDraftTokens)
    (hwf : ∀ bx, bx < bs → a.RowWellFormed bx (trees bx))
    (hrows : ∀ bx, bx < bs → (a.sampleTree bx (trees bx)).Rows) (hacc : a.thresholdAcc ≤ 1)
    (hsingle : 0 < a.thresholdSingle)
    (hcoins : ∀ bx, bx < bs → ∀ u, u < a.numDraftTokens → 0 < a.coins bx u ∧ a.coins bx u < 1)
    (hlast : ∀ bx, bx < bs → 0 < a.uniformSamplesForFinalSampling bx ∧
      a.uniformSamplesForFinalSampling bx < 1)
    (b : SampleBuffers ℝ) (hclean : ∀ bx, bx < bs → a.Clean bx b.draftProbs) :
    ∃ b', a.launchSampling sampler bs b = some b' ∧ ∀ bx, bx < bs →
      ∃ path x, a.Supported bx (trees bx) path x ∧
        b'.acceptTokenNum bx = path.length ∧
        a.emitted bx b'.toVerifyBuffers =
          (path.map (a.sampleTree bx (trees bx)).token ++ [x]).map Nat.cast := by
  have htossed : ∀ bx, bx < bs → a.capped.Tossed bx := fun bx hbx =>
    ⟨lt_max_of_lt_right (by norm_num), max_le hacc (by norm_num), hcoins bx hbx, hlast bx hbx⟩
  have hrows' : ∀ bx, bx < bs → (a.capped.sampleTree bx (trees bx)).Rows := fun bx hbx =>
    ⟨(hrows bx hbx).prob_nonneg, (hrows bx hbx).prob_sum, (hrows bx hbx).token_lt,
      (hrows bx hbx).distinct⟩
  have hwf' : ∀ bx, bx < bs → a.capped.RowWellFormed bx (trees bx) := fun bx hbx =>
    ⟨(hwf bx hbx).chains, (hwf bx hbx).index, (hwf bx hbx).token_nonneg, (hwf bx hbx).token_lt⟩
  obtain ⟨b', hrun, hfilled⟩ := launch_rows (a := a.capped) hs hn hT hwf'
    (fun bx hbx => (htossed bx hbx).draws hn (hrows' bx hbx)) hclean
  refine ⟨b', hrun, fun bx hbx => ⟨a.capped.acceptedPath bx (trees bx),
    a.capped.drawn bx (trees bx), ?_, (hfilled bx hbx).num, ?_⟩⟩
  · have hsupported := (htossed bx hbx).supported hn hsingle (hrows' bx hbx)
    exact ⟨hsupported.drafts.congr fun _ => rfl, hsupported.length_le, hsupported.accepted,
      hsupported.drawn_lt, hsupported.drawn, hsupported.fresh⟩
  · refine (emitted_eq (hwf' bx hbx) (hfilled bx hbx)).trans (congrArg (List.map Nat.cast) ?_)
    exact SampleTree.emits_eq _ _ _ _

section Coins

variable {a : SampleArgs ℝ} {bs : Nat} {sampler : DeviceSampler ℝ}

/-- The coins of a launch: one for every node of every request and a last one for each request. -/
abbrev Coins (a : SampleArgs ℝ) (bs : Nat) := Fin bs × Option (Fin a.numDraftTokens) → ℝ

/-- The arguments with these coins. -/
noncomputable def withCoins (a : SampleArgs ℝ) (ω : a.Coins bs) : SampleArgs ℝ :=
  { a with
    uniformSamples := fun x =>
      if h : x / a.numDraftTokens < bs ∧ 0 < a.numDraftTokens then
        ω (⟨x / a.numDraftTokens, h.1⟩, some ⟨x % a.numDraftTokens, Nat.mod_lt _ h.2⟩)
      else 0
    uniformSamplesForFinalSampling := fun bx => if h : bx < bs then ω (⟨bx, h⟩, none) else 0 }

theorem coins_withCoins (ω : a.Coins bs) {bx v : Nat} (hbx : bx < bs) (hv : v < a.numDraftTokens) :
    (a.withCoins ω).coins bx v = ω (⟨bx, hbx⟩, some ⟨v, hv⟩) := by
  have hn := Nat.zero_lt_of_lt hv
  have hdiv : (bx * a.numDraftTokens + v) / a.numDraftTokens = bx := by
    rw [Nat.mul_comm, Nat.mul_add_div hn, Nat.div_eq_of_lt hv, Nat.add_zero]
  have hmod : (bx * a.numDraftTokens + v) % a.numDraftTokens = v := by
    rw [Nat.mul_add_mod_self_right, Nat.mod_eq_of_lt hv]
  change dite _ _ _ = _
  rw [dif_pos ⟨hdiv.symm ▸ hbx, hn⟩]
  exact congrArg ω (Prod.ext (Fin.ext hdiv) (congrArg some (Fin.ext hmod)))

theorem last_withCoins (ω : a.Coins bs) {bx : Nat} (hbx : bx < bs) :
    (a.withCoins ω).uniformSamplesForFinalSampling bx = ω (⟨bx, hbx⟩, none) :=
  dif_pos hbx

theorem RowWellFormed.withCoins {t : OrderedTree a.numDraftTokens} {bx : Nat}
    (h : a.RowWellFormed bx t) (ω : a.Coins bs) : (a.withCoins ω).RowWellFormed bx t :=
  ⟨h.chains, h.index, h.token_nonneg, h.token_lt⟩

theorem draws_withCoins {t : OrderedTree a.numDraftTokens} {bx : Nat} (hbx : bx < bs)
    (hn : 0 < a.numDraftTokens) (hfair : (a.sampleTree bx t).Fair) {ω : a.Coins bs}
    (hω : ∀ i, 0 < ω i ∧ ω i < 1) : (a.withCoins ω).Draws bx t := by
  have hacc : (a.withCoins ω).thresholdAcc = 1 := hfair.acc
  refine Tossed.draws ⟨hacc.symm ▸ one_pos, hacc.le, fun u hu => ?_, ?_⟩ hn hfair.toRows
  · rw [coins_withCoins ω hbx hu]
    exact hω _
  · rw [last_withCoins ω hbx]
    exact hω _

private theorem launchSampling_eq (hacc : a.thresholdAcc = 1) (bs : Nat) (b : SampleBuffers ℝ) :
    a.launchSampling sampler bs b = launch (a.treeSampling sampler) (List.range bs) b := by
  have hcap : a.capped = a := by
    rw [capped, hacc, max_eq_left (by norm_num), ← hacc]
  rw [launchSampling, hcap]

/-- Sampled verification is lossless. Take any batch of well-formed draft trees whose siblings
carry distinct tokens, rows of the target that are distributions, and thresholds that relax nothing.
For every choice of a node within the limit and a token for each request, the chance that every
request emits the tokens that lead to its node and then its token is the product of the chances
that the targets sample these tokens one by one. -/
theorem treeSampling_lossless (hs : Inverts sampler) (hn : 1 ≤ a.numDraftTokens)
    (hT : 1 ≤ a.numSpeculativeTokens) (trees : Nat → OrderedTree a.numDraftTokens)
    (hwf : ∀ bx, bx < bs → a.RowWellFormed bx (trees bx))
    (hacc : a.thresholdAcc = 1) (hfair : ∀ bx, bx < bs → (a.sampleTree bx (trees bx)).Fair)
    (target : Nat → List Nat → Nat → ℝ)
    (hdec : ∀ bx, bx < bs → (a.sampleTree bx (trees bx)).DecodedBy (target bx))
    (b : SampleBuffers ℝ) (hclean : ∀ bx, bx < bs → a.Clean bx b.draftProbs)
    (path : Nat → List Nat) (next : Nat → Nat)
    (hpath : ∀ bx, bx < bs → (a.sampleTree bx (trees bx)).ChildPath 0 (path bx))
    (hlength : ∀ bx, bx < bs → (path bx).length ≤ a.numSpeculativeTokens - 1)
    (hnext : ∀ bx, bx < bs → next bx < a.d) :
    Measure.pi (fun _ => toss) {ω : a.Coins bs | ∃ b',
        (a.withCoins ω).launchSampling sampler bs b = some b' ∧ ∀ bx, bx < bs →
          (((path bx).map (a.sampleTree bx (trees bx)).token ++ [next bx]).map Nat.cast : List Int)
            <+: (a.withCoins ω).emitted bx b'.toVerifyBuffers} =
      ∏ bx : Fin bs, ENNReal.ofReal (sampleProb (target bx)
        [(a.sampleTree bx (trees bx)).token 0]
        ((path bx).map (a.sampleTree bx (trees bx)).token ++ [next bx])) := by
  let box : Fin bs × Option (Fin a.numDraftTokens) → Set ℝ := fun i => match i with
    | (bx, some v) => (a.sampleTree bx (trees bx)).coinSets (next bx) (a.numSpeculativeTokens - 1) 0
        (path bx) v
    | (bx, none) => (a.sampleTree bx (trees bx)).headLast
        (decide ((path bx).length = a.numSpeculativeTokens - 1))
        ((0 :: path bx).getLast (List.cons_ne_nil _ _)) (next bx)
  rw [tosses_congr (t := univ.pi box), Measure.pi_pi, Fintype.prod_prod_type]
  · refine Finset.prod_congr rfl fun bx _ => ?_
    rw [Fintype.prod_option, mul_comm, ← Finset.prod_range fun v => toss
      ((a.sampleTree bx (trees bx)).coinSets (next bx) (a.numSpeculativeTokens - 1) 0 (path bx) v),
      (hfair bx bx.2).chance (hpath bx bx.2) hn (hlength bx bx.2) (hnext bx bx.2),
      (hdec bx bx.2).sampleProb_eq (hfair bx bx.2).token_lt .root (hpath bx bx.2) (hnext bx bx.2)]
  · intro ω hω
    obtain ⟨b', hrun, hrows⟩ := launch_rows (a := a.withCoins ω) hs hn hT
      (fun bx hbx => (hwf bx hbx).withCoins ω)
        (fun bx hbx => draws_withCoins hbx hn (hfair bx hbx) hω) hclean
    have hbegins : ∀ bx (hbx : bx < bs),
        (((path bx).map (a.sampleTree bx (trees bx)).token ++ [next bx]).map Nat.cast : List Int)
            <+: (a.withCoins ω).emitted bx b'.toVerifyBuffers ↔
          (∀ v, ω (⟨bx, hbx⟩, some v) ∈ box (⟨bx, hbx⟩, some v)) ∧
            ω (⟨bx, hbx⟩, none) ∈ box (⟨bx, hbx⟩, none) := by
      intro bx hbx
      have hcoins : ∀ u, u < a.numDraftTokens →
          0 < (a.withCoins ω).coins bx u ∧ (a.withCoins ω).coins bx u < 1 := fun u hu => by
        rw [coins_withCoins ω hbx hu]
        exact hω _
      have hlast := hω (⟨bx, hbx⟩, none)
      rw [← last_withCoins ω hbx] at hlast
      rw [emitted_eq ((hwf bx hbx).withCoins ω) (hrows bx hbx),
        List.prefix_map_iff_of_injective Nat.cast_injective]
      refine ((hfair bx hbx).begins_iff (hpath bx hbx) hn (hlength bx hbx) hcoins hlast).trans ?_
      rw [last_withCoins ω hbx]
      refine and_congr_left' ⟨fun h v => ?_, fun h u => ?_⟩
      · have hv := h v
        rwa [coins_withCoins ω hbx v.2] at hv
      · by_cases hu : u < a.numDraftTokens
        · rw [coins_withCoins ω hbx hu]
          exact h ⟨u, hu⟩
        · have hout : u ∉ 0 :: path bx := by
            intro hmem
            rcases List.mem_cons.mp hmem with rfl | hmem
            · exact hu hn
            · exact hu ((hpath bx hbx).lt u hmem)
          rw [SampleTree.coinSets_of_notMem hout]
          exact mem_univ _
    constructor
    · rintro ⟨b₁, hrun₁, hall⟩
      rw [launchSampling_eq (a := a.withCoins ω) hacc] at hrun₁
      obtain rfl := Option.some.inj (hrun₁.symm.trans hrun)
      rintro ⟨bx, o⟩ -
      obtain ⟨hnodes, hfinal⟩ := (hbegins bx bx.2).mp (hall bx bx.2)
      cases o with
      | none => exact hfinal
      | some v => exact hnodes v
    · intro hbox
      refine ⟨b', ?_, fun bx hbx => (hbegins bx hbx).mpr
        ⟨fun v => hbox (⟨bx, hbx⟩, some v) trivial, hbox (⟨bx, hbx⟩, none) trivial⟩⟩
      rw [launchSampling_eq (a := a.withCoins ω) hacc]
      exact hrun

/-- Two drafts behind the root. -/
def pairTree : ParentTree where
  parent _ := 0
  parent_lt _ hi := hi

/-- A request that drafts the tokens `0` and `1` behind its root, with a target that gives each of
three tokens the same chance. -/
noncomputable def pairArgs : SampleArgs ℝ where
  candidates x := [2, 0, 1].getD x 0
  retriveIndex x := x
  retriveNextToken x := [1, -1, -1].getD x (-1)
  retriveNextSibling x := [-1, 2, -1].getD x (-1)
  uniformSamples _ := 0
  uniformSamplesForFinalSampling _ := 0
  targetProbs _ := 1 / 3
  numSpeculativeTokens := 2
  numDraftTokens := 3
  d := 3
  thresholdSingle := 1
  thresholdAcc := 1

theorem pairArgs_rowWellFormed : pairArgs.RowWellFormed 0 (pairTree.ordered 3) where
  chains v hv := by
    have hv : v = 0 ∨ v = 1 ∨ v = 2 := by
      change v < 3 at hv
      omega
    rcases hv with rfl | rfl | rfl
    · exact Chain.cons (i := 1) (Chain.cons (i := 2) Chain.nil)
    · exact Chain.nil
    · exact Chain.nil
  index v _ := by simp [pairArgs]
  token_nonneg v hv := by
    have hv : v = 0 ∨ v = 1 ∨ v = 2 := by
      change v < 3 at hv
      omega
    rcases hv with rfl | rfl | rfl <;> simp [pairArgs]
  token_lt v hv := by
    have hv : v = 0 ∨ v = 1 ∨ v = 2 := by
      change v < 3 at hv
      omega
    rcases hv with rfl | rfl | rfl <;> simp [pairArgs]

theorem pairArgs_fair : (pairArgs.sampleTree 0 (pairTree.ordered 3)).Fair where
  prob_nonneg v x _ _ := by
    change (0 : ℝ) ≤ 1 / 3
    norm_num
  prob_sum v _ := by
    change ∑ x ∈ Finset.range 3, (1 / 3 : ℝ) = 1
    norm_num
  token_lt v c hc := pairArgs_rowWellFormed.token_lt c ((pairTree.ordered 3).child_lt hc)
  distinct v := by
    refine List.Nodup.map_on (fun c hc d hd htoken => ?_) ((pairTree.ordered 3).nodup v)
    obtain ⟨hc, hc3, -⟩ := pairTree.mem_children.mp hc
    obtain ⟨hd, hd3, -⟩ := pairTree.mem_children.mp hd
    have hcases : ∀ v, 0 < v → v < 3 →
        (pairArgs.sampleTree 0 (pairTree.ordered 3)).token v = v - 1 := by
      intro v hv hv3
      obtain rfl | rfl : v = 1 ∨ v = 2 := by omega
      · rfl
      · rfl
    rw [hcases c hc hc3, hcases d hd hd3] at htoken
    omega
  acc := rfl
  single := le_rfl

/-- The same request with relaxed thresholds and all coins at one half. -/
noncomputable def relaxedArgs : SampleArgs ℝ :=
  { pairArgs with
    uniformSamples := fun _ => 1 / 2
    uniformSamplesForFinalSampling := fun _ => 1 / 2
    thresholdSingle := 1 / 4
    thresholdAcc := 1 / 2 }

theorem treeSampling_supported_relaxed :
    ∃ b', relaxedArgs.launchSampling searchChunk 1
        ⟨⟨fun _ => 0, fun _ => -1, fun _ => 0⟩, fun _ => 0⟩ = some b' ∧ ∀ bx, bx < 1 →
      ∃ path x, relaxedArgs.Supported bx (pairTree.ordered 3) path x ∧
        b'.acceptTokenNum bx = path.length ∧
        relaxedArgs.emitted bx b'.toVerifyBuffers =
          (path.map (relaxedArgs.sampleTree bx (pairTree.ordered 3)).token ++ [x]).map
          Nat.cast := by
  have hzero : ∀ {P : Nat → Prop}, P 0 → ∀ bx, bx < 1 → P bx := fun h bx hbx => by
    rwa [Nat.lt_one_iff.mp hbx]
  have hhalf : (0 : ℝ) < 1 / 2 ∧ (1 / 2 : ℝ) < 1 := by norm_num
  have hwf := pairArgs_rowWellFormed
  have hfair := pairArgs_fair
  exact treeSampling_supported (a := relaxedArgs) searchChunk_inverts (by decide)
    (by decide) (fun _ => pairTree.ordered 3)
    (hzero ⟨hwf.chains, hwf.index, hwf.token_nonneg, hwf.token_lt⟩)
    (hzero ⟨hfair.prob_nonneg, hfair.prob_sum, hfair.token_lt, hfair.distinct⟩) hhalf.2.le
    (by norm_num [relaxedArgs]) (hzero fun _ _ => hhalf) (hzero hhalf) _ (hzero fun _ _ _ _ => rfl)

/-- The second draft is accepted and the token `0` drawn behind it with chance `1 / 9`. -/
theorem treeSampling_lossless_pair :
    Measure.pi (fun _ => toss) {ω : pairArgs.Coins 1 | ∃ b',
        (pairArgs.withCoins ω).launchSampling searchChunk 1
          ⟨⟨fun _ => 0, fun _ => -1, fun _ => 0⟩, fun _ => 0⟩ = some b' ∧ ∀ bx, bx < 1 →
          [1, 0] <+: (pairArgs.withCoins ω).emitted bx b'.toVerifyBuffers} =
      ENNReal.ofReal (1 / 9) := by
  have hzero : ∀ {P : Nat → Prop}, P 0 → ∀ bx, bx < 1 → P bx := fun h bx hbx => by
    rwa [Nat.lt_one_iff.mp hbx]
  have hchild : 2 ∈ pairTree.children 3 0 := by decide
  have hlaw := treeSampling_lossless (a := pairArgs) searchChunk_inverts (by decide)
    (by decide) (fun _ => pairTree.ordered 3) (hzero pairArgs_rowWellFormed) rfl
    (hzero pairArgs_fair) (fun _ _ _ => 1 / 3) (hzero fun _ _ _ _ _ => rfl)
    ⟨⟨fun _ => 0, fun _ => -1, fun _ => 0⟩, fun _ => 0⟩ (hzero fun _ _ _ _ => rfl) (fun _ => [2])
    (fun _ => 0) (hzero (.cons hchild .nil)) (hzero (Nat.le_refl 1)) (hzero (by decide))
  have hprob : ∏ bx : Fin 1, ENNReal.ofReal (sampleProb (fun _ _ => (1 / 3 : ℝ))
      [(pairArgs.sampleTree bx (pairTree.ordered 3)).token 0]
      ([2].map (pairArgs.sampleTree bx (pairTree.ordered 3)).token ++ [0])) =
      ENNReal.ofReal (1 / 9) := by
    rw [Fin.prod_univ_one]
    refine congrArg ENNReal.ofReal ?_
    simp only [List.map_cons, List.map_nil, List.cons_append, List.nil_append, sampleProb]
    norm_num
  rw [← hprob, ← hlaw]
  refine congrArg _ (Set.ext fun ω => exists_congr fun b' => and_congr_right fun _ => ?_)
  refine forall_congr' fun bx => imp_congr_right fun hbx => ?_
  rw [Nat.lt_one_iff.mp hbx]
  rfl

end Coins

end SampleArgs

end SpecDecode.Eagle
