import SpecDecode.Eagle.DraftTree
import SpecDecode.Eagle.Generation

/-!
# Rounds of EAGLE

The workers draft a tree for every request of a batch, the kernel links and masks the trees, the
target runs over their tokens and the kernel verifies. Mask and positions let a node see the
tokens that lead to it, so the target predicts at every node what it would decode there.
-/

namespace SpecDecode.Eagle

open Buffer Scheduler

variable {k : Nat} {H : Type}

/-- A draft: its models, `speculative_num_steps`, `speculative_num_draft_tokens` and the
uninitialised positions. -/
structure EagleDraft (k : Nat) (H : Type) where
  ops : TorchOps
  models : Nat → DraftModel k H
  numSteps : Nat
  numDraftTokens : Nat
  treeMaskMode : TreeMaskMode
  positions : Nat → Nat

namespace EagleDraft

variable (d : EagleDraft k H) (contexts : List (List Int))

/-- The steps offer enough tokens, and the mask is not packed. -/
structure Fits : Prop where
  topk : 1 ≤ k
  steps : 1 ≤ d.numSteps
  tokens : 1 ≤ d.numDraftTokens
  offered : d.numDraftTokens - 1 ≤ k + (d.numSteps - 1) * (k * k)
  unpacked : d.treeMaskMode ≠ .qlenOnlyBitpacking

/-- The kernel arguments. The last token of a request is not in its KV cache yet. -/
def treeArgs : TreeArgs :=
  draftArgs d.ops d.models d.numSteps d.numDraftTokens
    (fun bid => (contexts.getD bid []).length - 1) d.treeMaskMode

/-- `build_tree_kernel_efficient` on its fresh buffers. -/
def buildTree : Option TreeBuffers :=
  (d.treeArgs contexts).launchBuildTree contexts.length (TreeArgs.freshBuffers d.positions)

def draftTokens : Nat → Int :=
  ofRows d.numDraftTokens (fun bid => (contexts.getD bid []).getLastD 0 ::
    ((d.models bid).organized d.ops d.numSteps d.numDraftTokens).2.2) 0

/-- The arguments of `verify_tree_greedy`. -/
def verifyArgs (b : TreeBuffers) (targetPredict : Nat → Int) : VerifyArgs where
  candidates := d.draftTokens contexts
  retriveIndex := b.retriveIndex
  retriveNextToken := b.retriveNextToken
  retriveNextSibling := b.retriveNextSibling
  targetPredict := targetPredict
  numSpeculativeTokens := d.numSteps + 1
  numDraftTokens := d.numDraftTokens

/-- The tokens that node `tid` attends to, each with its position. Without `FULL_MASK` the mask
does not cover the KV cache, which is then visible. -/
def attended (b : TreeBuffers) (bid tid : Nat) : List (Int × Nat) :=
  let a := d.treeArgs contexts
  let committed := (contexts.getD bid []).dropLast.zipIdx.filter fun t =>
    decide (d.treeMaskMode ≠ .fullMask) || b.treeMask (a.maskRow bid tid + t.2)
  let drafts := (List.range d.numDraftTokens).filter fun j =>
    b.treeMask (a.maskRow bid tid + (a.prefixLen bid + j))
  committed ++ drafts.map fun j =>
    (d.draftTokens contexts (bid * d.numDraftTokens + j), b.positions (bid * d.numDraftTokens + j))

variable {d contexts} {b : TreeBuffers} {bid v : Nat}

/-- The tokens that lead to a node stand at the depths of its lineage. -/
theorem path_zipIdx {n : Nat} {tt : TokenTree n} {t : ParentTree}
    (htree : tt.children = t.children n) {p : List Int} (h : tt.TokenPath v p) (start : Nat) :
    p.length = t.depth v + 1 ∧
      (0 :: (t.lineage v).reverse).map (fun j => (tt.token j, start + t.depth j)) =
        p.zipIdx start := by
  induction h with
  | root => simp
  | @child v c p _ hc ih =>
      rw [htree] at hc
      obtain ⟨hpos, -, hparent⟩ := t.mem_children.mp hc
      have hdepth : t.depth c = t.depth v + 1 := by rw [t.depth_of_pos hpos, hparent]
      have hlineage : 0 :: (t.lineage c).reverse = (0 :: (t.lineage v).reverse) ++ [c] := by
        rw [t.lineage_of_pos hpos, hparent, List.reverse_cons, List.cons_append]
      refine ⟨by rw [List.length_append, ih.1, hdepth, List.length_singleton], ?_⟩
      rw [hlineage, List.map_append, ih.2, List.zipIdx_append, ih.1, List.map_singleton, hdepth,
        List.zipIdx_singleton]

private theorem lineage_nodup (t : ParentTree) (v : Nat) : (0 :: (t.lineage v).reverse).Nodup := by
  apply List.nodup_cons.mpr
  refine ⟨fun h => absurd (t.mem_lineage.mp (List.mem_reverse.mp h)).1 (Nat.lt_irrefl 0), ?_⟩
  apply List.nodup_reverse.mpr
  induction v using t.parent_induction with
  | root => simp
  | node v hv ih =>
      rw [t.lineage_of_pos hv]
      apply List.nodup_cons.mpr
      exact ⟨fun h => absurd (t.le_of_mem_lineage h) (not_le.mpr (t.parent_lt v hv)), ih⟩

/-- A node attends to the KV cache and to the tokens that lead to it, at their places. -/
theorem attended_perm {t : ParentTree} (hout : TreeOutput (d.treeArgs contexts) bid t b)
    {tt : TokenTree d.numDraftTokens} (htree : tt.children = t.children d.numDraftTokens)
    (htoken : ∀ j, tt.token j = d.draftTokens contexts (bid * d.numDraftTokens + j))
    (hv : v < d.numDraftTokens) {p : List Int} (h : tt.TokenPath v p) :
    (d.attended contexts b bid v).Perm ((contexts.getD bid []).dropLast ++ p).zipIdx := by
  have hlength : (contexts.getD bid []).dropLast.length =
      (d.treeArgs contexts).verifiedSeqLen bid :=
    List.length_dropLast
  have hcommitted : (contexts.getD bid []).dropLast.zipIdx.filter (fun t =>
      decide (d.treeMaskMode ≠ .fullMask) ||
        b.treeMask ((d.treeArgs contexts).maskRow bid v + t.2)) =
      (contexts.getD bid []).dropLast.zipIdx := by
    apply List.filter_eq_self.mpr
    intro x hx
    by_cases hmode : d.treeMaskMode = .fullMask
    · have hlt := List.snd_lt_of_mem_zipIdx hx
      have hprefix : (d.treeArgs contexts).prefixLen bid =
          (d.treeArgs contexts).verifiedSeqLen bid := if_pos hmode
      have hseen := (hout.visible v hv x.2 (by omega)).mpr (.inl (by omega))
      rw [hseen, Bool.or_true]
    · simp [hmode]
  have hdrafts : ((List.range d.numDraftTokens).filter fun j =>
      b.treeMask ((d.treeArgs contexts).maskRow bid v +
        ((d.treeArgs contexts).prefixLen bid + j))).Perm (0 :: (t.lineage v).reverse) := by
    refine (List.perm_ext_iff_of_nodup (List.nodup_range.filter _) (lineage_nodup t v)).mpr ?_
    intro j
    rw [List.mem_filter, List.mem_range, List.mem_cons, List.mem_reverse, t.mem_lineage]
    constructor
    · rintro ⟨hj, hseen⟩
      obtain hlt | ⟨j', hj', hcase⟩ := (hout.visible v hv _ (Nat.add_lt_add_left hj _)).mp hseen
      · omega
      · obtain rfl : j = j' := by omega
        obtain rfl | hpos := Nat.eq_zero_or_pos j
        · exact .inl rfl
        · exact .inr ⟨hpos, (hcase.resolve_left hpos.ne').symm⟩
    · intro hmem
      have hj : j < d.numDraftTokens := by
        obtain rfl | ⟨-, rfl | hanc⟩ := hmem
        · exact Nat.lt_of_le_of_lt (Nat.zero_le v) hv
        · exact hv
        · exact hanc.lt.trans hv
      exact ⟨hj, (hout.visible v hv _ (Nat.add_lt_add_left hj _)).mpr
        (.inr ⟨j, rfl, hmem.imp_right fun h => h.2.symm⟩)⟩
  have hpath := (path_zipIdx htree h (contexts.getD bid []).dropLast.length).2
  rw [List.zipIdx_append, Nat.zero_add, ← hpath, attended, hcommitted]
  refine List.Perm.append_left _ ((hdrafts.map _).trans (List.Perm.of_eq ?_))
  apply List.map_congr_left
  intro j hj
  have hlt : j < d.numDraftTokens :=
    List.mem_range.mp (List.mem_filter.mp (hdrafts.mem_iff.mpr hj)).1
  have hposition : b.positions (bid * d.numDraftTokens + j) = _ := hout.position j hlt
  rw [htoken, hposition, hlength]

variable (contexts) in
theorem Fits.buildTree (hfits : d.Fits) : ∃ b, d.buildTree contexts = some b ∧ b.warnings = [] ∧
    ∃ trees : Nat → ParentTree,
      ∀ bid < contexts.length, TreeOutput (d.treeArgs contexts) bid (trees bid) b := by
  obtain ⟨s, hsteps⟩ := Nat.exists_eq_add_of_le' hfits.steps
  have hrow (bid : Nat) : (d.treeArgs contexts).RowTree bid := by
    have hoffered := hfits.offered
    rw [hsteps] at hoffered
    rw [treeArgs, hsteps]
    exact draftArgs_rowTree hfits.topk hoffered bid
  obtain ⟨b, hrun, hpost⟩ := TreeArgs.launchBuildTree_post
    (fun bid (_ : bid < contexts.length) => hrow bid) d.positions
  refine ⟨b, hrun, ?_, fun bid => (d.treeArgs contexts).draftTree bid (hrow bid),
    fun bid hbid => TreeArgs.treeOutput hfits.tokens (hpost bid hbid)⟩
  obtain hnone | hsome := Nat.eq_zero_or_pos contexts.length
  · rw [hnone] at hrun
    obtain rfl := Option.some.inj hrun
    rfl
  · exact (hpost 0 hsome 0 hfits.tokens).silent

end EagleDraft

namespace Server

variable {ι σ : Type} (S : Server ι σ)

/-- The tokens of the requests of a batch. -/
def contexts (batch : List ι) (reqs : ι → Req σ) : List (List Int) :=
  batch.map fun i => S.fillIds i (reqs i)

/-- The target's pass over the drafts. For a node that attends to the tokens of a sequence at
their places it gives the best token behind the sequence. -/
def Predicts (d : EagleDraft k H) (contexts : List (List Int)) (b : TreeBuffers)
    (targetPredict : Nat → Int) : Prop :=
  ∀ bid < contexts.length, ∀ v < d.numDraftTokens, ∀ seq : List Int,
    (d.attended contexts b bid v).Perm seq.zipIdx →
      targetPredict (bid * d.numDraftTokens + v) = S.target seq

variable {S} {batch : List ι} {reqs : ι → Req σ} {d : EagleDraft k H} {b : TreeBuffers}
variable {targetPredict : Nat → Int}

theorem drafted (hprompt : ∀ i, S.originInputIds i ≠ []) (hfits : d.Fits)
    (hbuild : d.buildTree (S.contexts batch reqs) = some b)
    (hpredict : S.Predicts d (S.contexts batch reqs) b targetPredict) :
    ∃ trees, S.Drafted batch reqs (d.verifyArgs (S.contexts batch reqs) b targetPredict) trees := by
  obtain ⟨b', hbuild', -, trees, hout⟩ := hfits.buildTree (S.contexts batch reqs)
  obtain rfl := Option.some.inj (hbuild'.symm.trans hbuild)
  have hbatch : (S.contexts batch reqs).length = batch.length := List.length_map _
  have hcontext {bid : Nat} {i : ι} (hi : batch[bid]? = some i) :
      bid < (S.contexts batch reqs).length ∧
        (S.contexts batch reqs).getD bid [] = S.fillIds i (reqs i) := by
    refine ⟨hbatch.symm ▸ (List.getElem?_eq_some_iff.mp hi).1, ?_⟩
    rw [List.getD_eq_getElem?_getD, contexts, List.getElem?_map, hi, Option.map_some,
      Option.getD_some]
  refine ⟨fun bid => (trees bid).ordered d.numDraftTokens, hfits.tokens, Nat.succ_pos _,
    fun {bid} hbid => ?_, fun {bid i} hi => ?_, fun {bid i} hi v p hpath => ?_⟩
  · have hrow := hout bid (hbatch.symm ▸ hbid)
    exact ⟨hrow.children, hrow.index⟩
  · have hne : S.fillIds i (reqs i) ≠ [] := List.append_ne_nil_of_left_ne_nil (hprompt i) _
    have hroot : d.draftTokens (S.contexts batch reqs) (bid * d.numDraftTokens) =
        (S.fillIds i (reqs i)).getLastD 0 := by
      have hrow := ofRows_apply (fun bid => ((S.contexts batch reqs).getD bid []).getLastD 0 ::
        ((d.models bid).organized d.ops d.numSteps d.numDraftTokens).2.2) 0 (b := bid)
        (show 0 < d.numDraftTokens from hfits.tokens)
      rw [(hcontext hi).2] at hrow
      exact hrow
    change _ = some (d.draftTokens (S.contexts batch reqs) (bid * d.numDraftTokens))
    rw [hroot, List.getLastD_eq_getLast?, List.getLast?_eq_some_getLast hne, Option.getD_some]
  · have hv : v < d.numDraftTokens := by
      cases hpath with
      | root => exact hfits.tokens
      | child _ hc => exact ((trees bid).mem_children.mp hc).2.1
    have hseen := EagleDraft.attended_perm (hout bid (hcontext hi).1) rfl (fun _ => rfl) hv hpath
    rw [(hcontext hi).2] at hseen
    exact hpredict bid (hcontext hi).1 v hv _ hseen

theorem exists_predicts (S : Server ι σ) (d : EagleDraft k H) (contexts : List (List Int))
    (b : TreeBuffers) : ∃ targetPredict, S.Predicts d contexts b targetPredict := by
  have hunique {seq seq' : List Int} (h : seq.zipIdx.Perm seq'.zipIdx) : seq = seq' := by
    apply List.ext_getElem?
    intro j
    apply Option.ext
    intro t
    exact (List.mem_zipIdx_iff_getElem? (x := (t, j))).symm.trans
      (h.mem_iff.trans List.mem_zipIdx_iff_getElem?)
  have hread (bid v : Nat) : ∃ t, ∀ seq : List Int,
      (d.attended contexts b bid v).Perm seq.zipIdx → t = S.target seq := by
    by_cases hex : ∃ seq : List Int, (d.attended contexts b bid v).Perm seq.zipIdx
    · obtain ⟨seq, hseq⟩ := hex
      exact ⟨S.target seq, fun seq' h => congrArg S.target (hunique (hseq.symm.trans h))⟩
    · exact ⟨0, fun seq h => absurd ⟨seq, h⟩ hex⟩
  choose read hread using hread
  refine ⟨ofRows d.numDraftTokens (fun bid => (List.range d.numDraftTokens).map (read bid)) 0, ?_⟩
  intro bid _ v hv seq hseq
  have hlt : v < ((List.range d.numDraftTokens).map (read bid)).length := by
    rwa [List.length_map, List.length_range]
  rw [ofRows_apply _ _ hv, List.getD_eq_getElem _ _ hlt, List.getElem_map, List.getElem_range]
  exact hread bid v seq hseq

/-- A round of EAGLE is one of speculation. For any requests of a batch the kernel builds the trees
without a warning, the target predicts at every node what it would decode there, and when the
requests are unfinished each of them goes some steps of decoding further. -/
theorem eagleRound_lossless [DecidableEq ι] (hprompt : ∀ i, S.originInputIds i ≠ [])
    (batch : List ι) (reqs : ι → Req σ) (d : EagleDraft k H) (hbatch : batch.Nodup)
    (hlive : ∀ i ∈ batch, (reqs i).finished = false)
    (hgrammar : ∀ i ∈ batch, (reqs i).grammar = none) (hfits : d.Fits) :
    ∃ built, d.buildTree (S.contexts batch reqs) = some built ∧ built.warnings = [] ∧
      (∃ targetPredict, S.Predicts d (S.contexts batch reqs) built targetPredict) ∧
      ∀ targetPredict, S.Predicts d (S.contexts batch reqs) built targetPredict →
        (∃ trees, S.Drafted batch reqs
          (d.verifyArgs (S.contexts batch reqs) built targetPredict) trees) ∧
        ∀ b : VerifyBuffers, (∀ x, b.acceptIndex x = -1) → ∃ reqs',
          S.verify .eagle (d.verifyArgs (S.contexts batch reqs) built targetPredict) b batch reqs =
            some reqs' ∧
          (∀ i ∈ batch, ∃ m, 0 < m ∧ reqs' i = (S.decode i)^[m] (reqs i)) ∧
          ∀ i ∉ batch, reqs' i = reqs i := by
  obtain ⟨built, hbuild, hsilent, -⟩ := hfits.buildTree (S.contexts batch reqs)
  refine ⟨built, hbuild, hsilent, exists_predicts S d _ built, fun targetPredict hpredict => ?_⟩
  obtain ⟨trees, hdraft⟩ := drafted hprompt hfits hbuild hpredict
  exact ⟨⟨trees, hdraft⟩, fun b hb => hdraft.verify hbatch hlive hgrammar .eagle hb⟩

/-- Drafts with ties at every depth. -/
def evenRound : EagleDraft 2 Unit where
  ops := stableOps
  models _ := evenDraft
  numSteps := 3
  numDraftTokens := 5
  treeMaskMode := .fullMask
  positions _ := 0

theorem eagleRound_lossless_even : ∃ built targetPredict reqs,
    evenRound.buildTree [[5]] = some built ∧
      twinServer.Predicts evenRound [[5]] built targetPredict ∧
      twinServer.verify .eagle (evenRound.verifyArgs [[5]] built targetPredict)
        ⟨fun _ => 0, fun _ => -1, fun _ => 0⟩ [()] (fun _ => twinReq) = some reqs ∧
      ∃ m, 0 < m ∧ reqs () = (twinServer.decode ())^[m] twinReq := by
  obtain ⟨built, hbuild, -, ⟨targetPredict, hpredict⟩, hround⟩ :=
    eagleRound_lossless (S := twinServer) (fun _ => List.cons_ne_nil 5 []) [()] (fun _ => twinReq)
      evenRound (List.nodup_singleton _) (fun _ _ => rfl) (fun _ _ => rfl)
      ⟨by decide, by decide, by decide, by decide, by decide⟩
  obtain ⟨reqs, hverify, hsteps, -⟩ := (hround targetPredict hpredict).2
    ⟨fun _ => 0, fun _ => -1, fun _ => 0⟩ fun _ => rfl
  exact ⟨built, targetPredict, reqs, hbuild, hpredict, hverify, hsteps () List.mem_cons_self⟩

end Server

end SpecDecode.Eagle
