import SpecDecode.Eagle.BuildTreeSpec
import SpecDecode.Eagle.DraftSpec

/-!
# Draft trees end to end

`draftArgs` lays the organized drafts of a batch out as the kernel reads them.
The selection of every request is a `RowTree`, because a parent is selected
before its children, so the kernel's result is the draft tree of the flat
layout: `draftTree_correct`.
-/

namespace SpecDecode.Eagle

open Buffer

variable {H : Type} {k : Nat}

/-- The kernel arguments for a batch: row `b` of `parent_list` and
`selected_index` is the organized draft of request `b`. -/
def draftArgs (ops : TorchOps) (draft : Nat → DraftModel k H) (steps n : Nat)
    (seqLens : Nat → Nat) (mode : TreeMaskMode) : TreeArgs where
  parentList := ofRows (k * (steps - 1) + 1) (fun b => ((draft b).organized ops steps n).1) 0
  selectedIndex := ofRows (n - 1) (fun b => (draft b).selectedIndex ops steps n) 0
  verifiedSeqLen := seqLens
  topk := k
  depth := steps
  draftTokenNum := n
  treeMaskMode := mode

/-- `t` is the tree of the flat layout on the selected tokens: node `i` is the
`i`-th selected token, tokens of step `0` hang off the root. -/
def IsDraftTree (ops : TorchOps) (m : DraftModel k H) (selected : List Nat) (t : ParentTree) :
    Prop :=
  ∀ i, 0 < i → i ≤ selected.length →
    (selected.getD (i - 1) 0 < k ∧ t.parent i = 0) ∨
    (0 < t.parent i ∧ t.parent i ≤ selected.length ∧
      m.FlatParent ops (selected.getD (i - 1) 0) (selected.getD (t.parent i - 1) 0))

/-- What the kernel leaves for one request with draft tree `t`. -/
structure TreeOutput (a : TreeArgs) (bid : Nat) (t : ParentTree) (b : TreeBuffers) : Prop where
  position : ∀ i, i < a.draftTokenNum →
    b.positions (bid * a.draftTokenNum + i) = a.verifiedSeqLen bid + t.depth i
  visible : ∀ i, i < a.draftTokenNum → ∀ c, c < a.prefixLen bid + a.draftTokenNum →
    (b.treeMask (a.maskRow bid i + c) = true ↔
      c < a.prefixLen bid ∨
        ∃ j, c = a.prefixLen bid + j ∧ (j = 0 ∨ t.Ancestor j i ∨ j = i))
  children : ∀ v, v < a.draftTokenNum →
    Chain (row b.retriveNextSibling (bid * a.draftTokenNum))
      (b.retriveNextToken (bid * a.draftTokenNum + v)) (t.children a.draftTokenNum v)
  index : ∀ i, i < a.draftTokenNum →
    b.retriveIndex (bid * a.draftTokenNum + i) = (bid * a.draftTokenNum + i : Nat)

section Rows

variable {ops : TorchOps} {draft : Nat → DraftModel k H} {steps n : Nat}
  {seqLens : Nat → Nat} {mode : TreeMaskMode}

theorem draftArgs_selected (bid : Nat) {p : Nat} (hp : p < n - 1) :
    (draftArgs ops draft steps n seqLens mode).selected bid p =
      ((draft bid).selectedIndex ops steps n).getD p 0 := by
  unfold TreeArgs.selected draftArgs
  exact ofRows_apply (fun b => (draft b).selectedIndex ops steps n) 0 hp

theorem draftArgs_parentToken (hk : 0 < k) (bid : Nat) {i b : Nat} (hi : i < steps) (hb : b < k) :
    (draftArgs ops draft (steps + 1) n seqLens mode).parentToken bid (1 + i * k + b) =
      ((draft bid).keptFlat ops i b : Int) := by
  obtain ⟨s, rfl⟩ : ∃ s, steps = s + 1 := ⟨steps - 1, by omega⟩
  have hbound : 1 + i * k + b < k * (s + 1) + 1 := by
    have := Nat.mul_le_mul_right k (Nat.succ_le_iff.mpr hi)
    rw [Nat.succ_mul, Nat.mul_comm (s + 1)] at this
    omega
  have hrow := ofRows_apply (fun b => ((draft b).organized ops (s + 2) n).1) 0 (b := bid) hbound
  unfold TreeArgs.parentToken draftArgs
  exact hrow.trans (by rw [DraftModel.organized_parentList, DraftModel.parents_getD hk hi hb])

variable (hk : 0 < k) (hn : n - 1 ≤ k + steps * (k * k))

include hk hn

/-- A selected token's parent is found at its own place, before the token. -/
theorem draftArgs_parentPosition (bid : Nat) {i : Nat} (hi : 0 < i) (hin : i < n) :
    (((draft bid).selectedIndex ops (steps + 1) n).getD (i - 1) 0 < k ∧
      (draftArgs ops draft (steps + 1) n seqLens mode).parentPosition bid i = 0) ∨
    ∃ q, q < i - 1 ∧
      (draftArgs ops draft (steps + 1) n seqLens mode).parentPosition bid i = q + 1 ∧
      (draft bid).FlatParent ops (((draft bid).selectedIndex ops (steps + 1) n).getD (i - 1) 0)
        (((draft bid).selectedIndex ops (steps + 1) n).getD q 0) := by
  set sel := (draft bid).selectedIndex ops (steps + 1) n with hsel
  have hlen : sel.length = n - 1 := DraftModel.selectedIndex_length hn
  have hstrict : sel.Pairwise (· < ·) := DraftModel.selectedIndex_strict hn
  have hmem : sel.getD (i - 1) 0 ∈ sel := by
    rw [List.getD_eq_getElem _ _ (by omega)]
    exact List.getElem_mem _
  have hself : (draftArgs ops draft (steps + 1) n seqLens mode).selected bid (i - 1) =
      sel.getD (i - 1) 0 := draftArgs_selected bid (by omega)
  unfold TreeArgs.parentPosition
  rw [hself]
  change (_ ∧ (if 0 < sel.getD (i - 1) 0 / k then _ else 0) = 0) ∨ ∃ q, q < i - 1 ∧
    (if 0 < sel.getD (i - 1) 0 / k then _ else 0) = q + 1 ∧ _
  by_cases hfirst : sel.getD (i - 1) 0 < k
  · left
    rw [if_neg (by rw [Nat.div_eq_of_lt hfirst]; omega)]
    exact ⟨hfirst, rfl⟩
  · right
    obtain ⟨s, b, j, hs, hb, hj, hform, hdiv⟩ := DraftModel.exists_flatParent hk
      (Nat.le_of_not_lt hfirst) (DraftModel.selectedIndex_lt hn hmem)
    have hparent : (draft bid).FlatParent ops (sel.getD (i - 1) 0)
        ((draft bid).keptFlat ops s b) := by
      rw [hform]
      exact .child s hb hj
    have hgmem : (draft bid).keptFlat ops s b ∈ sel :=
      DraftModel.selected_closed hn hk hmem hparent
    obtain ⟨q, hq, hqval⟩ := List.mem_iff_getElem.mp hgmem
    have hbefore : sel[q] < sel.getD (i - 1) 0 := by
      rw [hqval, hform]
      exact (DraftModel.child_le_parent ops (draft bid) hk hs hb hj).1
    -- Strict order turns "smaller flat index" into "earlier position".
    have hqi : q < i - 1 := by
      by_contra hge
      rw [List.getD_eq_getElem _ _ (by omega)] at hbefore
      rcases Nat.eq_or_lt_of_le (Nat.le_of_not_lt hge) with heq | hlt
      · simp [heq] at hbefore
      · have := List.pairwise_iff_getElem.mp hstrict (i - 1) q (by omega) hq hlt
        omega
    have hfound : (draftArgs ops draft (steps + 1) n seqLens mode).findSelected bid
        ((draft bid).keptFlat ops s b : Int) = q := by
      apply findFrom_eq (Nat.zero_le q)
      · change q < 0 + n
        omega
      · rw [draftArgs_selected bid (by omega), ← hsel, List.getD_eq_getElem _ _ hq, hqval]
        simp
      · intro q' _ hq'
        have := List.pairwise_iff_getElem.mp hstrict q' q (by omega) hq hq'
        rw [draftArgs_selected bid (by omega), ← hsel, List.getD_eq_getElem _ _ (by omega)]
        rw [hqval] at this
        simp only [Nat.cast_inj, decide_eq_false_iff_not]
        omega
    have hrow : sel.getD (i - 1) 0 / (draftArgs ops draft (steps + 1) n seqLens mode).topk =
        1 + s * k + b := hdiv
    rw [if_pos (by rw [hdiv]; omega), hrow, draftArgs_parentToken hk bid hs hb, hfound]
    refine ⟨q, hqi, if_pos (by change q < n; omega), ?_⟩
    rw [List.getD_eq_getElem _ _ hq, hqval]
    exact hparent

theorem draftArgs_rowTree (bid : Nat) :
    (draftArgs ops draft (steps + 1) n seqLens mode).RowTree bid := by
  intro i hi hin
  rcases draftArgs_parentPosition hk hn bid hi hin with ⟨_, h⟩ | ⟨q, hq, h, _⟩
  · rw [h]
    exact hi
  · rw [h]
    omega

theorem draftTree_isDraftTree (bid : Nat) :
    IsDraftTree ops (draft bid) ((draft bid).selectedIndex ops (steps + 1) n)
      ((draftArgs ops draft (steps + 1) n seqLens mode).draftTree bid
        (draftArgs_rowTree hk hn bid)) := by
  intro i hi hle
  rw [DraftModel.selectedIndex_length hn] at hle ⊢
  rw [TreeArgs.draftTree_parent _ (show i < n by omega)]
  rcases draftArgs_parentPosition hk hn bid hi (show i < n by omega) with
    ⟨hfirst, h⟩ | ⟨q, hq, h, hparent⟩
  · exact .inl ⟨hfirst, h⟩
  · right
    rw [h, Nat.add_sub_cancel]
    exact ⟨Nat.succ_pos q, by omega, hparent⟩

end Rows

/-- The per-thread results, read as the output for the whole request. -/
theorem TreeArgs.treeOutput {a : TreeArgs} {bid : Nat} {h : a.RowTree bid} {b : TreeBuffers}
    (hn : 0 < a.draftTokenNum) (hpost : ∀ tid, tid < a.draftTokenNum → a.ThreadPost bid tid h b) :
    TreeOutput a bid (a.draftTree bid h) b where
  position i hi := (hpost i hi).position
  visible i hi c hc := by
    rcases Nat.lt_or_ge c (a.prefixLen bid) with hlt | hge
    · simp [(hpost i hi).committed c hlt, hlt]
    · obtain ⟨j, rfl⟩ := Nat.exists_eq_add_of_le hge
      have hmask := (hpost i hi).mask j (by omega)
      rw [TreeArgs.rootCell, Nat.add_assoc] at hmask
      rw [hmask, ParentTree.mem_lineage]
      constructor
      · rintro (rfl | ⟨_, rfl | hanc⟩)
        · exact .inr ⟨0, rfl, .inl rfl⟩
        · exact .inr ⟨j, rfl, .inr (.inr rfl)⟩
        · exact .inr ⟨j, rfl, .inr (.inl hanc)⟩
      · rintro (hlt | ⟨j', hj', hcase⟩)
        · omega
        · obtain rfl : j = j' := by omega
          rcases Nat.eq_zero_or_pos j with h0 | hpos
          · exact .inl h0
          · rcases hcase with h0 | hanc | rfl
            · omega
            · exact .inr ⟨hpos, .inr hanc⟩
            · exact .inr ⟨hpos, .inl rfl⟩
  children v hv := (hpost 0 hn).chains rfl v hv
  index i hi := (hpost 0 hn).index rfl i hi

/-- For every draft, every `topk`, number of steps and number of draft tokens
in range, the kernel terminates without a warning. The selection of each request
is closed under parents, and positions, mask rows and child lists are those of
its draft tree. -/
theorem draftTree_correct (ops : TorchOps) (hk : 1 ≤ k) {steps : Nat} (hsteps : 1 ≤ steps)
    {n : Nat} (hn : 1 ≤ n) (hmax : n - 1 ≤ k + (steps - 1) * (k * k)) (bs : Nat)
    (draft : Nat → DraftModel k H) (seqLens : Nat → Nat) (mode : TreeMaskMode)
    (positions : Nat → Nat) :
    ∃ b, (draftArgs ops draft steps n seqLens mode).launchBuildTree bs
        (TreeArgs.freshBuffers positions) = some b ∧ b.warnings = [] ∧
      ∀ bid, bid < bs →
        (∀ f ∈ (draft bid).selectedIndex ops steps n, ∀ g, (draft bid).FlatParent ops f g →
          g ∈ (draft bid).selectedIndex ops steps n) ∧
        ∃ t, IsDraftTree ops (draft bid) ((draft bid).selectedIndex ops steps n) t ∧
          TreeOutput (draftArgs ops draft steps n seqLens mode) bid t b := by
  obtain ⟨s, rfl⟩ : ∃ s, steps = s + 1 := ⟨steps - 1, by omega⟩
  have hrows : ∀ bid, bid < bs →
      (draftArgs ops draft (s + 1) n seqLens mode).RowTree bid := fun bid _ =>
    draftArgs_rowTree hk hmax bid
  obtain ⟨b, hrun, hpost⟩ := TreeArgs.launchBuildTree_post hrows positions
  refine ⟨b, hrun, ?_, ?_⟩
  · rcases Nat.eq_zero_or_pos bs with rfl | hbs
    · have hb : TreeArgs.freshBuffers positions = b := Option.some.inj hrun
      rw [← hb]
      rfl
    · exact (hpost 0 hbs 0 hn).silent
  · intro bid hbid
    refine ⟨fun f hf g hfg => DraftModel.selected_closed hmax hk hf hfg, _,
      draftTree_isDraftTree hk hmax bid, TreeArgs.treeOutput hn (hpost bid hbid)⟩

/-- Two tokens offered at every step, the first with probability `1`: the tree
has ties at every depth. -/
def evenDraft : DraftModel 2 Unit where
  first := ⟨[1, 1 / 2], [5, 6], [()]⟩
  forward _ _ _ := ⟨[1, 1 / 2, 1, 1 / 2], [7, 8, 7, 8], [(), ()]⟩
  first_length := rfl
  forward_length _ _ _ := rfl
  first_prob p hp := by
    rcases List.mem_pair.mp hp with rfl | rfl <;> norm_num
  forward_prob _ _ _ p hp := by
    have hcases : p = 1 ∨ p = 1 / 2 := by simpa [or_comm, or_left_comm] using hp
    rcases hcases with rfl | rfl <;> norm_num

theorem draftTree_correct_evenDraft :
    ∃ b, (draftArgs stableOps (fun _ => evenDraft) 3 5 (fun _ => 4) .fullMask).launchBuildTree 2
        (TreeArgs.freshBuffers fun _ => 0) = some b ∧ b.warnings = [] ∧
      ∀ bid, bid < 2 →
        (∀ f ∈ evenDraft.selectedIndex stableOps 3 5, ∀ g, evenDraft.FlatParent stableOps f g →
          g ∈ evenDraft.selectedIndex stableOps 3 5) ∧
        ∃ t, IsDraftTree stableOps evenDraft (evenDraft.selectedIndex stableOps 3 5) t ∧
          TreeOutput (draftArgs stableOps (fun _ => evenDraft) 3 5 (fun _ => 4) .fullMask) bid t
          b :=
  draftTree_correct stableOps (by decide) (by decide) (by decide) (by decide) 2
    (fun _ => evenDraft) (fun _ => 4) .fullMask (fun _ => 0)

end SpecDecode.Eagle
