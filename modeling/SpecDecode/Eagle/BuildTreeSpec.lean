import SpecDecode.Eagle.BuildTree

/-!
# What a launch of `build_tree_efficient` computes

A request whose selection puts every token after its parent (`RowTree`) is a
`ParentTree`. Each thread of the kernel is specified against that tree on its
own cells, with everything else unchanged, and `Launch.Local` assembles the
batch. The loop invariants are `markAncestors_eq` for the mask rows and
`LinkInv` for the child lists.
-/

namespace SpecDecode.Eagle

open Function Buffer Launch

namespace TreeArgs

variable {a : TreeArgs}

/-- In the selection of request `bid` the parent of every token comes before it. -/
def RowTree (a : TreeArgs) (bid : Nat) : Prop :=
  ∀ i, 0 < i → i < a.draftTokenNum → a.parentPosition bid i < i

/-- The draft tree of request `bid`. Node `0` is the last verified token and
node `i` the `i`-th selected draft token. -/
def draftTree (a : TreeArgs) (bid : Nat) (h : a.RowTree bid) : ParentTree where
  parent i := if i < a.draftTokenNum then a.parentPosition bid i else 0
  parent_lt i hi := by
    by_cases hn : i < a.draftTokenNum
    · rw [if_pos hn]
      exact h i hi hn
    · rw [if_neg hn]
      exact hi

variable {bid tid bs : Nat} {b : TreeBuffers}

theorem draftTree_parent {i : Nat} (h : a.RowTree bid) (hn : i < a.draftTokenNum) :
    (a.draftTree bid h).parent i = a.parentPosition bid i := if_pos hn

theorem parentPosition_cases {i : Nat} (h : a.RowTree bid) (hi : 0 < i) (hn : i < a.draftTokenNum) :
    (a.selected bid (i - 1) / a.topk = 0 ∧ a.parentPosition bid i = 0) ∨
    (a.selected bid (i - 1) / a.topk ≠ 0 ∧ 0 < a.parentPosition bid i ∧
      a.findSelected bid (a.parentToken bid (a.selected bid (i - 1) / a.topk)) =
        a.parentPosition bid i - 1) := by
  have hlt := h i hi hn
  unfold parentPosition at hlt ⊢
  by_cases h0 : a.selected bid (i - 1) / a.topk = 0
  · exact .inl ⟨h0, by simp [h0]⟩
  · simp only [Nat.pos_of_ne_zero h0, if_true] at hlt ⊢
    by_cases hf : a.findSelected bid (a.parentToken bid (a.selected bid (i - 1) / a.topk)) <
        a.draftTokenNum
    · simp only [if_pos hf]
      exact .inr ⟨h0, Nat.succ_pos _, rfl⟩
    · rw [if_neg hf] at hlt
      omega

/-- The cells of a mask row that belong to the listed nodes, all set. -/
def markAll (tokenTreeIdx : Nat) (nodes : List Nat) (mask : Nat → Bool) : Nat → Bool :=
  nodes.foldl (fun m j => update m (tokenTreeIdx + (j - 1)) true) mask

theorem markAll_apply (tti : Nat) (nodes : List Nat) (mask : Nat → Bool) (x : Nat) :
    markAll tti nodes mask x = (decide (∃ j ∈ nodes, x = tti + (j - 1)) || mask x) := by
  induction nodes generalizing mask with
  | nil => simp [markAll]
  | cons j nodes ih =>
      change markAll tti nodes (update mask (tti + (j - 1)) true) x = _
      rw [ih]
      by_cases hx : x = tti + (j - 1)
      · simp [hx]
      · simp [hx]

/-- The walk from node `i` counts its depth and marks its lineage. -/
theorem markAncestors_eq (h : a.RowTree bid) (tti i : Nat) :
    ∀ fuel position mask, 0 < i → i < a.draftTokenNum → i ≤ fuel →
      a.markAncestors bid tti fuel (i - 1) position mask =
        some (position + (a.draftTree bid h).depth i,
          markAll tti ((a.draftTree bid h).lineage i) mask) := by
  induction i using (a.draftTree bid h).parent_induction with
  | root =>
      intro _ _ _ h0
      omega
  | node i hi ih =>
      intro fuel position mask _ hn hfuel
      obtain ⟨fuel, rfl⟩ : ∃ k, fuel = k + 1 := ⟨fuel - 1, by omega⟩
      have hlt := h i hi hn
      rw [ParentTree.depth_of_pos _ hi, ParentTree.lineage_of_pos _ hi]
      rw [draftTree_parent h hn] at ih ⊢
      unfold markAncestors
      rcases parentPosition_cases h hi hn with ⟨htb, hp⟩ | ⟨htb, hp, hfound⟩
      · simp [htb, hp, markAll]
      · simp only [htb, if_false, hfound]
        rw [ih fuel (position + 1) _ hp (by omega) (by omega)]
        simp only [Option.some.injEq, Prod.mk.injEq]
        exact ⟨by omega, rfl⟩

/-- The columns of a mask row in front of the root's. -/
def prefixLen (a : TreeArgs) (bid : Nat) : Nat :=
  if a.treeMaskMode = .fullMask then a.verifiedSeqLen bid else 0

/-- The first mask cell of request `bid`: the requests before it take one row of
`prefixLen + draft_token_num` cells for each of their tokens. -/
def maskBase (a : TreeArgs) (bid : Nat) : Nat :=
  ∑ b ∈ Finset.range bid, (a.prefixLen b + a.draftTokenNum) * a.draftTokenNum

def maskRow (a : TreeArgs) (bid tid : Nat) : Nat :=
  a.maskBase bid + (a.prefixLen bid + a.draftTokenNum) * tid

theorem maskBase_succ (bid : Nat) :
    a.maskBase (bid + 1) =
      a.maskBase bid + (a.prefixLen bid + a.draftTokenNum) * a.draftTokenNum :=
  Finset.sum_range_succ _ _

private theorem foldl_add_start (l : List Nat) (f : Nat → Nat) (x y : Nat) :
    l.foldl (fun idx i => idx + f i) (x + y) = l.foldl (fun idx i => idx + f i) x + y := by
  induction l generalizing x with
  | nil => rfl
  | cons i l ih =>
      rw [List.foldl_cons, List.foldl_cons, ← ih, Nat.add_right_comm]

private theorem seqTreeIdx_succ (bid : Nat) :
    a.seqTreeIdx (bid + 1) =
      a.seqTreeIdx bid + (a.verifiedSeqLen bid + a.draftTokenNum) * a.draftTokenNum := by
  unfold seqTreeIdx
  rw [List.range_succ, List.foldl_append, Nat.mul_succ, foldl_add_start]
  simp only [List.foldl_cons, List.foldl_nil]
  ring

/-- The offset each mode computes for a request is where its mask begins. -/
theorem maskBase_eq (bid : Nat) :
    a.maskBase bid = if a.treeMaskMode = .fullMask then a.seqTreeIdx bid
      else a.draftTokenNum * a.draftTokenNum * bid := by
  induction bid with
  | zero => simp [maskBase, seqTreeIdx]
  | succ bid ih =>
      rw [maskBase_succ, ih, prefixLen]
      by_cases h : a.treeMaskMode = .fullMask
      · simp only [if_pos h, seqTreeIdx_succ]
      · simp only [if_neg h]
        ring

theorem tokenTreeIdx_eq (bid tid : Nat) :
    a.tokenTreeIdx bid tid = a.maskRow bid tid + a.prefixLen bid + 1 := by
  rw [maskRow, maskBase_eq, tokenTreeIdx, prefixLen]
  by_cases h : a.treeMaskMode = .fullMask
  · simp only [if_pos h]
  · simp only [if_neg h, Nat.zero_add, Nat.add_zero]

theorem maskBase_mono {bid' : Nat} (h : bid ≤ bid') : a.maskBase bid ≤ a.maskBase bid' := by
  induction h with
  | refl => exact Nat.le_refl _
  | step _ ih => exact Nat.le_trans ih (by rw [maskBase_succ]; omega)

theorem maskRow_add_le (ht : tid < a.draftTokenNum) :
    a.maskRow bid tid + (a.prefixLen bid + a.draftTokenNum) ≤ a.maskBase (bid + 1) := by
  rw [maskRow, maskBase_succ, Nat.add_assoc, ← Nat.mul_succ]
  exact Nat.add_le_add_left (Nat.mul_le_mul_left _ ht) _

theorem maskRow_disjoint {bid' tid' : Nat} (ht : tid < a.draftTokenNum)
    (ht' : tid' < a.draftTokenNum) (hne : (bid, tid) ≠ (bid', tid')) :
    a.maskRow bid tid + (a.prefixLen bid + a.draftTokenNum) ≤ a.maskRow bid' tid' ∨
    a.maskRow bid' tid' + (a.prefixLen bid' + a.draftTokenNum) ≤ a.maskRow bid tid := by
  rcases Nat.lt_trichotomy bid bid' with hb | rfl | hb
  · left
    calc _ ≤ a.maskBase (bid + 1) := maskRow_add_le ht
      _ ≤ a.maskBase bid' := maskBase_mono hb
      _ ≤ a.maskRow bid' tid' := Nat.le_add_right _ _
  · unfold maskRow
    rcases Nat.lt_or_ge tid tid' with hlt | hge
    · left
      rw [Nat.add_assoc, ← Nat.mul_succ]
      exact Nat.add_le_add_left (Nat.mul_le_mul_left _ hlt) _
    · right
      have hlt : tid' < tid := by
        rcases Nat.lt_or_eq_of_le hge with h | h
        · exact h
        · exact absurd (by rw [h]) hne
      rw [Nat.add_assoc, ← Nat.mul_succ]
      exact Nat.add_le_add_left (Nat.mul_le_mul_left _ hlt) _
  · right
    calc _ ≤ a.maskBase (bid' + 1) := maskRow_add_le ht'
      _ ≤ a.maskBase bid := maskBase_mono hb
      _ ≤ a.maskRow bid tid := Nat.le_add_right _ _

theorem clearRow_eq (a : TreeArgs) {tti : Nat} (hn : 0 < a.draftTokenNum) (htti : 0 < tti)
    (mask : Nat → Bool) :
    a.clearRow tti mask = fill mask (tti - 1) a.draftTokenNum fun c => decide (c = 0) := by
  funext x
  rw [clearRow, fill_apply, fill_apply]
  by_cases hx : x = tti - 1
  · subst hx
    rw [if_neg (by omega), if_pos (by omega), update_self, Nat.sub_self]
    rfl
  · rw [update_of_ne hx]
    by_cases hin : tti - 1 ≤ x ∧ x < tti - 1 + a.draftTokenNum
    · rw [if_pos (by omega), if_pos hin]
      exact (decide_eq_false (by omega)).symm
    · rw [if_neg (by omega), if_neg hin]

/-- The row of token `tid`, from the root's cell on. -/
def rowBits (t : ParentTree) (tid c : Nat) : Bool := decide (c = 0 ∨ c ∈ t.lineage tid)

theorem markAll_clearRow {tti : Nat} (h : a.RowTree bid) (ht : tid < a.draftTokenNum)
    (htti : 0 < tti) (mask : Nat → Bool) :
    markAll tti ((a.draftTree bid h).lineage tid) (a.clearRow tti mask) =
      fill mask (tti - 1) a.draftTokenNum (rowBits (a.draftTree bid h) tid) := by
  funext x
  have hcell : ∀ j ∈ (a.draftTree bid h).lineage tid, 0 < j ∧ j < a.draftTokenNum := fun j hj =>
    ⟨((a.draftTree bid h).mem_lineage.mp hj).1,
      Nat.lt_of_le_of_lt ((a.draftTree bid h).le_of_mem_lineage hj) ht⟩
  rw [markAll_apply, clearRow_eq a (by omega) htti, fill_apply, fill_apply]
  by_cases hin : tti - 1 ≤ x ∧ x < tti - 1 + a.draftTokenNum
  · rw [if_pos hin, if_pos hin, rowBits, Bool.eq_iff_iff]
    simp only [Bool.or_eq_true, decide_eq_true_eq]
    constructor
    · rintro (⟨j, hj, rfl⟩ | h0)
      · have := (hcell j hj).1
        rw [show tti + (j - 1) - (tti - 1) = j by omega]
        exact .inr hj
      · exact .inl h0
    · rintro (h0 | hmem)
      · exact .inr h0
      · have := (hcell _ hmem).1
        exact .inl ⟨_, hmem, by omega⟩
  · rw [if_neg hin, if_neg hin, decide_eq_false, Bool.false_or]
    rintro ⟨j, hj, rfl⟩
    have := hcell j hj
    omega

/-- Thread `0` of request `bid` after it has linked the tokens above `m`,
relative to the buffers `b₀` it started from. -/
structure LinkInv (t : ParentTree) (n bid m : Nat) (b₀ b : TreeBuffers) : Prop where
  chains : ∀ v, v < n → Chain (row b.retriveNextSibling (bid * n))
    (b.retriveNextToken (bid * n + v)) (t.childrenFrom n (m + 1) v)
  fresh : ∀ i, i ≤ m → b.retriveNextSibling (bid * n + i) = -1
  index : ∀ i, m < i → i < n → b.retriveIndex (bid * n + i) = (bid * n + i : Nat)
  outside : ∀ x, x < bid * n ∨ bid * n + n ≤ x →
    b.retriveNextToken x = b₀.retriveNextToken x ∧
    b.retriveNextSibling x = b₀.retriveNextSibling x ∧ b.retriveIndex x = b₀.retriveIndex x
  mask : b.treeMask = b₀.treeMask
  pos : b.positions = b₀.positions
  warn : b.warnings = b₀.warnings

/-- A token with a selected parent joins its parent's list in front. Its own
sibling entry ends up as the old head whether or not that list was empty. -/
theorem linkToken_eq {i : Nat} (hp : a.parentPosition bid i ≠ a.draftTokenNum)
    (hfresh : b.retriveNextSibling (bid * a.draftTokenNum + i) = -1) :
    a.linkToken bid i b =
      { b with
        retriveIndex := update b.retriveIndex (bid * a.draftTokenNum + i)
          (bid * a.draftTokenNum + i : Nat)
        retriveNextToken := update b.retriveNextToken
          (bid * a.draftTokenNum + a.parentPosition bid i) i
        retriveNextSibling := update b.retriveNextSibling (bid * a.draftTokenNum + i)
          (b.retriveNextToken (bid * a.draftTokenNum + a.parentPosition bid i)) } := by
  unfold linkToken
  simp only [if_neg hp]
  split
  · next hempty =>
      rw [hempty, ← hfresh, update_eq_self]
  · rfl

theorem linkToken_inv {m : Nat} (h : a.RowTree bid) {b₀ : TreeBuffers}
    (hm : m + 1 < a.draftTokenNum)
    (inv : LinkInv (a.draftTree bid h) a.draftTokenNum bid (m + 1) b₀ b) :
    LinkInv (a.draftTree bid h) a.draftTokenNum bid m b₀ (a.linkToken bid (m + 1) b) := by
  have hp := h (m + 1) (Nat.succ_pos m) hm
  have hparent := draftTree_parent h hm
  rw [linkToken_eq (by omega) (inv.fresh (m + 1) (Nat.le_refl _))]
  generalize a.parentPosition bid (m + 1) = p at hp hparent ⊢
  refine ⟨?_, ?_, ?_, ?_, inv.mask, inv.pos, inv.warn⟩
  · intro v hv
    have hnotin : ∀ u, m + 1 ∉ (a.draftTree bid h).childrenFrom a.draftTokenNum (m + 2) u := by
      intro u hu
      rw [ParentTree.mem_childrenFrom] at hu
      omega
    rw [ParentTree.childrenFrom_of_lt _ hm, hparent]
    dsimp only
    rw [row_update_self]
    by_cases hvp : p = v
    · subst hvp
      rw [if_pos rfl, update_self]
      exact (inv.chains p hv).push (hnotin p)
    · rw [if_neg hvp, update_of_ne (by omega)]
      exact (inv.chains v hv).update_of_notMem (hnotin v)
  · intro i hi
    dsimp only
    rw [update_of_ne (by omega)]
    exact inv.fresh i (by omega)
  · intro i hi hin
    dsimp only
    by_cases him : i = m + 1
    · rw [him, update_self]
    · rw [update_of_ne (by omega)]
      exact inv.index i (by omega) hin
  · intro x hx
    dsimp only
    rw [update_of_ne (by omega), update_of_ne (by omega),
      update_of_ne (by omega)]
    exact inv.outside x hx

theorem linkTokens_inv (h : a.RowTree bid) {b₀ : TreeBuffers} (m : Nat) (hm : m < a.draftTokenNum)
    (inv : LinkInv (a.draftTree bid h) a.draftTokenNum bid m b₀ b) :
    LinkInv (a.draftTree bid h) a.draftTokenNum bid 0 b₀ (a.linkTokens bid m b) := by
  induction m generalizing b with
  | zero => exact inv
  | succ m ih => exact ih (by omega) (linkToken_inv h hm inv)

theorem linkInv_start {t : ParentTree} {n : Nat}
    (hfresh : ∀ v, v < n → b.retriveNextToken (bid * n + v) = -1 ∧
      b.retriveNextSibling (bid * n + v) = -1) (hn : 0 < n) : LinkInv t n bid (n - 1) b b := by
  refine ⟨?_, ?_, ?_, fun _ _ => ⟨rfl, rfl, rfl⟩, rfl, rfl, rfl⟩
  · intro v hv
    rw [(hfresh v hv).1, ParentTree.childrenFrom_of_le _ (by omega)]
    exact .nil
  · intro i hi
    exact (hfresh i (by omega)).2
  · intro i hi hin
    omega

def rootCell (a : TreeArgs) (bid tid : Nat) : Nat := a.maskRow bid tid + a.prefixLen bid

/-- What thread `tid` of block `bid` needs of the buffers: the committed prefix
of its row is visible and, for thread `0`, the child lists are empty. -/
structure ThreadPre (a : TreeArgs) (bid tid : Nat) (b : TreeBuffers) : Prop where
  committed : ∀ c, c < a.prefixLen bid → b.treeMask (a.maskRow bid tid + c) = true
  fresh : tid = 0 → ∀ v, v < a.draftTokenNum →
    b.retriveNextToken (bid * a.draftTokenNum + v) = -1 ∧
    b.retriveNextSibling (bid * a.draftTokenNum + v) = -1
  silent : b.warnings = []

structure ThreadPost (a : TreeArgs) (bid tid : Nat) (h : a.RowTree bid) (b : TreeBuffers) :
    Prop where
  committed : ∀ c, c < a.prefixLen bid → b.treeMask (a.maskRow bid tid + c) = true
  mask : ∀ c, c < a.draftTokenNum → (b.treeMask (a.rootCell bid tid + c) = true ↔
    c = 0 ∨ c ∈ (a.draftTree bid h).lineage tid)
  position : b.positions (bid * a.draftTokenNum + tid) =
    a.verifiedSeqLen bid + (a.draftTree bid h).depth tid
  index : tid = 0 → ∀ i, i < a.draftTokenNum →
    b.retriveIndex (bid * a.draftTokenNum + i) = (bid * a.draftTokenNum + i : Nat)
  chains : tid = 0 → ∀ v, v < a.draftTokenNum →
    Chain (row b.retriveNextSibling (bid * a.draftTokenNum))
      (b.retriveNextToken (bid * a.draftTokenNum + v))
      ((a.draftTree bid h).children a.draftTokenNum v)
  silent : b.warnings = []

structure ThreadEffect (a : TreeArgs) (bid tid : Nat) (b b' : TreeBuffers) : Prop where
  mask : ∀ x, x < a.rootCell bid tid ∨ a.rootCell bid tid + a.draftTokenNum ≤ x →
    b'.treeMask x = b.treeMask x
  position : ∀ x, x ≠ bid * a.draftTokenNum + tid → b'.positions x = b.positions x
  links : ∀ x, tid ≠ 0 ∨ x < bid * a.draftTokenNum ∨
      bid * a.draftTokenNum + a.draftTokenNum ≤ x →
    b'.retriveNextToken x = b.retriveNextToken x ∧
    b'.retriveNextSibling x = b.retriveNextSibling x ∧ b'.retriveIndex x = b.retriveIndex x
  warnings : b'.warnings = b.warnings

/-- The mask after thread `tid`: its row is stored from the root's cell on. -/
theorem markAll_tokenTreeIdx (h : a.RowTree bid) (ht : tid < a.draftTokenNum) (mask : Nat → Bool) :
    markAll (a.tokenTreeIdx bid tid) ((a.draftTree bid h).lineage tid)
        (a.clearRow (a.tokenTreeIdx bid tid) mask) =
      fill mask (a.rootCell bid tid) a.draftTokenNum (rowBits (a.draftTree bid h) tid) := by
  rw [tokenTreeIdx_eq, markAll_clearRow h ht (Nat.succ_pos _)]
  rfl

theorem buildTreeEfficient_root (h : a.RowTree bid) (hn : 0 < a.draftTokenNum)
    (hpre : a.ThreadPre bid 0 b) :
    ∃ b', a.buildTreeEfficient (bid, 0) b = some b' ∧ a.ThreadPost bid 0 h b' ∧
      a.ThreadEffect bid 0 b b' := by
  have hlineage := (a.draftTree bid h).lineage_zero
  set cleared : TreeBuffers :=
    { b with
      treeMask := a.clearRow (a.tokenTreeIdx bid 0) b.treeMask
      positions := update b.positions (bid * a.draftTokenNum) (a.verifiedSeqLen bid) }
    with hcleared
  have inv : LinkInv (a.draftTree bid h) a.draftTokenNum bid 0 cleared
      (a.linkTokens bid (a.draftTokenNum - 1) cleared) :=
    linkTokens_inv h _ (by omega) (linkInv_start (hpre.fresh rfl) hn)
  have hmask : (a.linkTokens bid (a.draftTokenNum - 1) cleared).treeMask =
      fill b.treeMask (a.rootCell bid 0) a.draftTokenNum (rowBits (a.draftTree bid h) 0) := by
    rw [inv.mask, ← markAll_tokenTreeIdx h hn, hlineage]
    rfl
  refine ⟨_, by simp only [buildTreeEfficient, if_neg (Nat.not_le.mpr hn), if_true]; rfl, ?_, ?_⟩
  · refine ⟨?_, ?_, ?_, ?_, ?_, inv.warn.trans hpre.silent⟩
    · intro c hc
      dsimp only
      rw [hmask, fill_outside (by unfold rootCell; omega)]
      exact hpre.committed c hc
    · intro c hc
      dsimp only
      rw [hmask, fill_inside hc, rowBits, decide_eq_true_eq]
    · dsimp only
      rw [inv.pos, hcleared, Nat.add_zero]
      simp
    · intro _ i hi
      dsimp only
      by_cases hi0 : i = 0
      · subst hi0
        simp
      · rw [update_of_ne (by omega)]
        exact inv.index i (by omega) hi
    · intro _ v hv
      exact inv.chains v hv
  · refine ⟨?_, ?_, ?_, inv.warn⟩
    · intro x hx
      dsimp only
      rw [hmask, fill_outside hx]
    · intro x hx
      dsimp only
      rw [inv.pos, hcleared]
      exact update_of_ne hx _ _
    · intro x hx
      have hout := inv.outside x (hx.resolve_left (by simp))
      refine ⟨hout.1, hout.2.1, ?_⟩
      dsimp only
      rw [update_of_ne (by omega)]
      exact hout.2.2

theorem buildTreeEfficient_node (h : a.RowTree bid) (h0 : 0 < tid)
    (ht : tid < a.draftTokenNum) (hpre : a.ThreadPre bid tid b) :
    ∃ b', a.buildTreeEfficient (bid, tid) b = some b' ∧ a.ThreadPost bid tid h b' ∧
      a.ThreadEffect bid tid b b' := by
  have hwalk := markAncestors_eq h (a.tokenTreeIdx bid tid) tid (a.draftTokenNum + 1) 0
    (a.clearRow (a.tokenTreeIdx bid tid) b.treeMask) h0 ht (by omega)
  rw [markAll_tokenTreeIdx h ht] at hwalk
  refine ⟨_, by
    simp only [buildTreeEfficient, if_neg (Nat.not_le.mpr ht), if_neg (Nat.ne_of_gt h0), hwalk]
    rfl, ?_, ?_⟩
  · refine ⟨?_, ?_, ?_, fun h00 => absurd h00 (by omega),
      fun h00 => absurd h00 (by omega), hpre.silent⟩
    · intro c hc
      dsimp only
      rw [fill_outside (by unfold rootCell; omega)]
      exact hpre.committed c hc
    · intro c hc
      dsimp only
      rw [fill_inside hc, rowBits, decide_eq_true_eq]
    · dsimp only
      rw [update_self]
      omega
  · refine ⟨fun x hx => fill_outside hx, ?_, fun _ _ => ⟨rfl, rfl, rfl⟩, rfl⟩
    intro x hx
    exact update_of_ne hx _ _

theorem mem_grid {p : Nat × Nat} : p ∈ a.grid bs ↔ p.1 < bs ∧ p.2 < a.draftTokenNum := by
  obtain ⟨bid, tid⟩ := p
  simp [grid]

theorem grid_nodup (bs : Nat) : (a.grid bs).Nodup :=
  List.Nodup.product List.nodup_range List.nodup_range

def posCell (a : TreeArgs) (p : Nat × Nat) : Nat := p.1 * a.draftTokenNum + p.2

theorem posCell_nodup (bs : Nat) : ((a.grid bs).map (a.posCell)).Nodup := by
  refine (grid_nodup bs).map_on fun p hp q hq heq => ?_
  have hp' := (mem_grid.mp hp).2
  have hq' := (mem_grid.mp hq).2
  by_cases hb : p.1 = q.1
  · refine Prod.ext hb ?_
    rw [posCell, posCell, hb] at heq
    omega
  · have hout := window_outside hq' hb
    rw [posCell, posCell] at heq
    omega

theorem exists_posCell {x : Nat} (hx : x < bs * a.draftTokenNum) :
    ∃ p ∈ a.grid bs, x = a.posCell p := by
  have hn : 0 < a.draftTokenNum := Nat.pos_of_ne_zero fun h0 => by
    rw [h0, Nat.mul_zero] at hx
    exact Nat.not_lt_zero x hx
  refine ⟨(x / a.draftTokenNum, x % a.draftTokenNum),
    mem_grid.mpr ⟨?_, Nat.mod_lt x hn⟩, ?_⟩
  · exact (Nat.div_lt_iff_lt_mul hn).mpr hx
  · rw [posCell, Nat.mul_comm]
    exact (Nat.div_add_mod x _).symm

/-- A cell of another token's row lies outside the cells thread `p` may write. -/
theorem maskRow_outside {p q : Nat × Nat} (hp : p ∈ a.grid bs) (hq : q ∈ a.grid bs)
    (hne : p ≠ q) {c : Nat} (hc : c < a.prefixLen q.1 + a.draftTokenNum) :
    a.maskRow q.1 q.2 + c < a.rootCell p.1 p.2 ∨
      a.rootCell p.1 p.2 + a.draftTokenNum ≤ a.maskRow q.1 q.2 + c := by
  unfold rootCell
  rcases maskRow_disjoint (a := a) (mem_grid.mp hp).2 (mem_grid.mp hq).2 hne with h | h
  · right
    omega
  · left
    omega

/-- The link cells of request `q.1` lie outside those thread `p` may write. -/
private theorem links_outside {p q : Nat × Nat} (hne : p ≠ q) (h0 : q.2 = 0) {v : Nat}
    (hv : v < a.draftTokenNum) :
    p.2 ≠ 0 ∨ q.1 * a.draftTokenNum + v < p.1 * a.draftTokenNum ∨
      p.1 * a.draftTokenNum + a.draftTokenNum ≤ q.1 * a.draftTokenNum + v := by
  by_cases hp : p.2 = 0
  · right
    exact window_outside hv (fun h => hne (Prod.ext h (hp.trans h0.symm)))
  · exact .inl hp

/-- The threads of a batch of trees are local to their own cells. -/
def threads (a : TreeArgs) (bs : Nat) (h : ∀ bid, bid < bs → a.RowTree bid) :
    Local a.buildTreeEfficient (a.grid bs) where
  pre p b := a.ThreadPre p.1 p.2 b
  post p b := ∀ h : a.RowTree p.1, a.ThreadPost p.1 p.2 h b
  effect p b b' := a.ThreadEffect p.1 p.2 b b'
  run := by
    rintro ⟨bid, tid⟩ hp b hpre
    obtain ⟨hbid, htid⟩ := mem_grid.mp hp
    have hrow := h bid hbid
    rcases Nat.eq_zero_or_pos tid with rfl | h0
    · obtain ⟨b', hrun, hpost, heff⟩ := buildTreeEfficient_root hrow htid hpre
      exact ⟨b', hrun, fun _ => hpost, heff⟩
    · obtain ⟨b', hrun, hpost, heff⟩ := buildTreeEfficient_node hrow h0 htid hpre
      exact ⟨b', hrun, fun _ => hpost, heff⟩
  keep_pre := by
    intro p hp q hq hne b b' heff hpre
    refine ⟨?_, ?_, heff.warnings.trans hpre.silent⟩
    · intro c hc
      rw [heff.mask _ (maskRow_outside hp hq hne (by omega))]
      exact hpre.committed c hc
    · intro h0 v hv
      obtain ⟨htok, hsib, _⟩ := heff.links _ (links_outside hne h0 hv)
      rw [htok, hsib]
      exact hpre.fresh h0 v hv
  keep_post := by
    intro p hp q hq hne b b' heff hpost hrow
    have hpost := hpost hrow
    refine ⟨?_, ?_, ?_, ?_, ?_, heff.warnings.trans hpost.silent⟩
    · intro c hc
      rw [heff.mask _ (maskRow_outside hp hq hne (by omega))]
      exact hpost.committed c hc
    · intro c hc
      have hout := maskRow_outside hp hq hne (c := a.prefixLen q.1 + c) (by omega)
      rw [rootCell, Nat.add_assoc, heff.mask _ hout, ← Nat.add_assoc]
      exact hpost.mask c hc
    · rw [heff.position]
      · exact hpost.position
      · intro heq
        have hq2 := (mem_grid.mp hq).2
        have hp2 := (mem_grid.mp hp).2
        by_cases hb : p.1 = q.1
        · exact hne (Prod.ext hb (by rw [hb] at heq; omega))
        · have := window_outside (i := q.2) hq2 hb
          omega
    · intro h0 i hi
      rw [(heff.links _ (links_outside hne h0 hi)).2.2]
      exact hpost.index h0 i hi
    · intro h0 v hv
      rw [(heff.links _ (links_outside hne h0 hv)).1]
      refine (hpost.chains h0 v hv).congr ?_
      intro i hi
      exact (heff.links _ (links_outside hne h0 (ParentTree.mem_children _ |>.mp hi).2.1)).2.1

/-- The buffers a launch starts from: everything visible, nothing linked.
`positions` is uninitialised memory. -/
def freshBuffers (positions : Nat → Nat) : TreeBuffers where
  treeMask := fun _ => true
  positions := positions
  retriveIndex := fun _ => -1
  retriveNextToken := fun _ => -1
  retriveNextSibling := fun _ => -1
  warnings := []

/-- A launch over a batch of trees terminates and leaves every thread's result. -/
theorem launchBuildTree_post (h : ∀ bid, bid < bs → a.RowTree bid) (positions : Nat → Nat) :
    ∃ b, a.launchBuildTree bs (freshBuffers positions) = some b ∧
      ∀ bid (hb : bid < bs) tid, tid < a.draftTokenNum → a.ThreadPost bid tid (h bid hb) b := by
  obtain ⟨b, hrun, hpost⟩ := (a.threads bs h).launch_post (grid_nodup bs) (freshBuffers positions)
    (fun _ _ => ⟨fun _ _ => rfl, fun _ _ _ => ⟨rfl, rfl⟩, rfl⟩)
  exact ⟨b, hrun, fun bid hb tid ht => hpost (bid, tid) (mem_grid.mpr ⟨hb, ht⟩) _⟩

end TreeArgs

end SpecDecode.Eagle
