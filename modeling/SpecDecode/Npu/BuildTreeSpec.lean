import SpecDecode.Npu.BuildTree

/-!
# The AscendC kernel against the CUDA kernel

The tiles of the cores are consecutive, so the cores together process each row of
the batch once (`coreRows_eq_range`). A row's links and positions are those of the
CUDA threads; its mask rows are stored at `tokenTreeIdx`, which in `QLEN_ONLY`
mode does not depend on the token (`processRow_eq`).
-/

namespace SpecDecode.Npu

open Function Buffer Launch Eagle

namespace Tiling

variable {t : Tiling}

theorem bsOffset_add (hle : t.smallCoreTileNum ≤ t.bigCoreTileNum) (k : Nat) :
    t.bsOffset (t.bigCoreNum + k) = t.bigCoreNum * t.bigCoreTileNum + k * t.smallCoreTileNum := by
  obtain ⟨d, hd⟩ := Nat.exists_eq_add_of_le hle
  rw [bsOffset, if_neg (by omega), Nat.add_sub_cancel_left, hd, Nat.add_sub_cancel_left,
    show (t.bigCoreNum + k) * (t.smallCoreTileNum + d) =
      t.bigCoreNum * (t.smallCoreTileNum + d) + k * t.smallCoreTileNum + d * k by ring,
    Nat.add_sub_cancel]

private theorem bsOffset_succ (hle : t.smallCoreTileNum ≤ t.bigCoreTileNum) (core : Nat) :
    t.bsOffset (core + 1) = t.bsOffset core + t.bsPerCore core := by
  rcases Nat.lt_or_ge core t.bigCoreNum with hlt | hge
  · have hend : t.bsOffset (core + 1) = (core + 1) * t.bigCoreTileNum := by
      rcases Nat.eq_or_lt_of_le (Nat.succ_le_of_lt hlt) with heq | hlt'
      · have := bsOffset_add hle 0
        rwa [Nat.add_zero, ← heq, Nat.zero_mul, Nat.add_zero] at this
      · exact if_pos hlt'
    rw [hend, bsOffset, bsPerCore, if_pos hlt, if_pos hlt, Nat.succ_mul]
  · obtain ⟨k, rfl⟩ := Nat.exists_eq_add_of_le hge
    rw [Nat.add_assoc, bsOffset_add hle, bsOffset_add hle, bsPerCore, if_neg (by omega),
      Nat.succ_mul, Nat.add_assoc]

theorem flatMap_coreRows (hle : t.smallCoreTileNum ≤ t.bigCoreTileNum) (h0 : 0 < t.bigCoreNum)
    (cores : Nat) : (List.range cores).flatMap t.coreRows = List.range (t.bsOffset cores) := by
  induction cores with
  | zero => simp [bsOffset, h0]
  | succ core ih =>
      rw [List.range_succ, List.flatMap_append, ih, bsOffset_succ hle, List.range_add]
      simp [coreRows]

end Tiling

theorem ceilDiv_eq (m : Nat) {d : Nat} (hd : 0 < d) :
    (m + d - 1) / d = m / d + if m % d = 0 then 0 else 1 := by
  have hdiv := Nat.div_add_mod m d
  have hmod := Nat.mod_lt m hd
  split
  · next h =>
      have hsplit : m + d - 1 = d * (m / d) + (d - 1) := by omega
      rw [hsplit, Nat.mul_add_div hd, Nat.div_eq_of_lt (show d - 1 < d by omega)]
  · next h =>
      have hsplit : m + d - 1 = d * (m / d + 1) + (m % d - 1) := by
        rw [Nat.mul_succ]
        omega
      rw [hsplit, Nat.mul_add_div hd, Nat.div_eq_of_lt (show m % d - 1 < d by omega)]

variable {maxAivCore batchSize : Nat}

/-- The big tile is the small one, plus a row when the batch does not divide. -/
private theorem bigCoreTileNum_eq (hd : 0 < min maxAivCore batchSize) :
    (getTiling maxAivCore batchSize).bigCoreTileNum =
      (getTiling maxAivCore batchSize).smallCoreTileNum +
        if batchSize % min maxAivCore batchSize = 0 then 0 else 1 :=
  ceilDiv_eq batchSize hd

theorem coreRows_eq_range (hcore : 0 < maxAivCore) (hbs : 0 < batchSize) :
    (List.range (getTiling maxAivCore batchSize).blockDim).flatMap
      (getTiling maxAivCore batchSize).coreRows = List.range batchSize := by
  have hd : 0 < min maxAivCore batchSize := by omega
  have hbig := bigCoreTileNum_eq hd
  have hle : (getTiling maxAivCore batchSize).smallCoreTileNum ≤
      (getTiling maxAivCore batchSize).bigCoreTileNum := by omega
  have hdiv := Nat.div_add_mod batchSize (min maxAivCore batchSize)
  have hmod := Nat.mod_lt batchSize hd
  -- The last core's tile ends at the last row, whether or not the batch divides.
  have hend : 0 < (getTiling maxAivCore batchSize).bigCoreNum ∧
      (getTiling maxAivCore batchSize).bsOffset (getTiling maxAivCore batchSize).blockDim =
        batchSize := by
    have hblock : (getTiling maxAivCore batchSize).blockDim = min maxAivCore batchSize := rfl
    have hsmall : (getTiling maxAivCore batchSize).smallCoreTileNum =
        batchSize / min maxAivCore batchSize := rfl
    by_cases h0 : batchSize % min maxAivCore batchSize = 0
    · have hnum : (getTiling maxAivCore batchSize).bigCoreNum = min maxAivCore batchSize :=
        if_pos h0
      refine ⟨by omega, ?_⟩
      have hoffset := Tiling.bsOffset_add hle 0
      rw [hnum, hbig, if_pos h0, hsmall] at hoffset
      rw [hblock]
      simpa [h0] using hoffset.trans (by simpa [h0] using hdiv)
    · have hnum : (getTiling maxAivCore batchSize).bigCoreNum =
          batchSize % min maxAivCore batchSize := if_neg h0
      refine ⟨by omega, ?_⟩
      have hoffset := Tiling.bsOffset_add hle
        (min maxAivCore batchSize - batchSize % min maxAivCore batchSize)
      rw [hnum, hbig, if_neg h0, hsmall, Nat.add_sub_cancel' hmod.le, Nat.mul_succ,
        Nat.add_right_comm, ← Nat.add_mul, Nat.add_sub_cancel' hmod.le, hdiv] at hoffset
      exact hoffset
  rw [Tiling.flatMap_coreRows hle hend.1, hend.2]

section Pointers

/-- An entry of row `bid` of a core, addressed through the core's pointer. -/
theorem rowAddress (width bsOffset bid p : Nat) :
    width * bsOffset + (bid * width + p) = (bsOffset + bid) * width + p := by
  ring

variable (a : TreeArgs) (bsOffset bid : Nat)

@[simp] theorem coreArgs_selected (p : Nat) :
    (coreArgs a bsOffset).selected bid p = a.selected (bsOffset + bid) p :=
  congrArg a.selectedIndex (rowAddress _ bsOffset bid p)

@[simp] theorem coreArgs_parentToken (q : Nat) :
    (coreArgs a bsOffset).parentToken bid q = a.parentToken (bsOffset + bid) q :=
  congrArg a.parentList (rowAddress _ bsOffset bid q)

@[simp] theorem coreArgs_findSelected (token : Int) :
    (coreArgs a bsOffset).findSelected bid token = a.findSelected (bsOffset + bid) token := by
  simp only [TreeArgs.findSelected, coreArgs_selected]
  rfl

@[simp] theorem coreArgs_parentPosition (i : Nat) :
    (coreArgs a bsOffset).parentPosition bid i = a.parentPosition (bsOffset + bid) i := by
  simp only [TreeArgs.parentPosition, coreArgs_selected, coreArgs_parentToken,
    coreArgs_findSelected]
  rfl

@[simp] theorem coreArgs_markAncestors (tti fuel cur position : Nat) (mask : Nat → Bool) :
    (coreArgs a bsOffset).markAncestors bid tti fuel cur position mask =
      a.markAncestors (bsOffset + bid) tti fuel cur position mask := by
  induction fuel generalizing cur position mask with
  | zero => rfl
  | succ fuel ih =>
      simp only [TreeArgs.markAncestors, coreArgs_selected, coreArgs_parentToken,
        coreArgs_findSelected, ih]
      rfl

private theorem linkTokens_offset (m : Nat) (ub : LocalBuffers) :
    linkTokens a bsOffset bid m ub = linkTokens a 0 (bsOffset + bid) m ub := by
  induction m generalizing ub with
  | zero => rfl
  | succ m ih =>
      simp only [linkTokens, ih]
      congr 1
      simp only [linkToken, coreArgs_parentPosition, Nat.zero_add]

theorem processRow_offset (stale : Nat → Stale) (b : TreeBuffers) :
    processRow a stale bsOffset bid b = processRow a stale 0 (bsOffset + bid) b := by
  have hcompute : compute a bsOffset bid = compute a 0 (bsOffset + bid) := by
    funext stale tid s
    simp only [compute, linkTokens_offset a bsOffset bid, linkTokens_offset a 0 (bsOffset + bid),
      coreArgs_markAncestors, Nat.zero_add]
  have hcopy : copyOut a bsOffset bid = copyOut a 0 (bsOffset + bid) := by
    funext ub b
    simp only [copyOut, Nat.mul_zero, Nat.zero_add, Nat.add_mul, Nat.mul_comm bsOffset]
  simp only [processRow, hcompute, hcopy, Nat.zero_add]

end Pointers

theorem buildTreeEfficient_eq (a : TreeArgs) (hcore : 0 < maxAivCore)
    (hbs : 0 < batchSize) (hmode : a.treeMaskMode ≠ .qlenOnlyBitpacking) (stale : Nat → Stale)
    (b : TreeBuffers) :
    buildTreeEfficient a maxAivCore batchSize stale b =
      launch (processRow a stale 0) (List.range batchSize) b := by
  rw [← coreRows_eq_range hcore hbs, ← launch_flatMap, buildTreeEfficient, if_neg hmode]
  refine launch_congr (fun core _ b => ?_) b
  rw [Tiling.coreRows, launch_map]
  exact launch_congr (fun bid _ b => processRow_offset a _ bid stale b) b

section Row

variable {a : TreeArgs} {bid : Nat}

/-- Thread `0` of the CUDA kernel and the link loop of the row, after linking the
tokens above `m`: the CUDA buffers are those of `g` with the local ones in the row. -/
structure LinkSim (n bid m : Nat) (g c : TreeBuffers) (ub : LocalBuffers) : Prop where
  token : c.retriveNextToken = fill g.retriveNextToken (bid * n) n ub.retriveNextToken
  sibling : c.retriveNextSibling = fill g.retriveNextSibling (bid * n) n ub.retriveNextSibling
  index : ∀ j, m < j → j < n → ub.retriveIndex j = (bid * n + j : Nat)

theorem linkToken_sim {m : Nat} (h : a.RowTree bid) (hm : m + 1 < a.draftTokenNum)
    {g c : TreeBuffers} {ub : LocalBuffers} (sim : LinkSim a.draftTokenNum bid (m + 1) g c ub) :
    LinkSim a.draftTokenNum bid m g (a.linkToken bid (m + 1) c) (linkToken a 0 bid (m + 1) ub) := by
  have hp := h (m + 1) (Nat.succ_pos m) hm
  have hread : c.retriveNextToken (bid * a.draftTokenNum + a.parentPosition bid (m + 1)) =
      ub.retriveNextToken (a.parentPosition bid (m + 1)) := by
    rw [sim.token, fill_inside (by omega)]
  have hindex : ∀ j, m < j → j < a.draftTokenNum →
      update ub.retriveIndex (m + 1) (bid * a.draftTokenNum + (m + 1) : Nat) j =
        (bid * a.draftTokenNum + j : Nat) := by
    intro j hj hjn
    by_cases hjm : j = m + 1
    · rw [hjm, update_self]
    · rw [update_of_ne hjm, sim.index j (by omega) hjn]
  unfold TreeArgs.linkToken linkToken
  simp only [coreArgs_parentPosition, Nat.zero_add, hread,
    if_neg (show a.parentPosition bid (m + 1) ≠ a.draftTokenNum by omega)]
  split
  · refine ⟨?_, sim.sibling, hindex⟩
    dsimp only
    rw [sim.token, update_fill _ _ _ _ (by omega)]
  · refine ⟨?_, ?_, hindex⟩
    · dsimp only
      rw [sim.token, update_fill _ _ _ _ (by omega)]
    · dsimp only
      rw [sim.sibling, update_fill _ _ _ _ hm]

theorem linkTokens_sim (h : a.RowTree bid) (m : Nat) (hm : m < a.draftTokenNum)
    {g c : TreeBuffers} {ub : LocalBuffers} (sim : LinkSim a.draftTokenNum bid m g c ub) :
    LinkSim a.draftTokenNum bid 0 g (a.linkTokens bid m c) (linkTokens a 0 bid m ub) := by
  induction m generalizing c ub with
  | zero => exact sim
  | succ m ih => exact ih (by omega) (linkToken_sim h hm sim)

@[simp] theorem linkTokens_positions (m : Nat) (ub : LocalBuffers) :
    (linkTokens a 0 bid m ub).positions = ub.positions := by
  induction m generalizing ub with
  | zero => rfl
  | succ m ih =>
      rw [linkTokens, ih]
      unfold linkToken
      dsimp only
      split
      · rfl
      · split <;> rfl

/-- The mask after the first `count` tokens have stored their rows at `base`. -/
def storeRows (t : ParentTree) (n : Nat) (base : Nat → Nat) :
    (count : Nat) → (Nat → Bool) → (Nat → Bool)
  | 0, mask => mask
  | tid + 1, mask => fill (storeRows t n base tid mask) (base tid) n (TreeArgs.rowBits t tid)

variable (a) in
def linkedRow (bid : Nat) (ub : LocalBuffers) : LocalBuffers :=
  let linked := linkTokens a 0 bid (a.draftTokenNum - 1)
    { ub with positions := update ub.positions 0 (a.verifiedSeqLen bid) }
  { linked with
    retriveIndex := update linked.retriveIndex 0 (bid * a.draftTokenNum : Nat) }

/-- The row of the batch `b` after `count` tokens, with the links of `ub`. -/
def rowBuffers (n bid : Nat) (pos : Nat → Nat) (b : TreeBuffers) (mask : Nat → Bool)
    (ub : LocalBuffers) (count : Nat) : TreeBuffers where
  treeMask := mask
  positions := fill b.positions (bid * n) count pos
  retriveIndex := fill b.retriveIndex (bid * n) n ub.retriveIndex
  retriveNextToken := fill b.retriveNextToken (bid * n) n ub.retriveNextToken
  retriveNextSibling := fill b.retriveNextSibling (bid * n) n ub.retriveNextSibling
  warnings := b.warnings

variable (a) in
def rowPos (bid : Nat) (h : a.RowTree bid) (tid : Nat) : Nat :=
  (a.draftTree bid h).depth tid + a.verifiedSeqLen bid

private theorem linkedRow_positions (h : a.RowTree bid) (ub : LocalBuffers) :
    (linkedRow a bid ub).positions = fill ub.positions 0 1 (rowPos a bid h) := by
  rw [linkedRow]
  dsimp only
  rw [linkTokens_positions, fill_succ, fill_zero, rowPos, ParentTree.depth_zero, Nat.zero_add,
    Nat.zero_add]

theorem launch_compute (h : a.RowTree bid) (stale : Nat → Nat → Bool) (ub : LocalBuffers)
    (m : Nat → Bool) (count : Nat) (hcount : count < a.draftTokenNum) :
    launch (compute a 0 bid stale) (List.range (count + 1)) (ub, m) =
      some
        ({ linkedRow a bid ub with positions := fill ub.positions 0 (count + 1) (rowPos a bid h) },
        storeRows (a.draftTree bid h) a.draftTokenNum (tokenTreeIdx a bid) (count + 1) m) := by
  have hmask : ∀ tid, tid < a.draftTokenNum → ∀ m : Nat → Bool,
      fill m (tokenTreeIdx a bid tid) a.draftTokenNum
        (TreeArgs.markAll 1 ((a.draftTree bid h).lineage tid) (a.clearRow 1 (stale tid))) =
      fill m (tokenTreeIdx a bid tid) a.draftTokenNum
        (TreeArgs.rowBits (a.draftTree bid h) tid) := by
    intro tid htid m
    rw [TreeArgs.markAll_clearRow h htid Nat.one_pos, fill_fill]
  induction count with
  | zero =>
      have hroot := hmask 0 hcount m
      rw [ParentTree.lineage_zero] at hroot
      simp only [List.range_one, launch_cons, compute, if_true, Nat.zero_add, Option.bind_some,
        launch_nil, Option.some.injEq, Prod.mk.injEq, storeRows]
      refine ⟨?_, hroot⟩
      rw [← linkedRow_positions]
      rfl
  | succ count ih =>
      have hwalk := TreeArgs.markAncestors_eq h 1 (count + 1) (a.draftTokenNum + 1) 0
        (a.clearRow 1 (stale (count + 1))) (Nat.succ_pos _) hcount (by omega)
      rw [List.range_succ, launch_append, ih (by omega)]
      simp only [Option.bind_some, launch_cons, compute, Nat.succ_ne_zero, if_false,
        coreArgs_markAncestors, Nat.zero_add, hwalk, hmask _ hcount, launch_nil]
      rw [fill_succ _ _ (count + 1), Nat.zero_add]
      rfl

theorem processRow_eq (h : a.RowTree bid) (hn : 0 < a.draftTokenNum) (stale : Nat → Stale)
    (b : TreeBuffers) (m : Nat → Bool) : processRow a stale 0 bid { b with treeMask := m } =
      some (rowBuffers a.draftTokenNum bid (rowPos a bid h) b
        (storeRows (a.draftTree bid h) a.draftTokenNum (tokenTreeIdx a bid) a.draftTokenNum m)
        (linkedRow a bid (unlink a.draftTokenNum (stale bid).buffers)) a.draftTokenNum) := by
  have hrun := launch_compute h (stale bid).mask (unlink a.draftTokenNum (stale bid).buffers) m
    (a.draftTokenNum - 1) (by omega)
  rw [Nat.sub_add_cancel hn] at hrun
  simp only [processRow, Nat.zero_add, hrun, copyOut, Nat.mul_zero, fill_fill]
  rfl

def FreshRow (n bid : Nat) (b : TreeBuffers) : Prop :=
  ∀ v, v < n → b.retriveNextToken (bid * n + v) = -1 ∧ b.retriveNextSibling (bid * n + v) = -1

/-- Thread `0` of the CUDA kernel leaves the links of the row's local buffers. -/
theorem buildTreeEfficient_zero (h : a.RowTree bid) (hn : 0 < a.draftTokenNum) {b : TreeBuffers}
    (hfresh : FreshRow a.draftTokenNum bid b) (old : LocalBuffers) :
    a.buildTreeEfficient (bid, 0) b =
      some (rowBuffers a.draftTokenNum bid (rowPos a bid h) b
        (storeRows (a.draftTree bid h) a.draftTokenNum (a.rootCell bid) 1 b.treeMask)
        (linkedRow a bid (unlink a.draftTokenNum old)) 1) := by
  set cleared : TreeBuffers :=
    { b with
      treeMask := a.clearRow (a.tokenTreeIdx bid 0) b.treeMask
      positions := update b.positions (bid * a.draftTokenNum) (a.verifiedSeqLen bid) }
    with hcleared
  have inv : TreeArgs.LinkInv (a.draftTree bid h) a.draftTokenNum bid 0 cleared
      (a.linkTokens bid (a.draftTokenNum - 1) cleared) :=
    TreeArgs.linkTokens_inv h _ (by omega) (TreeArgs.linkInv_start hfresh hn)
  have sim : LinkSim a.draftTokenNum bid 0 b (a.linkTokens bid (a.draftTokenNum - 1) cleared)
      (linkTokens a 0 bid (a.draftTokenNum - 1)
        { unlink a.draftTokenNum old with
          positions := update old.positions 0 (a.verifiedSeqLen bid) }) := by
    refine linkTokens_sim h _ (by omega) ⟨?_, ?_, fun j hj hjn => by omega⟩
    · exact ((fill_fill _ _ _ _ _).trans (fill_self fun i hi => (hfresh i hi).1)).symm
    · exact ((fill_fill _ _ _ _ _).trans (fill_self fun i hi => (hfresh i hi).2)).symm
  have hrun : a.buildTreeEfficient (bid, 0) b =
      some { a.linkTokens bid (a.draftTokenNum - 1) cleared with
        retriveIndex := update
          (a.linkTokens bid (a.draftTokenNum - 1) cleared).retriveIndex (bid * a.draftTokenNum)
          (bid * a.draftTokenNum : Nat) } := by
    simp only [TreeArgs.buildTreeEfficient, if_neg (Nat.not_le.mpr hn), if_true]
    rfl
  rw [hrun, Option.some.injEq]
  refine TreeBuffers.ext ?_ ?_ ?_ sim.token sim.sibling inv.warn
  · have hmask := TreeArgs.markAll_tokenTreeIdx h hn b.treeMask
    rw [ParentTree.lineage_zero] at hmask
    exact inv.mask.trans hmask
  · dsimp only
    rw [inv.pos, hcleared]
    simp only [rowBuffers, fill_succ, fill_zero, rowPos, ParentTree.depth_zero, Nat.zero_add,
      Nat.add_zero]
  · funext x
    dsimp only [rowBuffers, linkedRow]
    by_cases hx : bid * a.draftTokenNum ≤ x ∧ x < bid * a.draftTokenNum + a.draftTokenNum
    · obtain ⟨i, rfl⟩ := Nat.exists_eq_add_of_le hx.1
      rw [fill_inside (by omega)]
      by_cases hi : i = 0
      · subst hi
        simp
      · rw [update_of_ne (by omega), update_of_ne hi,
          inv.index i (by omega) (by omega)]
        exact (sim.index i (by omega) (by omega)).symm
    · rw [fill_outside (by omega), update_of_ne (by omega)]
      exact (inv.outside x (by omega)).2.2

theorem launch_block (h : a.RowTree bid) (hn : 0 < a.draftTokenNum) {b : TreeBuffers}
    (hfresh : FreshRow a.draftTokenNum bid b) (old : LocalBuffers) (count : Nat)
    (hcount : count < a.draftTokenNum) :
    launch a.buildTreeEfficient ((List.range (count + 1)).map (Prod.mk bid)) b =
      some (rowBuffers a.draftTokenNum bid (rowPos a bid h) b
        (storeRows (a.draftTree bid h) a.draftTokenNum (a.rootCell bid) (count + 1) b.treeMask)
        (linkedRow a bid (unlink a.draftTokenNum old)) (count + 1)) := by
  induction count with
  | zero =>
      have hroot := buildTreeEfficient_zero h hn hfresh old
      simp only [Nat.zero_add, List.range_one, List.map_cons, List.map_nil, launch_cons, hroot]
      rfl
  | succ count ih =>
      set mask := storeRows (a.draftTree bid h) a.draftTokenNum (a.rootCell bid) (count + 1)
        b.treeMask
      have hwalk := TreeArgs.markAncestors_eq h (a.tokenTreeIdx bid (count + 1)) (count + 1)
        (a.draftTokenNum + 1) 0 (a.clearRow (a.tokenTreeIdx bid (count + 1)) mask)
        (Nat.succ_pos _) hcount (by omega)
      rw [TreeArgs.markAll_tokenTreeIdx h hcount] at hwalk
      rw [List.range_succ, List.map_append, launch_append, ih (by omega)]
      simp only [Option.bind_some, List.map_cons, List.map_nil, launch_cons,
        TreeArgs.buildTreeEfficient, if_neg (Nat.not_le.mpr hcount), Nat.succ_ne_zero, if_false,
        rowBuffers, hwalk, launch_nil, Nat.zero_add]
      rw [fill_succ _ _ (count + 1)]
      rfl

/-- A row on the two devices: the same positions and links, and the mask rows at
each device's own offsets. -/
theorem row_sim (h : a.RowTree bid) (hn : 0 < a.draftTokenNum) (stale : Nat → Stale)
    {b : TreeBuffers} (hfresh : FreshRow a.draftTokenNum bid b) :
    ∃ c, launch a.buildTreeEfficient ((List.range a.draftTokenNum).map (Prod.mk bid)) b = some c ∧
      c.treeMask = storeRows (a.draftTree bid h) a.draftTokenNum (a.rootCell bid) a.draftTokenNum
        b.treeMask ∧
      (∀ q, q ≠ bid → FreshRow a.draftTokenNum q b → FreshRow a.draftTokenNum q c) ∧
      ∀ m, processRow a stale 0 bid { b with treeMask := m } =
        some { c with
          treeMask := storeRows (a.draftTree bid h) a.draftTokenNum (tokenTreeIdx a bid)
            a.draftTokenNum m } := by
  have hrun := launch_block h hn hfresh (stale bid).buffers (a.draftTokenNum - 1) (by omega)
  rw [Nat.sub_add_cancel hn] at hrun
  refine ⟨_, hrun, rfl, ?_, fun m => processRow_eq h hn stale b m⟩
  intro q hq hqfresh v hv
  obtain ⟨htoken, hsibling⟩ := hqfresh v hv
  have hout := window_outside hv (Ne.symm hq)
  exact ⟨(fill_outside hout).trans htoken, (fill_outside hout).trans hsibling⟩

end Row

section Batch

variable {a : TreeArgs}

theorem launchBuildTree_eq (bs : Nat) (b : TreeBuffers) :
    a.launchBuildTree bs b =
      launch (fun bid =>
        launch a.buildTreeEfficient ((List.range a.draftTokenNum).map (Prod.mk bid)))
        (List.range bs) b := by
  rw [launch_flatMap]
  rfl

/-- In `FULL_MASK` mode both kernels store a mask row at the same place. -/
theorem tokenTreeIdx_fullMask (hfull : a.treeMaskMode = .fullMask) (bid : Nat) :
    tokenTreeIdx a bid = a.rootCell bid := by
  funext tid
  simp only [tokenTreeIdx, TreeArgs.rootCell, TreeArgs.maskRow, TreeArgs.maskBase_eq,
    TreeArgs.prefixLen, if_pos hfull]

theorem tokenTreeIdx_qlen (hqlen : a.treeMaskMode ≠ .fullMask) (bid tid : Nat) :
    tokenTreeIdx a bid tid =
      a.draftTokenNum * a.draftTokenNum * bid + a.draftTokenNum * bid := if_neg hqlen

/-- Launches over the same rows leave the same positions and links, and in
`FULL_MASK` mode the same mask. -/
theorem launch_sim (hn : 0 < a.draftTokenNum) (stale : Nat → Stale) (rows : List Nat)
    (hnodup : rows.Nodup) (htree : ∀ bid ∈ rows, a.RowTree bid) (b : TreeBuffers)
    (hfresh : ∀ bid ∈ rows, FreshRow a.draftTokenNum bid b) (m : Nat → Bool) :
    ∃ c m', launch (fun bid =>
        launch a.buildTreeEfficient ((List.range a.draftTokenNum).map (Prod.mk bid))) rows b =
          some c ∧
      launch (processRow a stale 0) rows { b with treeMask := m } =
        some { c with treeMask := m' } ∧
      (a.treeMaskMode = .fullMask → m = b.treeMask → m' = c.treeMask) := by
  induction rows generalizing b m with
  | nil => exact ⟨b, m, rfl, rfl, fun _ h => h⟩
  | cons bid rows ih =>
      obtain ⟨hnotin, hnodup⟩ := List.nodup_cons.mp hnodup
      have h := htree bid (List.mem_cons_self ..)
      obtain ⟨c, hcuda, hmask, hkeep, hnpu⟩ :=
        row_sim h hn stale (hfresh bid (List.mem_cons_self ..))
      obtain ⟨c', m', hcuda', hnpu', hfull⟩ := ih hnodup
        (fun q hq => htree q (List.mem_cons_of_mem _ hq)) c
        (fun q hq => hkeep q (fun heq => hnotin (heq ▸ hq))
          (hfresh q (List.mem_cons_of_mem _ hq))) _
      refine ⟨c', m', ?_, ?_, ?_⟩
      · rw [launch_cons, hcuda]
        exact hcuda'
      · rw [launch_cons, hnpu]
        exact hnpu'
      · intro hmode hm
        refine hfull hmode ?_
        rw [hmask, hm, tokenTreeIdx_fullMask hmode]

theorem storeRows_outside {t : ParentTree} {n x : Nat} {base : Nat → Nat} (count : Nat)
    (h : ∀ tid, x < base tid ∨ base tid + n ≤ x) (m : Nat → Bool) :
    storeRows t n base count m x = m x := by
  induction count with
  | zero => rfl
  | succ count ih => rw [storeRows, fill_outside (h count), ih]

variable {stale : Nat → Stale} {bs : Nat}

theorem processRow_treeMask {bid : Nat} (h : a.RowTree bid) (hn : 0 < a.draftTokenNum)
    {b b' : TreeBuffers} (hrun : processRow a stale 0 bid b = some b') :
    b'.treeMask = storeRows (a.draftTree bid h) a.draftTokenNum (tokenTreeIdx a bid)
      a.draftTokenNum b.treeMask := by
  have heq := processRow_eq h hn stale b b.treeMask
  rw [show { b with treeMask := b.treeMask } = b from rfl, hrun] at heq
  rw [Option.some.inj heq]
  rfl

/-- The output tensors of two launches are the same. -/
structure SameOutput (a : TreeArgs) (bs : Nat) (cuda npu : TreeBuffers) : Prop where
  mask : ∀ x, x < a.maskBase bs → npu.treeMask x = cuda.treeMask x
  positions : ∀ x, x < bs * a.draftTokenNum → npu.positions x = cuda.positions x
  index : ∀ x, x < bs * a.draftTokenNum → npu.retriveIndex x = cuda.retriveIndex x
  token : ∀ x, x < bs * a.draftTokenNum → npu.retriveNextToken x = cuda.retriveNextToken x
  sibling : ∀ x, x < bs * a.draftTokenNum → npu.retriveNextSibling x = cuda.retriveNextSibling x

theorem SameOutput.trans_left {cuda npu other : TreeBuffers}
    (h : SameOutput a bs cuda other) (hagree : SameOutput a bs cuda npu) :
    SameOutput a bs npu other where
  mask x hx := (h.mask x hx).trans (hagree.mask x hx).symm
  positions x hx := (h.positions x hx).trans (hagree.positions x hx).symm
  index x hx := (h.index x hx).trans (hagree.index x hx).symm
  token x hx := (h.token x hx).trans (hagree.token x hx).symm
  sibling x hx := (h.sibling x hx).trans (hagree.sibling x hx).symm

/-- In `QLEN_ONLY` mode every token of request `0` stores its row in the first
`n` cells, so these end up with the row of the last token. -/
theorem qlen_lastCell (hn : 1 < a.draftTokenNum) (hqlen : a.treeMaskMode ≠ .fullMask)
    (hbs : 0 < bs) (h : ∀ bid, bid < bs → a.RowTree bid)
    {b d : TreeBuffers} (hrun : launch (processRow a stale 0) (List.range bs) b = some d) :
    d.treeMask (a.draftTokenNum - 1) = true := by
  obtain ⟨k, rfl⟩ : ∃ k, bs = k + 1 := ⟨bs - 1, by omega⟩
  rw [List.range_succ_eq_map, launch_cons, Option.bind_eq_some_iff] at hrun
  obtain ⟨b', hfirst, hrest⟩ := hrun
  refine launch_preserves (P := fun m => m.treeMask (a.draftTokenNum - 1) = true) ?_ ?_ hrest
  · intro bid hbid m m' hm hstep
    obtain ⟨q, hq, rfl⟩ := List.mem_map.mp hbid
    have hrow := h (q + 1) (by simpa using hq)
    rw [processRow_treeMask hrow (by omega) hstep, storeRows_outside]
    · exact hm
    · intro tid
      rw [tokenTreeIdx_qlen hqlen, Nat.mul_succ a.draftTokenNum q]
      omega
  · have hrow := h 0 hbs
    obtain ⟨n, hnum⟩ : ∃ n, a.draftTokenNum = n + 1 := ⟨a.draftTokenNum - 1, by omega⟩
    have hself : n ∈ (a.draftTree 0 hrow).lineage n :=
      (a.draftTree 0 hrow).mem_lineage.mpr ⟨by omega, .inl rfl⟩
    rw [processRow_treeMask hrow (by omega) hfirst, hnum, storeRows, Nat.add_sub_cancel,
      tokenTreeIdx_qlen hqlen, fill_apply, if_pos (by omega)]
    simpa [TreeArgs.rowBits] using .inr hself

/-- With a single draft token the rows hold the root's cell only. -/
theorem single_treeMask (hn : a.draftTokenNum = 1)
    (h : ∀ bid, bid < bs → a.RowTree bid) {b d : TreeBuffers} (hb : ∀ x, b.treeMask x = true)
    (hrun : launch (processRow a stale 0) (List.range bs) b = some d) (x : Nat) :
    d.treeMask x = true := by
  refine launch_preserves (P := fun m => ∀ x, m.treeMask x = true) ?_ hb hrun x
  intro bid hbid m m' hm hstep x
  rw [processRow_treeMask (h bid (List.mem_range.mp hbid)) (by omega) hstep, hn, storeRows,
    storeRows, fill_apply]
  split
  · next hx =>
      rw [show x - tokenTreeIdx a bid 0 = 0 by omega]
      rfl
  · exact hm x

theorem rootCell_qlen (hqlen : a.treeMaskMode ≠ .fullMask) (bid : Nat) :
    a.rootCell bid 0 = a.draftTokenNum * a.draftTokenNum * bid := by
  rw [TreeArgs.rootCell, TreeArgs.maskRow, TreeArgs.maskBase_eq, if_neg hqlen, TreeArgs.prefixLen,
    if_neg hqlen]
  rfl

/-- In `QLEN_ONLY` mode two tokens are enough for a difference: the root's own row
hides the last token from it. -/
theorem not_sameOutput_qlen (hn : 1 < a.draftTokenNum) (hqlen : a.treeMaskMode ≠ .fullMask)
    (hbs : 0 < bs) (h : ∀ bid, bid < bs → a.RowTree bid)
    {b cuda npu : TreeBuffers} (hpost : a.ThreadPost 0 0 (h 0 hbs) cuda)
    (hnpu : launch (processRow a stale 0) (List.range bs) b = some npu) :
    ¬ SameOutput a bs cuda npu := by
  intro hsame
  have hinside : a.draftTokenNum - 1 < a.maskBase bs := by
    rw [TreeArgs.maskBase_eq, if_neg hqlen]
    have := Nat.le_mul_of_pos_left a.draftTokenNum (show 0 < a.draftTokenNum by omega)
    have := Nat.le_mul_of_pos_right (a.draftTokenNum * a.draftTokenNum) hbs
    omega
  have hcell := hpost.mask (a.draftTokenNum - 1) (by omega)
  rw [rootCell_qlen hqlen, Nat.mul_zero, Nat.zero_add, ParentTree.lineage_zero,
    ← hsame.mask _ hinside, qlen_lastCell hn hqlen hbs h hnpu] at hcell
  have := hcell.mp rfl
  simp at this
  omega

section Launches

variable {maxAivCore bs : Nat} (hcore : 1 ≤ maxAivCore) (hbs : 1 ≤ bs)
  (hn : 1 ≤ a.draftTokenNum) (hmode : a.treeMaskMode ≠ .qlenOnlyBitpacking)
  (h : ∀ bid, bid < bs → a.RowTree bid)

include hcore hbs hn hmode h

/-- The launches of the two kernels: positions and links agree in every mode, and in
`FULL_MASK` mode the mask does. -/
theorem launches_result (stale : Nat → Stale) (positions : Nat → Nat) :
    ∃ c m, a.launchBuildTree bs (TreeArgs.freshBuffers positions) = some c ∧
      buildTreeEfficient a maxAivCore bs stale (TreeArgs.freshBuffers positions) =
        some { c with treeMask := m } ∧
      launch (processRow a stale 0) (List.range bs) (TreeArgs.freshBuffers positions) =
        some { c with treeMask := m } ∧
      (∀ bid (hb : bid < bs) tid, tid < a.draftTokenNum → a.ThreadPost bid tid (h bid hb) c) ∧
      (a.treeMaskMode = .fullMask → m = c.treeMask) := by
  obtain ⟨cuda, hcuda, hpost⟩ := TreeArgs.launchBuildTree_post h positions
  obtain ⟨c, m, hc, hnpu, hfull⟩ := launch_sim hn stale (List.range bs) List.nodup_range
    (fun bid hbid => h bid (List.mem_range.mp hbid)) (TreeArgs.freshBuffers positions)
    (fun _ _ _ _ => ⟨rfl, rfl⟩) (TreeArgs.freshBuffers positions).treeMask
  obtain rfl : c = cuda := by
    rw [launchBuildTree_eq] at hcuda
    exact Option.some.inj (hc.symm.trans hcuda)
  change launch (processRow a stale 0) (List.range bs) (TreeArgs.freshBuffers positions) = _ at hnpu
  refine ⟨c, m, hcuda, ?_, hnpu, hpost, fun hmode' => hfull hmode' rfl⟩
  rw [buildTreeEfficient_eq a hcore hbs hmode, hnpu]

/-- In `FULL_MASK` mode, or with a single draft token, the kernels agree. -/
theorem launches_agree (stale : Nat → Stale) (positions : Nat → Nat)
    (hcond : a.treeMaskMode = .fullMask ∨ a.draftTokenNum = 1) :
    ∃ cuda npu, a.launchBuildTree bs (TreeArgs.freshBuffers positions) = some cuda ∧
      buildTreeEfficient a maxAivCore bs stale (TreeArgs.freshBuffers positions) = some npu ∧
      SameOutput a bs cuda npu := by
  obtain ⟨c, m, hcuda, hnpu, hrun, hpost, hfull⟩ :=
    launches_result hcore hbs hn hmode h stale positions
  refine ⟨c, _, hcuda, hnpu, fun x hx => ?_, fun _ _ => rfl, fun _ _ => rfl, fun _ _ => rfl,
    fun _ _ => rfl⟩
  change m x = c.treeMask x
  by_cases hmode' : a.treeMaskMode = .fullMask
  · rw [hfull hmode']
  · have hone := hcond.resolve_left hmode'
    have htrue : m x = true := single_treeMask hone h (fun _ => rfl) hrun x
    rw [TreeArgs.maskBase_eq, if_neg hmode', hone] at hx
    have hcell := ((hpost x (by omega) 0 hn).mask 0 hn).mpr (.inl rfl)
    rw [rootCell_qlen hmode', hone, Nat.add_zero, Nat.one_mul] at hcell
    rw [hcell, htrue]

end Launches

/-- The two kernels produce the same tensors exactly in `FULL_MASK` mode, or with a single draft
token. `SameOutput` compares the cells of the tensors. Within the condition all stores stay inside
them, except that with a single draft token, `QLEN_ONLY` and several requests the AscendC rows of
the later requests start behind the end of `tree_mask`. -/
theorem buildTree_agree_iff (a : TreeArgs) {maxAivCore bs : Nat} (hcore : 1 ≤ maxAivCore)
    (hbs : 1 ≤ bs) (hn : 1 ≤ a.draftTokenNum) (hmode : a.treeMaskMode ≠ .qlenOnlyBitpacking)
    (h : ∀ bid, bid < bs → a.RowTree bid) (stale : Nat → Stale) (positions : Nat → Nat) :
    (∃ cuda npu, a.launchBuildTree bs (TreeArgs.freshBuffers positions) = some cuda ∧
        buildTreeEfficient a maxAivCore bs stale (TreeArgs.freshBuffers positions) = some npu ∧
        SameOutput a bs cuda npu) ↔
      a.treeMaskMode = .fullMask ∨ a.draftTokenNum = 1 := by
  obtain ⟨c, m, hcuda, hnpu, hrun, hpost, -⟩ :=
    launches_result hcore hbs hn hmode h stale positions
  constructor
  · rintro ⟨cuda', npu, hcuda', hnpu', hsame⟩
    obtain rfl : c = cuda' := Option.some.inj (hcuda.symm.trans hcuda')
    obtain rfl : _ = npu := Option.some.inj (hnpu.symm.trans hnpu')
    by_contra hnot
    rw [not_or] at hnot
    exact not_sameOutput_qlen (by omega) hnot.1 hbs h (hpost 0 hbs 0 hn) hrun hsame
  · exact launches_agree hcore hbs hn hmode h stale positions

/-- One request with one draft token after the verified one. -/
def pairArgs : TreeArgs where
  parentList _ := 0
  selectedIndex _ := 0
  verifiedSeqLen _ := 3
  topk := 1
  depth := 1
  draftTokenNum := 2
  treeMaskMode := .qlenOnly

/-- Local buffers filled with zeros. -/
def zeroStale : Stale where
  buffers := ⟨fun _ => 0, fun _ => 0, fun _ => 0, fun _ => 0⟩
  mask _ _ := false

theorem pairArgs_rowTree (bid : Nat) : pairArgs.RowTree bid := by
  intro i hi _
  have hroot : pairArgs.parentPosition bid i = 0 := by
    simp [TreeArgs.parentPosition, TreeArgs.selected, pairArgs]
  rwa [hroot]

/-- Two requests with a chain of two draft tokens in `FULL_MASK` mode. -/
def chainArgs : TreeArgs where
  parentList x := [-1, 0, -1, 0].getD x 0
  selectedIndex x := [0, 1, 0, 1].getD x 0
  verifiedSeqLen bid := bid + 3
  topk := 1
  depth := 2
  draftTokenNum := 3
  treeMaskMode := .fullMask

private theorem chainArgs_rowTree {bid : Nat} (hbid : bid < 2) : chainArgs.RowTree bid := by
  intro i hi hn
  match bid, hbid, i, hi, hn with
  | 0, _, 1, _, _ => decide
  | 0, _, 2, _, _ => decide
  | 1, _, 1, _, _ => decide
  | 1, _, 2, _, _ => decide

theorem buildTree_agree_chain :
    ∃ cuda npu, chainArgs.launchBuildTree 2 (TreeArgs.freshBuffers fun _ => 0) = some cuda ∧
      buildTreeEfficient chainArgs 40 2 (fun _ => zeroStale)
        (TreeArgs.freshBuffers fun _ => 0) = some npu ∧
      SameOutput chainArgs 2 cuda npu :=
  (buildTree_agree_iff chainArgs (by decide) (by decide) (by decide) (by decide)
    (fun _ hbid => chainArgs_rowTree hbid) (fun _ => zeroStale) fun _ => 0).mpr (.inl rfl)

/-- The root must not see its draft token, but the AscendC kernel stores the draft
token's row over the root's. -/
theorem buildTree_disagree_pair :
    pairArgs.RowTree 0 ∧
    ∃ cuda npu, pairArgs.launchBuildTree 1 (TreeArgs.freshBuffers fun _ => 0) = some cuda ∧
      buildTreeEfficient pairArgs 40 1 (fun _ => zeroStale)
        (TreeArgs.freshBuffers fun _ => 0) = some npu ∧
      cuda.treeMask 1 = false ∧ npu.treeMask 1 = true ∧ ¬ SameOutput pairArgs 1 cuda npu := by
  refine ⟨pairArgs_rowTree 0, _, _, rfl, rfl, rfl, rfl, fun hsame => ?_⟩
  have hcell := hsame.mask 1 (by decide)
  exact absurd hcell (by decide)

end Batch

end SpecDecode.Npu
