import SpecDecode.Eagle.BuildTreeSpec
import SpecDecode.Lib.PackedBits
import Mathlib.Data.Nat.Log

/-!
# The CUDA kernel `build_tree_efficient_partial_packed`

The kernel repeats `build_tree_efficient` with mask rows of one, two or four bytes. It only
sets bits, so it relies on a mask of zeros, as `build_tree_kernel_efficient` of the Python side
passes it.
-/

namespace SpecDecode.Eagle

open Function Buffer Launch PackedBits

structure PackedBuffers where
  treeMask : Nat → BitVec 8
  positions : Nat → Nat
  retriveIndex : Nat → Int
  retriveNextToken : Nat → Int
  retriveNextSibling : Nat → Int
  warnings : List (Nat × Nat)

namespace TreeArgs

variable (a : TreeArgs)

def packedLinkToken (bid i : Nat) (p : PackedBuffers) : PackedBuffers :=
  let n := a.draftTokenNum
  let p := { p with
    retriveIndex := update p.retriveIndex (bid * n + i) (bid * n + i : Nat) }
  let parentPosition := a.parentPosition bid i
  if parentPosition = n then
    { p with warnings := p.warnings ++ [(bid, i)] }
  else if p.retriveNextToken (bid * n + parentPosition) = -1 then
    { p with retriveNextToken := update p.retriveNextToken (bid * n + parentPosition) i }
  else
    let originNextToken := p.retriveNextToken (bid * n + parentPosition)
    { p with
      retriveNextToken := update p.retriveNextToken (bid * n + parentPosition) i
      retriveNextSibling := update p.retriveNextSibling (bid * n + i) originNextToken }

/-- `for (i = count; i > 0; --i)` of thread `0`. -/
def packedLinkTokens (bid : Nat) : Nat → PackedBuffers → PackedBuffers
  | 0, p => p
  | i + 1, p => packedLinkTokens bid i (a.packedLinkToken bid (i + 1) p)

/-- The `while (true)` loop of the other threads. -/
def packedMarkAncestors (bid tokenTreeIdx : Nat) :
    Nat → Nat → Nat → (Nat → BitVec 8) → Option (Nat × (Nat → BitVec 8))
  | 0, _, _, _ => none
  | fuel + 1, curPosition, position, mask =>
      let position := position + 1
      let mask := setBit mask tokenTreeIdx (curPosition + 1)
      let parentTbIdx := a.selected bid curPosition / a.topk
      if parentTbIdx = 0 then some (position, mask)
      else
        packedMarkAncestors bid tokenTreeIdx fuel
          (a.findSelected bid (a.parentToken bid parentTbIdx)) position mask

/-- Thread `tid` of block `bid`. -/
def buildTreeEfficientPartialPacked (numBytesPerItem : Nat) (thread : Nat × Nat)
    (p : PackedBuffers) : Option PackedBuffers :=
  let (bid, tid) := thread
  let n := a.draftTokenNum
  if n ≤ tid then some p
  else
    let seqLen := a.verifiedSeqLen bid
    let tokenTreeIdx := (bid * n + tid) * numBytesPerItem
    let p := { p with treeMask := update p.treeMask tokenTreeIdx 1 }
    if tid = 0 then
      let p := { p with positions := update p.positions (bid * n) seqLen }
      let p := a.packedLinkTokens bid (n - 1) p
      some { p with retriveIndex := update p.retriveIndex (bid * n) (bid * n : Nat) }
    else
      match a.packedMarkAncestors bid tokenTreeIdx (n + 1) (tid - 1) 0 p.treeMask with
      | none => none
      | some (position, mask) =>
          some { p with
            treeMask := mask
            positions := update p.positions (bid * n + tid) (position + seqLen) }

/-- `num_bytes_per_item`, as `build_tree_kernel_efficient` of the extension chooses it. -/
def numBytesPerItem : Nat :=
  if 16 < a.draftTokenNum then 4 else if 8 < a.draftTokenNum then 2 else 1

/-- The launch of the packed kernel. -/
def launchPacked (bs : Nat) (p : PackedBuffers) : Option PackedBuffers :=
  launch (a.buildTreeEfficientPartialPacked a.numBytesPerItem) (a.grid bs) p

/-- The bytes of an entry of the tensor that `build_tree_kernel_efficient` of the Python side
allocates; `none` is the `IndexError` of `packed_dtypes`. -/
def packedItemBytes : Option Nat := [1, 2, 4][Nat.clog 2 ((a.draftTokenNum + 7) / 8)]?

/-- The buffers the Python side passes, whether it allocates the mask or reuses one. -/
def freshPacked (positions : Nat → Nat) : PackedBuffers where
  treeMask _ := 0
  positions := positions
  retriveIndex _ := -1
  retriveNextToken _ := -1
  retriveNextSibling _ := -1
  warnings := []

/-- Everything but the mask is the same. -/
structure SameLinks (p : PackedBuffers) (b : TreeBuffers) : Prop where
  positions : p.positions = b.positions
  index : p.retriveIndex = b.retriveIndex
  token : p.retriveNextToken = b.retriveNextToken
  sibling : p.retriveNextSibling = b.retriveNextSibling
  warnings : p.warnings = b.warnings

variable {a} {bid tid : Nat} {p p' : PackedBuffers} {b b' : TreeBuffers}

private theorem packedLinkToken_sim (a : TreeArgs) (bid i : Nat) (hs : SameLinks p b) :
    SameLinks (a.packedLinkToken bid i p) (a.linkToken bid i b) ∧
      (a.packedLinkToken bid i p).treeMask = p.treeMask := by
  obtain ⟨hpositions, hindex, htoken, hsibling, hwarnings⟩ := hs
  unfold packedLinkToken linkToken
  simp only [hindex, htoken, hsibling, hwarnings]
  split
  · exact ⟨⟨hpositions, rfl, rfl, rfl, rfl⟩, rfl⟩
  · split
    · exact ⟨⟨hpositions, rfl, rfl, rfl, rfl⟩, rfl⟩
    · exact ⟨⟨hpositions, rfl, rfl, rfl, rfl⟩, rfl⟩

theorem packedLinkTokens_sim (a : TreeArgs) (bid m : Nat) (hs : SameLinks p b) :
    SameLinks (a.packedLinkTokens bid m p) (a.linkTokens bid m b) ∧
      (a.packedLinkTokens bid m p).treeMask = p.treeMask := by
  induction m generalizing p b with
  | zero => exact ⟨hs, rfl⟩
  | succ m ih =>
      obtain ⟨hlink, hmask⟩ := packedLinkToken_sim a bid (m + 1) hs
      obtain ⟨hrest, hmask'⟩ := ih hlink
      exact ⟨hrest, hmask'.trans hmask⟩

/-- The walk counts the depth of its token and sets the bits of its lineage. -/
theorem packedMarkAncestors_eq (h : a.RowTree bid) (tti i : Nat) :
    ∀ fuel position mask, 0 < i → i < a.draftTokenNum → i ≤ fuel →
      a.packedMarkAncestors bid tti fuel (i - 1) position mask =
        some (position + (a.draftTree bid h).depth i,
          setBits mask tti ((a.draftTree bid h).lineage i)) := by
  induction i using (a.draftTree bid h).parent_induction with
  | root =>
      intro _ _ _ h0
      omega
  | node i hi ih =>
      intro fuel position mask _ hn hfuel
      obtain ⟨fuel, rfl⟩ : ∃ k, fuel = k + 1 := ⟨fuel - 1, by omega⟩
      have hlt := h i hi hn
      rw [ParentTree.depth_of_pos _ hi, ParentTree.lineage_of_pos _ hi]
      rw [draftTree_parent h hn] at ih ⊢
      rw [packedMarkAncestors, Nat.sub_add_cancel hi, setBits_cons]
      rcases parentPosition_cases h hi hn with ⟨htb, hroot⟩ | ⟨htb, hpos, hfound⟩
      · simp [htb, hroot]
      · simp only [htb, if_false, hfound]
        rw [ih fuel (position + 1) _ hpos (by omega) (by omega)]
        simp only [Option.some.injEq, Prod.mk.injEq, and_true]
        omega

theorem buildTreeEfficient_runs (h : a.RowTree bid) (htid : tid < a.draftTokenNum)
    (b : TreeBuffers) : ∃ b', a.buildTreeEfficient (bid, tid) b = some b' := by
  cases tid with
  | zero =>
      exact ⟨_, by
        simp only [buildTreeEfficient, if_neg (Nat.not_le.mpr htid), if_true]
        rfl⟩
  | succ tid =>
      have hwalk := markAncestors_eq h (a.tokenTreeIdx bid (tid + 1)) (tid + 1)
        (a.draftTokenNum + 1) 0 (a.clearRow (a.tokenTreeIdx bid (tid + 1)) b.treeMask)
        (Nat.succ_pos tid) htid (by omega)
      exact ⟨_, by
        simp only [buildTreeEfficient, if_neg (Nat.not_le.mpr htid), Nat.succ_ne_zero, if_false,
          hwalk]
        rfl⟩

def packedRow (w : Nat) (h : a.RowTree bid) (tid : Nat) (mask : Nat → BitVec 8) : Nat → BitVec 8 :=
  setBits (update mask (a.posCell (bid, tid) * w) 1) (a.posCell (bid, tid) * w)
    ((a.draftTree bid h).lineage tid)

theorem packedThread_sim (w : Nat) (h : a.RowTree bid) (htid : tid < a.draftTokenNum)
    (hs : SameLinks p b) (hrun : a.buildTreeEfficient (bid, tid) b = some b') :
    ∃ p', a.buildTreeEfficientPartialPacked w (bid, tid) p = some p' ∧ SameLinks p' b' ∧
      p'.treeMask = packedRow w h tid p.treeMask := by
  obtain ⟨hpositions, hindex, htoken, hsibling, hwarnings⟩ := hs
  cases tid with
  | zero =>
      simp only [buildTreeEfficient, if_neg (Nat.not_le.mpr htid), if_true,
        Option.some.injEq] at hrun
      obtain ⟨hlinks, hmask⟩ := packedLinkTokens_sim a bid (a.draftTokenNum - 1)
        (p := { p with
          treeMask := update p.treeMask (a.posCell (bid, 0) * w) 1
          positions := update p.positions (bid * a.draftTokenNum) (a.verifiedSeqLen bid) })
        (b := { b with
          treeMask := a.clearRow (a.tokenTreeIdx bid 0) b.treeMask
          positions := update b.positions (bid * a.draftTokenNum) (a.verifiedSeqLen bid) })
        ⟨congrArg (update · _ _) hpositions, hindex, htoken, hsibling, hwarnings⟩
      refine ⟨_, by
        simp only [buildTreeEfficientPartialPacked, if_neg (Nat.not_le.mpr htid), if_true]
        rfl, ?_, ?_⟩
      · rw [← hrun]
        exact ⟨hlinks.positions, congrArg (update · _ _) hlinks.index, hlinks.token,
          hlinks.sibling, hlinks.warnings⟩
      · rw [packedRow, ParentTree.lineage_zero]
        exact hmask
  | succ tid =>
      have hcuda := markAncestors_eq h (a.tokenTreeIdx bid (tid + 1)) (tid + 1)
        (a.draftTokenNum + 1) 0 (a.clearRow (a.tokenTreeIdx bid (tid + 1)) b.treeMask)
        (Nat.succ_pos tid) htid (by omega)
      have hpacked := packedMarkAncestors_eq h (a.posCell (bid, tid + 1) * w) (tid + 1)
        (a.draftTokenNum + 1) 0 (update p.treeMask (a.posCell (bid, tid + 1) * w) 1)
        (Nat.succ_pos tid) htid (by omega)
      simp only [buildTreeEfficient, if_neg (Nat.not_le.mpr htid), Nat.succ_ne_zero, if_false,
        hcuda, Option.some.injEq] at hrun
      rw [posCell] at hpacked
      simp only [buildTreeEfficientPartialPacked, if_neg (Nat.not_le.mpr htid), Nat.succ_ne_zero,
        if_false, hpacked]
      refine ⟨_, rfl, ?_, rfl⟩
      rw [← hrun]
      exact ⟨congrArg (update · _ _) hpositions, hindex, htoken, hsibling, hwarnings⟩

theorem packedRow_outside {w : Nat} (hw : a.draftTokenNum ≤ 8 * w) (h : a.RowTree bid)
    (htid : tid < a.draftTokenNum) (mask : Nat → BitVec 8) {x : Nat}
    (hx : x < a.posCell (bid, tid) * w ∨ a.posCell (bid, tid) * w + w ≤ x) :
    packedRow w h tid mask x = mask x := by
  have hlineage : ∀ j ∈ (a.draftTree bid h).lineage tid, j < 8 * w := fun j hj => by
    have := (a.draftTree bid h).le_of_mem_lineage hj
    omega
  rw [packedRow, setBits_outside hlineage hx, update_of_ne (by omega)]

theorem bit_packedRow {w : Nat} (h : a.RowTree bid) (mask : Nat → BitVec 8)
    (hzero : ∀ k, k < w → mask (a.posCell (bid, tid) * w + k) = 0) {j : Nat} (hj : j < 8 * w) :
    bit (packedRow w h tid mask) (a.posCell (bid, tid) * w) j =
      decide (j = 0 ∨ j ∈ (a.draftTree bid h).lineage tid) := by
  have hroot : bit (update mask (a.posCell (bid, tid) * w) 1)
      (a.posCell (bid, tid) * w) j = decide (j = 0) := by
    rw [bit]
    by_cases hfirst : j / 8 = 0
    · rw [hfirst, Nat.add_zero, update_self, Nat.mod_eq_of_lt (by omega)]
      exact BitVec.getLsbD_one
    · rw [update_of_ne (by omega), hzero _ (by omega), decide_eq_false (by omega)]
      exact BitVec.getLsbD_zero
  rw [packedRow, bit_setBits, hroot, Bool.eq_iff_iff]
  simp only [Bool.or_eq_true, decide_eq_true_eq]
  exact or_comm

theorem launchPacked_sim {w : Nat} (hw : a.draftTokenNum ≤ 8 * w) {bs : Nat}
    (h : ∀ bid, bid < bs → a.RowTree bid) {qs : List (Nat × Nat)}
    (hqs : ∀ q ∈ qs, q ∈ a.grid bs) (hnodup : (qs.map a.posCell).Nodup) (hs : SameLinks p b)
    (hzero : ∀ q ∈ qs, ∀ k, k < w → p.treeMask (a.posCell q * w + k) = 0)
    (hrun : launch a.buildTreeEfficient qs b = some b') :
    ∃ p', launch (a.buildTreeEfficientPartialPacked w) qs p = some p' ∧ SameLinks p' b' ∧
      (∀ q ∈ qs, ∀ h : a.RowTree q.1, ∀ j, j < 8 * w → bit p'.treeMask (a.posCell q * w) j =
        decide (j = 0 ∨ j ∈ (a.draftTree q.1 h).lineage q.2)) ∧
      ∀ x, (∀ q ∈ qs, x < a.posCell q * w ∨ a.posCell q * w + w ≤ x) →
        p'.treeMask x = p.treeMask x := by
  induction qs generalizing p b with
  | nil =>
      obtain rfl := Option.some.inj hrun
      exact ⟨p, rfl, hs, by simp, fun _ _ => rfl⟩
  | cons q qs ih =>
      rw [launch_cons, Option.bind_eq_some_iff] at hrun
      obtain ⟨b₁, hstep, hrest⟩ := hrun
      obtain ⟨hbid, htid⟩ := mem_grid.mp (hqs q List.mem_cons_self)
      obtain ⟨hnotin, hnodup⟩ := List.nodup_cons.mp hnodup
      have hrow := h q.1 hbid
      obtain ⟨p₁, hpacked, hs₁, hmask⟩ := packedThread_sim w hrow htid hs hstep
      have hkeep : ∀ x, (x < a.posCell q * w ∨ a.posCell q * w + w ≤ x) →
          p₁.treeMask x = p.treeMask x := fun x hx => by
        rw [hmask, packedRow_outside hw hrow htid _ hx]
      have hother : ∀ q' ∈ qs, a.posCell q ≠ a.posCell q' := fun q' hq' heq =>
        hnotin (heq ▸ List.mem_map_of_mem hq')
      obtain ⟨p', hrun', hs', hbits, houtside⟩ :=
        ih (fun q' hq' => hqs q' (List.mem_cons_of_mem _ hq')) hnodup hs₁
          (fun q' hq' k hk => by
            rw [hkeep _ (window_outside hk (hother q' hq'))]
            exact hzero q' (List.mem_cons_of_mem _ hq') k hk) hrest
      refine ⟨p', by rw [launch_cons, hpacked]; exact hrun', hs', ?_, ?_⟩
      · intro q' hq' hrow' j hj
        rcases List.mem_cons.mp hq' with rfl | hq'
        · -- No later thread writes to the row.
          have hlater : p'.treeMask (a.posCell q' * w + j / 8) =
              p₁.treeMask (a.posCell q' * w + j / 8) :=
            houtside _ fun r hr => window_outside (by omega) (Ne.symm (hother r hr))
          rw [bit_congr hlater, hmask]
          exact bit_packedRow hrow _ (hzero q' List.mem_cons_self) hj
        · exact hbits q' hq' hrow' j hj
      · intro x hx
        rw [houtside x fun r hr => hx r (List.mem_cons_of_mem _ hr),
          hkeep x (hx q List.mem_cons_self)]

/-- The two sides choose the same width, and it holds a row. -/
theorem packedItemBytes_eq (hn : 1 ≤ a.draftTokenNum) (hn32 : a.draftTokenNum ≤ 32) :
    a.packedItemBytes = some a.numBytesPerItem ∧ a.draftTokenNum ≤ 8 * a.numBytesPerItem := by
  have hcases : (a.draftTokenNum + 7) / 8 = 1 ∨ (a.draftTokenNum + 7) / 8 = 2 ∨
      (a.draftTokenNum + 7) / 8 = 3 ∨ (a.draftTokenNum + 7) / 8 = 4 := by omega
  rw [packedItemBytes, numBytesPerItem]
  rcases hcases with hc | hc | hc | hc
  · rw [if_neg (by omega), if_neg (by omega), hc]
    exact ⟨by decide, by omega⟩
  · rw [if_neg (by omega), if_pos (by omega), hc]
    exact ⟨by decide, by omega⟩
  · rw [if_pos (by omega), hc]
    exact ⟨by decide, by omega⟩
  · rw [if_pos (by omega), hc]
    exact ⟨by decide, by omega⟩

private theorem rootCell_qlenOnly (hmode : a.treeMaskMode = .qlenOnly) (bid tid : Nat) :
    a.rootCell bid tid = a.draftTokenNum * a.draftTokenNum * bid + a.draftTokenNum * tid := by
  have hne : a.treeMaskMode ≠ .fullMask := by simp [hmode]
  rw [rootCell, maskRow, maskBase_eq, if_neg hne, prefixLen, if_neg hne, Nat.zero_add, Nat.add_zero]

/-- The packed mask is the boolean mask. With the width that both sides choose, bit `j` of a
row is the boolean kernel's column `j`, and the bits behind the last column are zero. A thread
writes to its own row only, and the other tensors are those of the boolean kernel. -/
theorem packedMask_eq_treeMask (a : TreeArgs) {bs : Nat} (hn : 1 ≤ a.draftTokenNum)
    (hn32 : a.draftTokenNum ≤ 32) (hmode : a.treeMaskMode = .qlenOnly)
    (h : ∀ bid, bid < bs → a.RowTree bid) (positions : Nat → Nat) :
    a.packedItemBytes = some a.numBytesPerItem ∧
    ∃ b p, a.launchBuildTree bs (freshBuffers positions) = some b ∧
      a.launchPacked bs (freshPacked positions) = some p ∧
      (∀ bid tid j, bid < bs → tid < a.draftTokenNum → j < 8 * a.numBytesPerItem →
        bit p.treeMask ((bid * a.draftTokenNum + tid) * a.numBytesPerItem) j =
          (decide (j < a.draftTokenNum) && b.treeMask
            (a.draftTokenNum * a.draftTokenNum * bid + a.draftTokenNum * tid + j))) ∧
      (∀ bid tid m m' x, bid < bs → tid < a.draftTokenNum →
        a.buildTreeEfficientPartialPacked a.numBytesPerItem (bid, tid) m = some m' →
        (x < (bid * a.draftTokenNum + tid) * a.numBytesPerItem ∨
          (bid * a.draftTokenNum + tid) * a.numBytesPerItem + a.numBytesPerItem ≤ x) →
        m'.treeMask x = m.treeMask x) ∧
      (∀ x, bs * a.draftTokenNum * a.numBytesPerItem ≤ x → p.treeMask x = 0) ∧
      SameLinks p b := by
  obtain ⟨hbytes, hw⟩ := packedItemBytes_eq hn hn32
  obtain ⟨b, hbool, hpost⟩ := launchBuildTree_post h positions
  obtain ⟨p, hpacked, hlinks, hbits, houtside⟩ := launchPacked_sim hw h (fun _ hq => hq)
    (posCell_nodup bs) (p := freshPacked positions) ⟨rfl, rfl, rfl, rfl, rfl⟩
    (fun _ _ _ _ => rfl) hbool
  refine ⟨hbytes, b, p, hbool, hpacked, ?_, ?_, ?_, hlinks⟩
  · intro bid tid j hbid htid hj
    refine (hbits (bid, tid) (mem_grid.mpr ⟨hbid, htid⟩) (h bid hbid) j hj).trans ?_
    rw [← rootCell_qlenOnly hmode, Bool.eq_iff_iff]
    simp only [decide_eq_true_eq, Bool.and_eq_true]
    constructor
    · intro hmem
      have hlt : j < a.draftTokenNum := by
        rcases hmem with rfl | hmem
        · omega
        · exact Nat.lt_of_le_of_lt ((a.draftTree bid (h bid hbid)).le_of_mem_lineage hmem) htid
      exact ⟨hlt, ((hpost bid hbid tid htid).mask j hlt).mpr hmem⟩
    · rintro ⟨hlt, hcell⟩
      exact ((hpost bid hbid tid htid).mask j hlt).mp hcell
  · intro bid tid m m' x hbid htid hstep hx
    have hrow := h bid hbid
    obtain ⟨b', hboolStep⟩ := buildTreeEfficient_runs hrow htid
      ⟨fun _ => true, m.positions, m.retriveIndex, m.retriveNextToken, m.retriveNextSibling,
        m.warnings⟩
    obtain ⟨m'', hstep', -, hmask⟩ := packedThread_sim a.numBytesPerItem hrow htid
      (p := m) ⟨rfl, rfl, rfl, rfl, rfl⟩ hboolStep
    obtain rfl : m' = m'' := Option.some.inj (hstep.symm.trans hstep')
    rw [hmask, packedRow_outside hw hrow htid _ hx]
  · intro x hx
    refine houtside x fun q hq => .inr ?_
    obtain ⟨hbid, htid⟩ := mem_grid.mp hq
    have hcell : a.posCell q + 1 ≤ bs * a.draftTokenNum := by
      have := Nat.mul_le_mul_right a.draftTokenNum (Nat.succ_le_of_lt hbid)
      rw [Nat.succ_mul] at this
      rw [posCell]
      omega
    have := Nat.mul_le_mul_right a.numBytesPerItem hcell
    rw [Nat.succ_mul] at this
    omega

/-- Nine draft tokens in a chain: rows of two bytes. -/
def chainNine : TreeArgs where
  parentList q := (q : Int) - 1
  selectedIndex p := p
  verifiedSeqLen _ := 4
  topk := 1
  depth := 8
  draftTokenNum := 9
  treeMaskMode := .qlenOnly

private theorem chainNine_rowTree : chainNine.RowTree 0 := by
  have hall : ∀ i < 9, 0 < i → chainNine.parentPosition 0 i < i := by decide
  exact fun i hi hn => hall i hn hi

theorem packedMask_eq_treeMask_chainNine :
    chainNine.packedItemBytes = some chainNine.numBytesPerItem ∧
    ∃ b p, chainNine.launchBuildTree 1 (freshBuffers fun _ => 0) = some b ∧
      chainNine.launchPacked 1 (freshPacked fun _ => 0) = some p ∧
      (∀ bid tid j, bid < 1 → tid < 9 → j < 8 * chainNine.numBytesPerItem →
        bit p.treeMask ((bid * 9 + tid) * chainNine.numBytesPerItem) j =
          (decide (j < 9) && b.treeMask (9 * 9 * bid + 9 * tid + j))) ∧
      (∀ bid tid m m' x, bid < 1 → tid < 9 →
        chainNine.buildTreeEfficientPartialPacked chainNine.numBytesPerItem (bid, tid) m = some m' →
        (x < (bid * 9 + tid) * chainNine.numBytesPerItem ∨
          (bid * 9 + tid) * chainNine.numBytesPerItem + chainNine.numBytesPerItem ≤ x) →
        m'.treeMask x = m.treeMask x) ∧
      (∀ x, 1 * 9 * chainNine.numBytesPerItem ≤ x → p.treeMask x = 0) ∧
      SameLinks p b :=
  packedMask_eq_treeMask chainNine (by decide) (by decide) rfl
    (fun bid hbid => by
      obtain rfl : bid = 0 := by omega
      exact chainNine_rowTree) fun _ => 0

end TreeArgs

end SpecDecode.Eagle
