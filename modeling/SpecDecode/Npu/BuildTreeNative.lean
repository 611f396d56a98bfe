import SpecDecode.Npu.BuildTreeSpec

/-!
# The fallback `build_tree_efficient_native`

The tree is built by tensor operations and two nested loops on the host. An index past the
end of a row of `selected_index` or `parent_list` raises an `IndexError`, and so does the
branch of the walk that would store an ancestor in the mask; `none` is such an error or a
walk that does not end.
-/

namespace SpecDecode.Npu

open Function Buffer Launch Eagle

variable (a : TreeArgs)

def tokenTreeIndices (bid tid : Nat) : Nat :=
  let n := a.draftTokenNum
  if a.treeMaskMode = .fullMask then
    let cumSeqLen := ((List.range bid).map fun i => a.verifiedSeqLen i * n).sum
    let seqTreeIdx := n * n * bid + cumSeqLen
    seqTreeIdx + (a.verifiedSeqLen bid + n) * tid + a.verifiedSeqLen bid + 1
  else bid * n ^ 2 + tid * n + 1

def nativeMask (bs : Nat) (mask : Nat → Bool) : Nat → Bool :=
  let n := a.draftTokenNum
  let rows := (a.grid bs).map fun p => tokenTreeIndices a p.1 p.2
  let mask := rows.foldl (fun m idx => update m (idx - 1) true) mask
  let mask := rows.foldl (fun m idx => fill m idx (n - 1) fun _ => false) mask
  rows.foldl (fun m idx => fill m idx (n - 1) fun _ => true) mask

def parentAt (bid parentTbIdx : Nat) : Option Int :=
  if parentTbIdx < a.topk * (a.depth - 1) + 1 then some (a.parentToken bid parentTbIdx) else none

def selectedAt (bid pos : Nat) : Option Nat :=
  if pos < a.draftTokenNum - 1 then some (a.selected bid pos) else none

/-- The loops that look for a token in `selected_index[bid]`, from `pos` on. -/
def searchToken (bid : Nat) (token : Int) : (fuel pos : Nat) → Option Nat
  | 0, pos => some pos
  | fuel + 1, pos => do
      let selected ← selectedAt a bid pos
      if (selected : Int) = token then some pos else searchToken bid token fuel (pos + 1)

structure NativeState where
  positions : Nat → Nat
  retriveNextToken : Nat → Int
  retriveNextSibling : Nat → Int
  warnings : List (Nat × Nat)

/-- Where the root finds the parent of token `i`. -/
def nativeParentPosition (bid i : Nat) : Option Nat :=
  (selectedAt a bid (i - 1)).bind fun selected =>
    let parentTbIdx := selected / a.topk
    if 0 < parentTbIdx then
      (parentAt a bid parentTbIdx).bind fun token =>
        (searchToken a bid token a.draftTokenNum 0).map fun found =>
          if found < a.draftTokenNum then found + 1 else found
    else some 0

def nativeLink (bid i : Nat) (s : NativeState) : Option NativeState :=
  let n := a.draftTokenNum
  (nativeParentPosition a bid i).map fun parentPosition =>
    if parentPosition = n then { s with warnings := s.warnings ++ [(bid, i)] }
    else
      let head := s.retriveNextToken (bid * n + parentPosition)
      { s with
        retriveNextToken := update s.retriveNextToken (bid * n + parentPosition) i
        retriveNextSibling :=
          if head ≠ -1 then update s.retriveNextSibling (bid * n + i) head
          else s.retriveNextSibling }

def nativeLinks (bid : Nat) : (count : Nat) → NativeState → Option NativeState
  | 0, s => some s
  | i + 1, s => (nativeLink a bid (i + 1) s).bind (nativeLinks bid i)

/-- The walk from a token to the root: how many rounds it takes. -/
def nativeWalk (bid : Nat) : (fuel curPosition position : Nat) → Option Nat
  | 0, _, _ => none
  | fuel + 1, curPosition, position => do
      let selected ← selectedAt a bid curPosition
      let parentTbIdx := selected / a.topk
      if parentTbIdx = 0 then some (position + 1)
      else
        let token ← parentAt a bid parentTbIdx
        let found ← searchToken a bid token a.draftTokenNum 0
        nativeWalk bid fuel found (position + 1)

def nativeToken (p : Nat × Nat) (s : NativeState) : Option NativeState :=
  let (bid, tid) := p
  let n := a.draftTokenNum
  if tid = 0 then nativeLinks a bid (n - 1) s
  else
    (nativeWalk a bid (n + 1) (tid - 1) 0).map fun position =>
      { s with positions :=
          update s.positions (bid * n + tid) (s.positions (bid * n + tid) + position) }

/-- `build_tree_efficient_native`. -/
def buildTreeEfficientNative (bs : Nat) (b : TreeBuffers) : Option TreeBuffers :=
  let n := a.draftTokenNum
  let retriveIndex := fill b.retriveIndex 0 (bs * n) fun x => (x : Int)
  if n = 2 ∧ a.topk = 1 ∧ a.treeMaskMode = .fullMask then
    some { b with
      positions := fill b.positions 0 (bs * n) fun x => a.verifiedSeqLen (x / n) + x % n
      retriveIndex := retriveIndex
      retriveNextToken :=
        fill b.retriveNextToken 0 (bs * n) fun x => if x % n = 0 then 1 else -1 }
  else
    let s : NativeState := {
      positions := fill b.positions 0 (bs * n) fun x => a.verifiedSeqLen (x / n)
      retriveNextToken := b.retriveNextToken
      retriveNextSibling := b.retriveNextSibling
      warnings := b.warnings }
    (launch (nativeToken a) (a.grid bs) s).map fun s =>
      { treeMask := nativeMask a bs b.treeMask
        positions := s.positions
        retriveIndex := retriveIndex
        retriveNextToken := s.retriveNextToken
        retriveNextSibling := s.retriveNextSibling
        warnings := s.warnings }

section Links

variable {a} {bid i fuel pos : Nat}

/-- The entries of `parent_list` that a request looks up are there. -/
def InRange (a : TreeArgs) (bid : Nat) : Prop :=
  ∀ p, p < a.draftTokenNum - 1 → a.selected bid p / a.topk < a.topk * (a.depth - 1) + 1

theorem searchToken_eq {token : Int}
    (h : findFrom (fun q => (a.selected bid q : Int) = token) fuel pos < a.draftTokenNum - 1) :
    searchToken a bid token fuel pos =
      some (findFrom (fun q => (a.selected bid q : Int) = token) fuel pos) := by
  induction fuel generalizing pos with
  | zero => rfl
  | succ fuel ih =>
      have hle := le_findFrom (fun q => decide ((a.selected bid q : Int) = token)) (fuel + 1) pos
      have hpos : selectedAt a bid pos = some (a.selected bid pos) := if_pos (by omega)
      rw [findFrom] at h ⊢
      rw [searchToken, hpos]
      by_cases hfound : (a.selected bid pos : Int) = token
      · simp [hfound]
      · simp only [hfound, decide_false, Bool.false_eq_true, if_false, Option.bind_eq_bind,
          Option.bind_some] at h ⊢
        exact ih h

structure Linked (s : NativeState) (b : TreeBuffers) : Prop where
  token : s.retriveNextToken = b.retriveNextToken
  sibling : s.retriveNextSibling = b.retriveNextSibling

theorem searchToken_parent (h : a.RowTree bid) (hi : 0 < i) (hn : i < a.draftTokenNum)
    (htb : a.selected bid (i - 1) / a.topk ≠ 0) :
    searchToken a bid (a.parentToken bid (a.selected bid (i - 1) / a.topk)) a.draftTokenNum 0 =
      some (a.parentPosition bid i - 1) := by
  have hlt := h i hi hn
  rcases TreeArgs.parentPosition_cases h hi hn with ⟨h0, -⟩ | ⟨-, hpos, hfound⟩
  · exact absurd h0 htb
  · rw [TreeArgs.findSelected] at hfound
    rw [searchToken_eq (by omega), hfound]

theorem nativeParentPosition_eq (h : a.RowTree bid) (hrange : InRange a bid) (hi : 0 < i)
    (hn : i < a.draftTokenNum) : nativeParentPosition a bid i = some (a.parentPosition bid i) := by
  have hlt := h i hi hn
  have hsel : selectedAt a bid (i - 1) = some (a.selected bid (i - 1)) := if_pos (by omega)
  rw [nativeParentPosition, hsel, Option.bind_some]
  rcases TreeArgs.parentPosition_cases h hi hn with ⟨h0, hroot⟩ | ⟨h0, hpos, -⟩
  · simp only [h0, hroot, Nat.lt_irrefl, if_false]
  · have hat : parentAt a bid (a.selected bid (i - 1) / a.topk) =
        some (a.parentToken bid (a.selected bid (i - 1) / a.topk)) :=
      if_pos (hrange (i - 1) (by omega))
    simp only [if_pos (Nat.pos_of_ne_zero h0), hat, Option.bind_some,
      searchToken_parent h hi hn h0, Option.map_some]
    rw [if_pos (by omega), Nat.sub_add_cancel hpos]

variable {s : NativeState} {b : TreeBuffers}

theorem nativeLink_sim (h : a.RowTree bid) (hrange : InRange a bid) (hi : 0 < i)
    (hn : i < a.draftTokenNum) (hs : Linked s b) :
    ∃ s', nativeLink a bid i s = some s' ∧ Linked s' (a.linkToken bid i b) ∧
      s'.positions = s.positions := by
  have hlt := h i hi hn
  unfold nativeLink TreeArgs.linkToken
  simp only [nativeParentPosition_eq h hrange hi hn, Option.map_some,
    if_neg (show a.parentPosition bid i ≠ a.draftTokenNum by omega)]
  refine ⟨_, rfl, ?_, rfl⟩
  by_cases hempty : b.retriveNextToken (bid * a.draftTokenNum + a.parentPosition bid i) = -1
  · rw [if_pos hempty]
    refine ⟨by dsimp only; rw [hs.token], ?_⟩
    dsimp only
    rw [hs.token, if_neg (not_not.mpr hempty), hs.sibling]
  · rw [if_neg hempty]
    refine ⟨by dsimp only; rw [hs.token], ?_⟩
    dsimp only
    rw [hs.token, if_pos hempty, hs.sibling]

theorem nativeLinks_sim (h : a.RowTree bid) (hrange : InRange a bid) (m : Nat)
    (hm : m < a.draftTokenNum) (hs : Linked s b) :
    ∃ s', nativeLinks a bid m s = some s' ∧ Linked s' (a.linkTokens bid m b) ∧
      s'.positions = s.positions := by
  induction m generalizing s b with
  | zero => exact ⟨s, rfl, hs, rfl⟩
  | succ m ih =>
      obtain ⟨s₁, hrun, hs₁, hpos⟩ := nativeLink_sim h hrange (Nat.succ_pos m) hm hs
      obtain ⟨s', hrest, hs', hpos'⟩ := ih (by omega) hs₁
      refine ⟨s', ?_, hs', hpos'.trans hpos⟩
      rw [nativeLinks, hrun]
      exact hrest

theorem nativeWalk_eq (h : a.RowTree bid) (hrange : InRange a bid) (i : Nat) :
    ∀ fuel position, 0 < i → i < a.draftTokenNum → i ≤ fuel →
      nativeWalk a bid fuel (i - 1) position = some (position + (a.draftTree bid h).depth i) := by
  induction i using (a.draftTree bid h).parent_induction with
  | root =>
      intro _ _ h0
      omega
  | node i hi ih =>
      intro fuel position _ hn hfuel
      obtain ⟨fuel, rfl⟩ : ∃ k, fuel = k + 1 := ⟨fuel - 1, by omega⟩
      have hlt := h i hi hn
      have hsel : selectedAt a bid (i - 1) = some (a.selected bid (i - 1)) := if_pos (by omega)
      rw [ParentTree.depth_of_pos _ hi]
      rw [TreeArgs.draftTree_parent h hn] at ih ⊢
      rw [nativeWalk, hsel]
      simp only [Option.bind_eq_bind, Option.bind_some]
      rcases TreeArgs.parentPosition_cases h hi hn with ⟨h0, hroot⟩ | ⟨h0, hpos, -⟩
      · simp [h0, hroot]
      · have hat : parentAt a bid (a.selected bid (i - 1) / a.topk) =
            some (a.parentToken bid (a.selected bid (i - 1) / a.topk)) :=
          if_pos (hrange (i - 1) (by omega))
        rw [if_neg h0, hat, Option.bind_some, searchToken_parent h hi hn h0, Option.bind_some,
          ih fuel (position + 1) hpos (by omega) (by omega)]
        congr 1
        omega

theorem nativeToken_sim {p : Nat × Nat} (h : a.RowTree p.1) (hrange : InRange a p.1)
    (hp : p.2 < a.draftTokenNum) {b' : TreeBuffers} (hs : Linked s b)
    (hrun : a.buildTreeEfficient p b = some b') :
    ∃ s', nativeToken a p s = some s' ∧ Linked s' b' ∧
      s'.positions = update s.positions (a.posCell p)
        (s.positions (a.posCell p) + (a.draftTree p.1 h).depth p.2) := by
  obtain ⟨bid, tid⟩ := p
  cases tid with
  | zero =>
      simp only [TreeArgs.buildTreeEfficient, if_neg (Nat.not_le.mpr hp), if_true,
        Option.some.injEq] at hrun
      obtain ⟨s', hlinks, hs', hpos⟩ := nativeLinks_sim h hrange (a.draftTokenNum - 1)
        (show _ < _ by change 0 < _ at hp; omega) (s := s)
        (b := { b with
          treeMask := a.clearRow (a.tokenTreeIdx bid 0) b.treeMask
          positions := update b.positions (bid * a.draftTokenNum) (a.verifiedSeqLen bid) })
        ⟨hs.token, hs.sibling⟩
      refine ⟨s', hlinks, ?_, ?_⟩
      · rw [← hrun]
        exact ⟨hs'.token, hs'.sibling⟩
      · rw [hpos, ParentTree.depth_zero, Nat.add_zero, update_eq_self]
  | succ tid =>
      have hcuda := TreeArgs.markAncestors_eq h (a.tokenTreeIdx bid (tid + 1)) (tid + 1)
        (a.draftTokenNum + 1) 0 (a.clearRow (a.tokenTreeIdx bid (tid + 1)) b.treeMask)
        (Nat.succ_pos tid) hp (by change tid + 1 < _ at hp; omega)
      simp only [TreeArgs.buildTreeEfficient, if_neg (Nat.not_le.mpr hp), Nat.succ_ne_zero,
        if_false, hcuda, Option.some.injEq] at hrun
      have hwalk := nativeWalk_eq h hrange (tid + 1) (a.draftTokenNum + 1) 0 (Nat.succ_pos tid) hp
        (by change tid + 1 < _ at hp; omega)
      rw [Nat.zero_add] at hwalk
      refine ⟨{ s with
        positions := update s.positions (a.posCell (bid, tid + 1))
          (s.positions (a.posCell (bid, tid + 1)) + (a.draftTree bid h).depth (tid + 1)) },
        ?_, ?_, rfl⟩
      · simp only [nativeToken, Nat.succ_ne_zero, if_false, hwalk, Option.map_some]
        rfl
      · rw [← hrun]
        exact ⟨hs.token, hs.sibling⟩

/-- The loops of the host and the launch on the device, over any tokens. -/
theorem nativeTokens_sim {bs : Nat} (h : ∀ bid, bid < bs → a.RowTree bid)
    (hrange : ∀ bid, bid < bs → InRange a bid) {ps : List (Nat × Nat)}
    (hps : ∀ p ∈ ps, p ∈ a.grid bs) (hnodup : (ps.map (a.posCell)).Nodup)
    {b' : TreeBuffers} (hs : Linked s b) (hrun : launch a.buildTreeEfficient ps b = some b') :
    ∃ s', launch (nativeToken a) ps s = some s' ∧ Linked s' b' ∧
      (∀ p ∈ ps, ∀ h : a.RowTree p.1, s'.positions (a.posCell p) =
        s.positions (a.posCell p) + (a.draftTree p.1 h).depth p.2) ∧
      ∀ x ∉ ps.map (a.posCell), s'.positions x = s.positions x := by
  induction ps generalizing s b with
  | nil =>
      obtain rfl := Option.some.inj hrun
      exact ⟨s, rfl, hs, by simp, by simp⟩
  | cons p ps ih =>
      rw [launch_cons, Option.bind_eq_some_iff] at hrun
      obtain ⟨b₁, hstep, hrest⟩ := hrun
      obtain ⟨hbid, htid⟩ := TreeArgs.mem_grid.mp (hps p List.mem_cons_self)
      obtain ⟨s₁, hnative, hs₁, hpos₁⟩ :=
        nativeToken_sim (h p.1 hbid) (hrange p.1 hbid) htid hs hstep
      obtain ⟨hnotin, hnodup⟩ := List.nodup_cons.mp hnodup
      obtain ⟨s', hrun', hs', hpos, hother⟩ :=
        ih (fun q hq => hps q (List.mem_cons_of_mem _ hq)) hnodup hs₁ hrest
      refine ⟨s', ?_, hs', ?_, ?_⟩
      · rw [launch_cons, hnative]
        exact hrun'
      · intro q hq hrow
        rcases List.mem_cons.mp hq with rfl | hq
        · rw [hother _ hnotin, hpos₁, update_self]
        · have hne : a.posCell q ≠ a.posCell p := fun heq =>
            hnotin (heq ▸ List.mem_map_of_mem hq)
          rw [hpos q hq hrow, hpos₁, update_of_ne hne]
      · intro x hx
        rw [List.map_cons, List.mem_cons, not_or] at hx
        rw [hother x hx.2, hpos₁, update_of_ne hx.1]

/-- The general path ends, with the device's positions and links. -/
theorem nativeLoops_sim {bs : Nat} (h : ∀ bid, bid < bs → a.RowTree bid)
    (hrange : ∀ bid, bid < bs → InRange a bid) {c : TreeBuffers}
    (hs : Linked s b) (hstart : ∀ p ∈ a.grid bs, s.positions (a.posCell p) = a.verifiedSeqLen p.1)
    (hrun : a.launchBuildTree bs b = some c)
    (hpost : ∀ bid (hb : bid < bs) tid, tid < a.draftTokenNum → a.ThreadPost bid tid (h bid hb) c) :
    ∃ s', launch (nativeToken a) (a.grid bs) s = some s' ∧ Linked s' c ∧
      ∀ x, x < bs * a.draftTokenNum → s'.positions x = c.positions x := by
  obtain ⟨s', hnative, hs', hpos, -⟩ :=
    nativeTokens_sim h hrange (fun _ hp => hp) (TreeArgs.posCell_nodup bs) hs hrun
  refine ⟨s', hnative, hs', fun x hx => ?_⟩
  obtain ⟨p, hp, rfl⟩ := TreeArgs.exists_posCell hx
  obtain ⟨hbid, htid⟩ := TreeArgs.mem_grid.mp hp
  rw [hpos p hp (h p.1 hbid), hstart p hp, TreeArgs.posCell, (hpost p.1 hbid p.2 htid).position]

end Links

section Mask

variable {a} {bs : Nat}

theorem foldl_fill_const (rows : List Nat) (len : Nat) (v : Bool) (m : Nat → Bool) (x : Nat) :
    rows.foldl (fun m idx => fill m idx len fun _ => v) m x =
      if ∃ idx ∈ rows, idx ≤ x ∧ x < idx + len then v else m x := by
  induction rows generalizing m with
  | nil => simp
  | cons idx rows ih =>
      rw [List.foldl_cons, ih]
      by_cases hrest : ∃ idx ∈ rows, idx ≤ x ∧ x < idx + len
      · obtain ⟨idx', hidx', hx⟩ := hrest
        rw [if_pos ⟨idx', hidx', hx⟩, if_pos ⟨idx', List.mem_cons_of_mem _ hidx', hx⟩]
      · rw [if_neg hrest, fill_apply]
        refine if_congr ?_ rfl rfl
        simp only [List.mem_cons, exists_eq_or_imp, hrest, or_false]

private theorem foldl_update_true (rows : List Nat) {m : Nat → Bool}
    (hm : ∀ x, m x = true) (x : Nat) :
    rows.foldl (fun m idx => update m (idx - 1) true) m x = true := by
  induction rows generalizing m with
  | nil => exact hm x
  | cons idx rows ih =>
      refine ih fun y => ?_
      change update m (idx - 1) true y = true
      by_cases hy : y = idx - 1
      · rw [hy, update_self]
      · rw [update_of_ne hy, hm]

private theorem nativeMask_true {mask : Nat → Bool} (hmask : ∀ x, mask x = true) (x : Nat) :
    nativeMask a bs mask x = true := by
  unfold nativeMask
  simp only [foldl_fill_const]
  split
  · rfl
  · rw [foldl_update_true _ hmask]

theorem native_treeMask {b d : TreeBuffers} (hmask : ∀ x, b.treeMask x = true)
    (hrun : buildTreeEfficientNative a bs b = some d) (x : Nat) : d.treeMask x = true := by
  unfold buildTreeEfficientNative at hrun
  simp only at hrun
  split at hrun
  · rw [← Option.some.inj hrun]
    exact hmask x
  · obtain ⟨s, -, rfl⟩ := Option.map_eq_some_iff.mp hrun
    exact nativeMask_true hmask x

theorem cuda_single_treeMask (hn : a.draftTokenNum = 1) {b c : TreeBuffers}
    (hmask : ∀ x, b.treeMask x = true) (hrun : a.launchBuildTree bs b = some c) (x : Nat) :
    c.treeMask x = true := by
  refine launch_preserves (P := fun b => ∀ x, b.treeMask x = true) ?_ hmask hrun x
  rintro ⟨bid, tid⟩ hp b b' hb hstep x
  have htid := (TreeArgs.mem_grid.mp hp).2
  obtain rfl : tid = 0 := by
    change tid < a.draftTokenNum at htid
    omega
  simp only [TreeArgs.buildTreeEfficient, hn, Nat.not_le.mpr Nat.one_pos, if_false, if_true,
    Nat.sub_self, TreeArgs.linkTokens, Option.some.injEq] at hstep
  rw [← hstep]
  dsimp only
  rw [TreeArgs.clearRow, hn, Nat.sub_self, fill_zero]
  by_cases hx : x = a.tokenTreeIdx bid 0 - 1
  · rw [hx, update_self]
  · rw [update_of_ne hx, hb]

/-- The root does not see the first draft token on the device. -/
theorem cuda_root_hides (hn : 1 < a.draftTokenNum) (h : a.RowTree 0) {c : TreeBuffers}
    (hpost : a.ThreadPost 0 0 h c) : c.treeMask (a.rootCell 0 0 + 1) = false := by
  have hcell := hpost.mask 1 hn
  rw [ParentTree.lineage_zero] at hcell
  simpa using hcell

end Mask

section Agree

variable {a} {bs : Nat}

theorem cuda_pair_sibling (hn : a.draftTokenNum = 2) (h : ∀ bid, bid < bs → a.RowTree bid)
    {b c : TreeBuffers} (hfresh : ∀ q, b.retriveNextSibling (q * 2) = -1)
    (hrun : a.launchBuildTree bs b = some c) (q : Nat) : c.retriveNextSibling (q * 2) = -1 := by
  refine launch_preserves (P := fun b => ∀ q, b.retriveNextSibling (q * 2) = -1) ?_ hfresh hrun q
  intro ⟨bid, tid⟩ hp b b' hb hstep q
  obtain ⟨hbid, htid⟩ := TreeArgs.mem_grid.mp hp
  have hlt := h bid hbid 1 Nat.one_pos (by omega)
  unfold TreeArgs.buildTreeEfficient at hstep
  simp only [if_neg (Nat.not_le.mpr htid)] at hstep
  split at hstep
  · simp only [hn, TreeArgs.linkTokens, Option.some.injEq] at hstep
    rw [← hstep]
    unfold TreeArgs.linkToken
    simp only [hn, if_neg (show a.parentPosition bid 1 ≠ 2 by omega)]
    split
    · exact hb q
    · dsimp only
      rw [update_of_ne (by omega)]
      exact hb q
  · split at hstep
    · cases hstep
    · rw [← Option.some.inj hstep]
      exact hb q

/-- With two draft tokens the device links the root to its only child. -/
theorem cuda_pair (hn2 : a.draftTokenNum = 2) (h : ∀ bid, bid < bs → a.RowTree bid)
    {positions : Nat → Nat} {c : TreeBuffers}
    (hrun : a.launchBuildTree bs (TreeArgs.freshBuffers positions) = some c)
    (hpost : ∀ bid (hb : bid < bs) tid, tid < a.draftTokenNum → a.ThreadPost bid tid (h bid hb) c)
    {bid tid : Nat} (hbid : bid < bs) (htid : tid < a.draftTokenNum) :
    c.positions (a.posCell (bid, tid)) = a.verifiedSeqLen bid + tid ∧
      c.retriveNextToken (a.posCell (bid, tid)) = (if tid = 0 then 1 else -1) ∧
      c.retriveNextSibling (a.posCell (bid, tid)) = -1 := by
  have hrow := h bid hbid
  have hpos := (hpost bid hbid tid htid).position
  have hroot := (hpost bid hbid 0 (by omega)).chains rfl 0 (by omega)
  have hleaf := (hpost bid hbid 0 (by omega)).chains rfl 1 (by omega)
  have hparent : (a.draftTree bid hrow).parent 1 = 0 := by
    have hlt := (a.draftTree bid hrow).parent_lt 1 Nat.one_pos
    omega
  have hchildren : (a.draftTree bid hrow).children a.draftTokenNum 0 = [1] ∧
      (a.draftTree bid hrow).children a.draftTokenNum 1 = [] := by
    simp [hn2, ParentTree.children, ParentTree.childrenFrom, hparent]
  rw [hchildren.1] at hroot
  rw [hchildren.2] at hleaf
  obtain ⟨hfirst, hend⟩ : c.retriveNextToken (bid * a.draftTokenNum + 0) = 1 ∧
      c.retriveNextSibling (bid * a.draftTokenNum + 1) = -1 := by
    generalize c.retriveNextToken (bid * a.draftTokenNum + 0) = head at hroot
    cases hroot with
    | cons hrest => exact ⟨rfl, hrest.head_eq_neg_one_iff.mpr rfl⟩
  obtain rfl | rfl : tid = 0 ∨ tid = 1 := by omega
  · have hsibling := cuda_pair_sibling hn2 h (fun _ => rfl) hrun bid
    rw [← hn2] at hsibling
    exact ⟨hpos.trans (by rw [ParentTree.depth_zero]), hfirst, hsibling⟩
  · refine ⟨hpos.trans ?_, hleaf.head_eq_neg_one_iff.mpr rfl, hend⟩
    rw [ParentTree.depth_of_pos _ Nat.one_pos, hparent, ParentTree.depth_zero]

/-- The fallback returns, and its positions and links are those of the device. -/
theorem native_rest_agrees (hn : 1 ≤ a.draftTokenNum) (h : ∀ bid, bid < bs → a.RowTree bid)
    (hrange : ∀ bid, bid < bs → InRange a bid) (positions : Nat → Nat) {c : TreeBuffers}
    (hrun : a.launchBuildTree bs (TreeArgs.freshBuffers positions) = some c)
    (hpost : ∀ bid (hb : bid < bs) tid, tid < a.draftTokenNum → a.ThreadPost bid tid (h bid hb) c) :
    ∃ d, buildTreeEfficientNative a bs (TreeArgs.freshBuffers positions) = some d ∧
      ∀ x, x < bs * a.draftTokenNum → d.positions x = c.positions x ∧
        d.retriveIndex x = c.retriveIndex x ∧ d.retriveNextToken x = c.retriveNextToken x ∧
        d.retriveNextSibling x = c.retriveNextSibling x := by
  have hindex : ∀ x, x < bs * a.draftTokenNum → c.retriveIndex x = x := by
    intro x hx
    obtain ⟨p, hp, rfl⟩ := TreeArgs.exists_posCell hx
    obtain ⟨hbid, htid⟩ := TreeArgs.mem_grid.mp hp
    exact (hpost p.1 hbid 0 hn).index rfl p.2 htid
  have hcell : ∀ {β : Type} {f m : Nat → β} {x}, x < bs * a.draftTokenNum →
      fill m 0 (bs * a.draftTokenNum) f x = f x := by
    intro β f m x hx
    rw [fill_apply, if_pos (by omega), Nat.sub_zero]
  have hdiv : ∀ {bid tid}, tid < a.draftTokenNum → a.posCell (bid, tid) / a.draftTokenNum = bid ∧
      a.posCell (bid, tid) % a.draftTokenNum = tid := by
    intro bid tid htid
    rw [TreeArgs.posCell, Nat.mul_comm, Nat.mul_add_div hn, Nat.div_eq_of_lt htid, Nat.mul_add_mod,
      Nat.mod_eq_of_lt htid]
    exact ⟨Nat.add_zero bid, rfl⟩
  unfold buildTreeEfficientNative
  simp only
  split
  · next hfast =>
      refine ⟨_, rfl, fun x hx => ?_⟩
      obtain ⟨⟨bid, tid⟩, hp, rfl⟩ := TreeArgs.exists_posCell hx
      obtain ⟨hbid, htid⟩ := TreeArgs.mem_grid.mp hp
      obtain ⟨hpos, htoken, hsibling⟩ := cuda_pair hfast.1 h hrun hpost hbid htid
      refine ⟨?_, (hcell hx).trans (hindex _ hx).symm, ?_, hsibling.symm⟩
      · dsimp only
        rw [hcell hx, (hdiv htid).1, (hdiv htid).2, hpos]
      · dsimp only
        rw [hcell hx, (hdiv htid).2, htoken]
  · have hstart : ∀ p ∈ a.grid bs, fill positions 0 (bs * a.draftTokenNum)
        (fun x => a.verifiedSeqLen (x / a.draftTokenNum)) (a.posCell p) = a.verifiedSeqLen p.1 := by
      intro p hp
      obtain ⟨hbid, htid⟩ := TreeArgs.mem_grid.mp hp
      have hlt : a.posCell p < bs * a.draftTokenNum := by
        have := Nat.mul_le_mul_right a.draftTokenNum (Nat.succ_le_of_lt hbid)
        rw [Nat.succ_mul] at this
        rw [TreeArgs.posCell]
        omega
      rw [hcell hlt, (hdiv htid).1]
    obtain ⟨s, hloops, hs, hpos⟩ := nativeLoops_sim (b := TreeArgs.freshBuffers positions)
      (s := ⟨_, fun _ => -1, fun _ => -1, []⟩) h hrange ⟨rfl, rfl⟩ hstart hrun hpost
    refine ⟨_, Option.map_eq_some_iff.mpr ⟨s, hloops, rfl⟩, fun x hx => ?_⟩
    refine ⟨hpos x hx, (hcell hx).trans (hindex x hx).symm, ?_, ?_⟩
    · exact congrFun hs.token x
    · exact congrFun hs.sibling x

private theorem rootCell_succ_lt (hbs : 0 < bs) (hn : 1 < a.draftTokenNum) :
    a.rootCell 0 0 + 1 < a.maskBase bs := by
  have hrow : a.maskRow 0 0 + (a.prefixLen 0 + a.draftTokenNum) ≤ a.maskBase (0 + 1) :=
    TreeArgs.maskRow_add_le (show 0 < a.draftTokenNum by omega)
  have hmono := TreeArgs.maskBase_mono (a := a) (show 0 + 1 ≤ bs by omega)
  rw [TreeArgs.rootCell]
  omega

/-- The fallback and the two kernels produce the same tensors exactly with a single draft token.
All stores stay inside the tensors in `FULL_MASK` mode or for one request; in `QLEN_ONLY` mode the
AscendC kernel also stores behind the end of `tree_mask`, which `SameOutput` does not compare. -/
theorem native_agree_iff (a : TreeArgs) {maxAivCore bs : Nat} (hcore : 1 ≤ maxAivCore)
    (hbs : 1 ≤ bs) (hn : 1 ≤ a.draftTokenNum) (hmode : a.treeMaskMode ≠ .qlenOnlyBitpacking)
    (h : ∀ bid, bid < bs → a.RowTree bid) (hrange : ∀ bid, bid < bs → InRange a bid)
    (stale : Nat → Stale) (positions : Nat → Nat) :
    (∃ cuda npu native, a.launchBuildTree bs (TreeArgs.freshBuffers positions) = some cuda ∧
        buildTreeEfficient a maxAivCore bs stale (TreeArgs.freshBuffers positions) = some npu ∧
        buildTreeEfficientNative a bs (TreeArgs.freshBuffers positions) = some native ∧
        SameOutput a bs cuda native ∧ SameOutput a bs npu native) ↔
      a.draftTokenNum = 1 := by
  obtain ⟨c, m, hcuda, hnpu, -, hpost, -⟩ := launches_result hcore hbs hn hmode h stale positions
  obtain ⟨d, hnative, hrest⟩ := native_rest_agrees hn h hrange positions hcuda hpost
  have hmask := native_treeMask (fun _ => rfl) hnative
  constructor
  · rintro ⟨cuda, npu, native, hcuda', -, hnative', hsame, -⟩
    obtain rfl : c = cuda := Option.some.inj (hcuda.symm.trans hcuda')
    obtain rfl : d = native := Option.some.inj (hnative.symm.trans hnative')
    by_contra hone
    have hhides := cuda_root_hides (by omega) (h 0 hbs) (hpost 0 hbs 0 hn)
    rw [← hsame.mask _ (rootCell_succ_lt hbs (by omega)), hmask] at hhides
    exact Bool.noConfusion hhides
  · intro hone
    obtain ⟨cuda, npu, hcuda', hnpu', hagree⟩ :=
      launches_agree hcore hbs hn hmode h stale positions (.inr hone)
    obtain rfl : c = cuda := Option.some.inj (hcuda.symm.trans hcuda')
    have hset := cuda_single_treeMask hone (fun _ => rfl) hcuda
    have hsame : SameOutput a bs c d :=
      ⟨fun x _ => (hmask x).trans (hset x).symm, fun x hx => (hrest x hx).1,
        fun x hx => (hrest x hx).2.1, fun x hx => (hrest x hx).2.2.1,
        fun x hx => (hrest x hx).2.2.2⟩
    exact ⟨c, npu, d, hcuda, hnpu', hnative, hsame, hsame.trans_left hagree⟩

/-- Nothing is drafted, in `FULL_MASK` mode. -/
def rootArgs : TreeArgs := { pairArgs with draftTokenNum := 1, treeMaskMode := .fullMask }

theorem native_agree_root :
    ∃ cuda npu native, rootArgs.launchBuildTree 2 (TreeArgs.freshBuffers fun _ => 0) = some cuda ∧
      buildTreeEfficient rootArgs 40 2 (fun _ => zeroStale)
        (TreeArgs.freshBuffers fun _ => 0) = some npu ∧
      buildTreeEfficientNative rootArgs 2 (TreeArgs.freshBuffers fun _ => 0) = some native ∧
      SameOutput rootArgs 2 cuda native ∧ SameOutput rootArgs 2 npu native :=
  (native_agree_iff rootArgs (by decide) (by decide) (by decide) (by decide)
    (fun _ _ i hi hn => absurd hn (by change ¬i < 1; omega))
    (fun _ _ p hp => absurd hp (Nat.not_lt_zero p)) (fun _ => zeroStale) fun _ => 0).mpr rfl

/-- The root must not see its draft token, but the fallback leaves the cell set. -/
theorem native_disagree_pair :
    pairArgs.RowTree 0 ∧ InRange pairArgs 0 ∧
    ∃ cuda native, pairArgs.launchBuildTree 1 (TreeArgs.freshBuffers fun _ => 0) = some cuda ∧
      buildTreeEfficientNative pairArgs 1 (TreeArgs.freshBuffers fun _ => 0) = some native ∧
      cuda.treeMask 1 = false ∧ native.treeMask 1 = true ∧ ¬ SameOutput pairArgs 1 cuda native := by
  have hrange : InRange pairArgs 0 := fun _ _ => show 0 / 1 < 1 * (1 - 1) + 1 by decide
  refine ⟨pairArgs_rowTree 0, hrange, _, _, rfl, rfl, rfl, rfl, fun hsame => ?_⟩
  have hcell := hsame.mask 1 (by decide)
  exact absurd hcell (by decide)

end Agree

end SpecDecode.Npu
