import SpecDecode.MemCache.SwaLocks

/-!
# Taking and giving back locks

`inc_lock_ref` counts the nodes up to the root and, until a window is covered, also their
window counts. `dec_lock_ref` and `dec_swa_lock_only` walk the same way and stop at the node
with the uuid, which is the last one the lock counts for its window: `Flows` states this node
by node.
-/

namespace SpecDecode.MemCache

open RadixTree
open RadixCache (Shift shift_inc shift_dec)

variable {σ : Type}

namespace SwaRadixCache

variable {c : SwaCacheParams} {s s' : SwaRadixCache σ} {live : Finset Nat} {v w node fuel : Nat}
variable {full swa full' swa' : Nat → Nat} {l : List Nat} {uuid : Option Nat}

structure KeepsTree (s s' : SwaRadixCache σ) : Prop where
  tree : s'.tree = s.tree
  rootNode : s'.rootNode = s.rootNode
  counter : s'.counter = s.counter
  frees : s'.frees = s.frees

theorem KeepsTree.refl (s : SwaRadixCache σ) : KeepsTree s s := ⟨rfl, rfl, rfl, rfl⟩

theorem KeepsTree.trans {s'' : SwaRadixCache σ} (h : KeepsTree s s') (h' : KeepsTree s' s'') :
    KeepsTree s s'' :=
  ⟨h'.tree.trans h.tree, h'.rootNode.trans h.rootNode, h'.counter.trans h.counter,
    h'.frees.trans h.frees⟩

theorem KeepsTree.view_eq (h : KeepsTree s s') : view c s' = view c s := by
  simp only [view, h.tree]

theorem KeepsTree.pagesOf_eq (h : KeepsTree s s') (v : Nat) : pagesOf c s' v = pagesOf c s v := by
  simp only [pagesOf, h.tree]

theorem KeepsTree.above (h : KeepsTree s s') (v : Nat) : SameAbove c s s' v :=
  ⟨fun w => by rw [h.rootNode, h.view_eq], fun w p _ => by rw [h.rootNode, h.view_eq],
    fun w _ => h.pagesOf_eq w⟩

theorem lockFull_keeps (border d : Int) (v : Nat) (s : SwaRadixCache σ) :
    KeepsTree s (s.lockFull border d v) :=
  ⟨updateNode_tree (s := s) (v := v) (f := fun n => { n with fullLockRef := n.fullLockRef + d })
    rfl, rfl, rfl, rfl⟩

theorem lockSwa_keeps (border d : Int) (v : Nat) (s : SwaRadixCache σ) :
    KeepsTree s (s.lockSwa border d v) :=
  ⟨updateNode_tree (s := s) (v := v) (f := fun n => { n with swaLockRef := n.swaLockRef + d }) rfl,
    rfl, rfl, rfl⟩

theorem markNode_keeps (v : Nat) (s : SwaRadixCache σ) : KeepsTree s (s.markNode v).2 := by
  have hs := markNode_same s v
  refine ⟨hs.tree, hs.rootNode, hs.counter, ?_⟩
  unfold markNode
  split <;> rfl

def SameMarks (s s' : SwaRadixCache σ) : Prop :=
  (∀ v, (s'.nodes v).swaTombstone = (s.nodes v).swaTombstone) ∧
    (∀ v, (s'.nodes v).swaUuid = (s.nodes v).swaUuid) ∧ s'.swaUuidCounter = s.swaUuidCounter

theorem SameMarks.trans {s'' : SwaRadixCache σ} (h : SameMarks s s') (h' : SameMarks s' s'') :
    SameMarks s s'' :=
  ⟨fun v => (h'.1 v).trans (h.1 v), fun v => (h'.2.1 v).trans (h.2.1 v), h'.2.2.trans h.2.2⟩

theorem SameMarks.uuids (h : SameMarks s s') (hu : Uuids s live) : Uuids s' live :=
  hu.of_marks h.2.2 fun v hv _ hk => ⟨hv, (h.2.1 v).symm.trans hk⟩

theorem lockFull_marks (border d : Int) (v : Nat) (s : SwaRadixCache σ) :
    SameMarks s (s.lockFull border d v) := by
  refine ⟨fun w => ?_, fun w => ?_, rfl⟩
  all_goals
    by_cases hw : w = v
    · rw [hw, lockFull_self]
    · rw [lockFull_other hw]

theorem lockSwa_marks (border d : Int) (v : Nat) (s : SwaRadixCache σ) :
    SameMarks s (s.lockSwa border d v) := by
  refine ⟨fun w => ?_, fun w => ?_, rfl⟩
  all_goals
    by_cases hw : w = v
    · rw [hw, lockSwa_self]
    · rw [lockSwa_other hw]

section Inc

def bump (count : Nat → Nat) (l : List Nat) (v : Nat) : Nat := count v + if v ∈ l then 1 else 0

@[simp] theorem bump_nil (count : Nat → Nat) : bump count [] = count := by
  funext v
  simp [bump]

theorem bump_cons (count : Nat → Nat) (hv : v ∉ l) :
    bump (Function.update count v (count v + 1)) l = bump count (v :: l) := by
  funext w
  by_cases hw : w = v
  · simp only [bump, hw, Function.update_self, if_neg hv, List.mem_cons_self, if_true]
  · simp only [bump, Function.update_of_ne hw, List.mem_cons, hw, false_or]

theorem incLockLoop_full (uuid : Option Nat) {size : Nat} (h : Book c s full swa live)
    (hl : RadixTree.Chain (view c s) s.rootNode node l) (hlive : ∀ v ∈ l, v ∈ live)
    (hsize : c.slidingWindowSize ≤ size) (hfuel : l.length < fuel) :
    ∃ s', incLockLoop c fuel node size uuid s = some (uuid, s') ∧ KeepsTree s s' ∧
      SameMarks s s' ∧ Book c s' (bump full l) swa live := by
  induction l generalizing s full node fuel with
  | nil =>
      obtain ⟨fuel, rfl⟩ := Nat.exists_eq_succ_of_ne_zero (Nat.ne_of_gt hfuel)
      cases hl
      refine ⟨s, by rw [incLockLoop, if_pos rfl], .refl s, ⟨fun _ => rfl, fun _ => rfl, rfl⟩, ?_⟩
      rwa [bump_nil]
  | cons v l ih =>
      obtain ⟨fuel, rfl⟩ := Nat.exists_eq_succ_of_ne_zero (Nat.ne_zero_of_lt hfuel)
      have hnodup := List.nodup_cons.mp hl.nodup
      cases hl with
      | @node _ u _ hv hparent hl =>
        have hvlive := hlive v List.mem_cons_self
        have hparent : (s.nodes v).parent = some u := hparent
        have hbook := h.lockFull hvlive (shift_inc (full v))
        have hkeeps := lockFull_keeps 0 1 v s
        have hmarks := lockFull_marks 0 1 v s
        have hpos : 0 ≤ (s.nodes v).fullLockRef := by
          rw [h.fullLock v hvlive]
          exact Int.natCast_nonneg _
        simp only [incLockLoop, if_neg hv, if_pos hpos, hparent, if_neg (Nat.not_lt_of_le hsize)]
        rw [← hkeeps.view_eq (c := c), ← hkeeps.rootNode] at hl
        obtain ⟨s', hrun, hk, hm, hb⟩ :=
          ih hbook hl (fun w hw => hlive w (List.mem_cons_of_mem _ hw))
          (Nat.lt_of_succ_lt_succ hfuel)
        rw [bump_cons full hnodup.1] at hb
        exact ⟨s', hrun, hkeeps.trans hk, hmarks.trans hm, hb⟩

theorem Uuids.markNode (h : Uuids s live) (v : Nat) : Uuids (s.markNode v).2 live := by
  cases hu : (s.nodes v).swaUuid with
  | some uuid =>
      have heq : (s.markNode v).2 = s := by simp [SwaRadixCache.markNode, hu]
      rwa [heq]
  | none =>
      have hcounter : (s.markNode v).2.swaUuidCounter = s.swaUuidCounter + 1 := by
        simp [SwaRadixCache.markNode, hu]
      have hself : ((s.markNode v).2.nodes v).swaUuid = some (s.swaUuidCounter + 1) := by
        simp [SwaRadixCache.markNode, hu, updateNode]
      have hrange : ∀ w ∈ live, w ≠ v → ∀ uuid, ((s.markNode v).2.nodes w).swaUuid = some uuid →
          0 < uuid ∧ uuid ≤ s.swaUuidCounter := fun w hw hne uuid hu => by
        rw [markNode_other hne] at hu
        exact h.range w hw uuid hu
      refine ⟨fun w hw uuid huu => ?_, fun w hw x hx uuid huu huu' => ?_⟩
      · rw [hcounter]
        by_cases hwv : w = v
        · rw [hwv, hself] at huu
          obtain rfl := Option.some.inj huu
          exact ⟨Nat.succ_pos _, Nat.le_refl _⟩
        · obtain ⟨hpos, hle⟩ := hrange w hw hwv uuid huu
          exact ⟨hpos, Nat.le_succ_of_le hle⟩
      · by_cases hwv : w = v
        · by_cases hxv : x = v
          · rw [hwv, hxv]
          · rw [hwv, hself] at huu
            obtain rfl := Option.some.inj huu
            exact absurd (hrange x hx hxv _ huu').2 (Nat.not_succ_le_self _)
        · by_cases hxv : x = v
          · rw [hxv, hself] at huu'
            obtain rfl := Option.some.inj huu'
            exact absurd (hrange w hw hwv _ huu).2 (Nat.not_succ_le_self _)
          · rw [markNode_other hwv] at huu
            rw [markNode_other hxv] at huu'
            exact h.unique w hw x hx uuid huu huu'

/-- The last node that a lock counts for its window. -/
def Border (s : SwaRadixCache σ) (uuid : Option Nat) (l₁ l₂ : List Nat) : Prop :=
  (uuid = none ∧ l₂ = []) ∨
    ∃ l₀ b k, l₁ = l₀ ++ [b] ∧ uuid = some k ∧ (s.nodes b).swaUuid = some k

def KeepsUuids (s s' : SwaRadixCache σ) : Prop :=
  ∀ v k, (s.nodes v).swaUuid = some k → (s'.nodes v).swaUuid = some k

/-- The values of the nodes below `l` on the way to the locked node have `size` slots; unless
they make up a window, the next node is not a tombstone. -/
def Clear (c : SwaCacheParams) (s : SwaRadixCache σ) : (size : Nat) → List Nat → Prop
  | _, [] => True
  | size, v :: l => (size < c.slidingWindowSize → (s.nodes v).swaTombstone = false) ∧
      Clear c s (size + (s.nodes v).value.length) l

theorem Clear.congr {size : Nat} (h : Clear c s size l) (htree : s'.tree = s.tree)
    (htomb : ∀ v, (s'.nodes v).swaTombstone = (s.nodes v).swaTombstone) : Clear c s' size l := by
  induction l generalizing size with
  | nil => trivial
  | cons v l ih =>
      have hvalue : (s'.nodes v).value = (s.nodes v).value :=
        congrArg PageNode.value (congrFun htree v)
      rw [Clear, htomb, hvalue]
      exact ⟨h.1, ih h.2⟩

/-- The loop of `inc_lock_ref` counts a first part `l₁` of the chain for the window. -/
theorem incLockLoop_spec {size : Nat} (h : Book c s full swa live) (huuids : Uuids s live)
    (hl : RadixTree.Chain (view c s) s.rootNode node l) (hlive : ∀ v ∈ l, v ∈ live)
    (hclear : Clear c s size l) (hsize : size < c.slidingWindowSize) (hfuel : l.length < fuel) :
    ∃ uuid s' l₁ l₂, incLockLoop c fuel node size none s = some (uuid, s') ∧ l = l₁ ++ l₂ ∧
      (l ≠ [] → l₁ ≠ []) ∧ KeepsTree s s' ∧
      (∀ v, (s'.nodes v).swaTombstone = (s.nodes v).swaTombstone) ∧ KeepsUuids s s' ∧
      Uuids s' live ∧ Border s' uuid l₁ l₂ ∧ Book c s' (bump full l) (bump swa l₁) live := by
  induction l generalizing s full swa node size fuel with
  | nil =>
      obtain ⟨fuel, rfl⟩ := Nat.exists_eq_succ_of_ne_zero (Nat.ne_of_gt hfuel)
      cases hl
      refine ⟨none, s, [], [], by rw [incLockLoop, if_pos rfl], rfl, fun hne => absurd rfl hne,
        .refl s, fun _ => rfl, fun _ _ hu => hu, huuids, .inl ⟨rfl, rfl⟩, ?_⟩
      rwa [bump_nil, bump_nil]
  | cons v l ih =>
      obtain ⟨fuel, rfl⟩ := Nat.exists_eq_succ_of_ne_zero (Nat.ne_zero_of_lt hfuel)
      have hnodup := List.nodup_cons.mp hl.nodup
      have hfuel := Nat.lt_of_succ_lt_succ hfuel
      cases hl with
      | @node _ u _ hv hparent hl =>
        have hvlive := hlive v List.mem_cons_self
        have hrest : ∀ w ∈ l, w ∈ live := fun w hw => hlive w (List.mem_cons_of_mem _ hw)
        have hparent : (s.nodes v).parent = some u := hparent
        have htomb := hclear.1 hsize
        have hpos : 0 ≤ (s.nodes v).fullLockRef := by
          rw [h.fullLock v hvlive]
          exact Int.natCast_nonneg _
        have hbook := (h.lockFull hvlive (shift_inc (full v))).lockSwa hvlive
          (((lockFull_marks 0 1 v s).1 v).trans htomb) (shift_inc (swa v))
        have hkeeps := (lockFull_keeps 0 1 v s).trans (lockSwa_keeps 0 1 v _)
        have hmarks := (lockFull_marks 0 1 v s).trans (lockSwa_marks 0 1 v _)
        simp only [incLockLoop, if_neg hv, if_pos hpos, hparent, if_pos hsize, htomb,
          Bool.false_eq_true, if_false]
        generalize (s.lockFull 0 1 v).lockSwa 0 1 v = s₁ at hbook hkeeps hmarks ⊢
        have huuids₁ := hmarks.uuids huuids
        by_cases hfull : c.slidingWindowSize ≤ size + (s.nodes v).value.length
        · rw [if_pos hfull]
          have hkeeps' := hkeeps.trans (markNode_keeps v s₁)
          have hsame := markNode_same s₁ v
          rw [← hkeeps'.view_eq (c := c), ← hkeeps'.rootNode] at hl
          obtain ⟨s', hrun, hk, hm, hb⟩ := incLockLoop_full (some (s₁.markNode v).1)
            (hbook.markNode v) hl hrest hfull hfuel
          rw [bump_cons full hnodup.1] at hb
          refine ⟨_, s', [v], l, hrun, rfl, fun _ => List.cons_ne_nil _ _, hkeeps'.trans hk, ?_, ?_,
            hm.uuids (huuids₁.markNode v), .inr ⟨[], v, (s₁.markNode v).1, rfl, rfl, ?_⟩, ?_⟩
          · exact fun w => (hm.1 w).trans ((hsame.flags w).1.trans (hmarks.1 w))
          · intro w k hold
            rw [hm.2.1 w]
            rw [← hmarks.2.1 w] at hold
            by_cases hwv : w = v
            · rw [hwv] at hold ⊢
              rw [markNode_self]
              simp [SwaRadixCache.markNode, hold]
            · rw [markNode_other hwv, hold]
          · rw [hm.2.1 v, markNode_self]
          · have hone : Function.update swa v (swa v + 1) = bump swa [v] := by
              rw [← bump_cons swa List.not_mem_nil, bump_nil]
            rwa [hone] at hb
        · rw [if_neg hfull]
          rw [← hkeeps.view_eq (c := c), ← hkeeps.rootNode] at hl
          obtain ⟨uuid, s', l₁, l₂, hrun, rfl, _, hk, ht, hu, hus, hborder, hb⟩ :=
            ih hbook huuids₁ hl hrest
            (hclear.2.congr hkeeps.tree hmarks.1) (Nat.lt_of_not_le hfull) hfuel
          have hnot : v ∉ l₁ := fun hmem => hnodup.1 (List.mem_append_left _ hmem)
          rw [bump_cons full hnodup.1, bump_cons swa hnot] at hb
          refine ⟨uuid, s', v :: l₁, l₂, hrun, rfl, fun _ => List.cons_ne_nil _ _, hkeeps.trans hk,
            ?_, ?_, hus, ?_, hb⟩
          · exact fun w => (ht w).trans (hmarks.1 w)
          · exact fun w k hk => hu w k ((hmarks.2.1 w).trans hk)
          · rcases hborder with ⟨hnone, hnil⟩ | ⟨l₀, b, k, rfl, hk, hb⟩
            · exact .inl ⟨hnone, hnil⟩
            · exact .inr ⟨v :: l₀, b, k, rfl, hk, hb⟩

/-- The words of the nodes whose window count a call changes. -/
def lockedWords (c : SwaCacheParams) (s s' : SwaRadixCache σ) : Set (List ChildKey) :=
  {p | ∃ v i, Reads (view c s) s.rootNode p v i ∧ (s'.nodes v).swaLockRef ≠ (s.nodes v).swaLockRef}

/-- The lock that a call of `inc_lock_ref` takes. -/
def lockOf (c : SwaCacheParams) (s s' : SwaRadixCache σ) (node : Nat) (uuid : Option Nat) : Lock :=
  ⟨node, uuid, true, lockedWords c s s'⟩

theorem Book.value_length (h : Book c s full swa live) (hv : v ∈ live) :
    (s.nodes v).value.length = pagesOf c s v * c.pageSize :=
  (h.paged.values v hv).trans (h.paged.aligned v hv).len_eq.symm

theorem Usable.clear (h : Book c s full swa live) (hu : Usable c s node) {p q : List ChildKey}
    (hp : Spells (view c s) s.rootNode node p) (hl : RadixTree.Chain (view c s) s.rootNode v l)
    (hq : Spells (view c s) s.rootNode v q) (hunder : ∀ x ∈ l, Under (view c s) s.rootNode x node)
    (hle : q.length ≤ p.length) : Clear c s ((p.length - q.length) * c.pageSize) l := by
  induction hl generalizing q with
  | root => trivial
  | @node v u l hne hparent _ ih =>
      have hvlive := (h.wf.spells_live hq).resolve_left hne
      refine ⟨hu v p q (hunder v List.mem_cons_self) hp hq, ?_⟩
      obtain ⟨r, hr, rfl⟩ := h.wf.spells_parent hvlive hparent hq
      have hlen : (r ++ (view c s v).label).length = r.length + pagesOf c s v := List.length_append
      have hrest := ih hr (fun x hx => hunder x (List.mem_cons_of_mem _ hx)) (by omega)
      rw [h.value_length hvlive, ← Nat.add_mul]
      rwa [show p.length - (r ++ (view c s v).label).length + pagesOf c s v =
        p.length - r.length by omega]

theorem KeepsTree.fullCount_eq {locks : List Lock} (hk : KeepsTree s s') (v : Nat) :
    fullCount c s' locks v = fullCount c s locks v :=
  fullCount_congr fun lock _ => (hk.above lock.node).under v

theorem KeepsTree.swaCount_eq {locks : List Lock} (hk : KeepsTree s s') (v : Nat) :
    swaCount c s' locks v = swaCount c s locks v :=
  swaCount_congr fun _ _ _ => (hk.above v).covers_iff

/-- A disabled cache returns at once, as the loop does at the root. -/
theorem incLockRef_eq (hoff : c.disable = true → node = s.rootNode) :
    s.incLockRef c node = incLockLoop c (s.counter + 1) node 0 none s := by
  rw [incLockRef]
  split
  · next hdis => rw [incLockLoop, if_pos (hoff hdis)]
  · rfl

/-- The nodes up to the root are `l₁`, which lie behind the first `start` pages of `path`, and `l₂`,
which lie within them. -/
structure CutAt (c : SwaCacheParams) (s : SwaRadixCache σ) (node : Nat) (path : List ChildKey)
    (start : Nat) (l₁ l₂ : List Nat) : Prop where
  spells : Spells (view c s) s.rootNode node path
  under : ∀ v, Under (view c s) s.rootNode v node ↔ v ∈ l₁ ++ l₂
  behind : ∀ v ∈ l₁, ∀ q, Spells (view c s) s.rootNode v q → start + pagesOf c s v ≤ q.length
  within : ∀ v ∈ l₂, ∀ q, Spells (view c s) s.rootNode v q → q.length ≤ start

variable {path : List ChildKey} {start : Nat} {l₁ l₂ : List Nat}

theorem CutAt.mem_iff (hc : CutAt c s node path start l₁ l₂) (hwf : Wf (view c s) s.rootNode live)
    (hv : v ∈ live) {q : List ChildKey} (hq : Spells (view c s) s.rootNode v q) :
    Under (view c s) s.rootNode v node ∧ start < q.length ↔ v ∈ l₁ := by
  have hpos : 0 < pagesOf c s v := List.length_pos_of_ne_nil (hwf.label_ne_nil hv)
  constructor
  · rintro ⟨hunder, hlt⟩
    rcases List.mem_append.mp ((hc.under v).mp hunder) with hmem | hmem
    · exact hmem
    · exact absurd (hc.within v hmem q hq) (Nat.not_le_of_lt hlt)
  · intro hmem
    have hbehind := hc.behind v hmem q hq
    exact ⟨(hc.under v).mpr (List.mem_append_left _ hmem), by omega⟩

/-- If the window counts of the nodes of `l₁` have changed, the words behind `start` are locked. -/
theorem CutAt.lockedWords_eq (hc : CutAt c s node path start l₁ l₂)
    (hwf : Wf (view c s) s.rootNode live) (hlive : node = s.rootNode ∨ node ∈ live)
    (hchanged : ∀ v ∈ live, (s'.nodes v).swaLockRef ≠ (s.nodes v).swaLockRef ↔ v ∈ l₁) :
    lockedWords c s s' = {q | q <+: path ∧ start < q.length} := by
  ext q
  constructor
  · rintro ⟨v, i, hread, hdiff⟩
    have hvlive := (hwf.reads_live hread (.inl rfl)).1
    have hv := (hchanged v hvlive).mp hdiff
    obtain ⟨hpos, hi, x, a, p, hp, hchild, rfl⟩ := hwf.reads_iff_spells.mp hread
    have hvp : Spells (view c s) s.rootNode v (p ++ (view c s v).label) := .child hp hchild
    refine ⟨(hwf.reads_prefix hread hvp).trans ((hwf.prefix_iff_under hvlive hvp hc.spells).mpr
      ((hc.under v).mpr (List.mem_append_left _ hv))), ?_⟩
    have hstart := hc.behind v hv _ hvp
    have hpages : pagesOf c s v = (view c s v).label.length := rfl
    rw [List.length_append] at hstart ⊢
    rw [List.length_take]
    omega
  · rintro ⟨hpre, hlt⟩
    have hnil : q ≠ [] := List.ne_nil_of_length_pos (Nat.zero_lt_of_lt hlt)
    obtain ⟨v, i, hread, hv⟩ := hwf.reads_under hc.spells hpre hnil
    have hvlive := hwf.under_live hlive hv
    refine ⟨v, i, hread, (hchanged v hvlive).mpr ?_⟩
    obtain ⟨p, hp⟩ := hwf.exists_spells (.inr hvlive)
    have hqp := (hwf.reads_prefix hread hp).length_le
    exact (hc.mem_iff hwf hvlive hp).mp ⟨hv, Nat.lt_of_lt_of_le hlt hqp⟩

/-- The window of the lock that is taken: `l₁`, whose last node has the uuid. -/
theorem CutAt.window (hc : CutAt c s node path start l₁ l₂)
    (hwf : Wf (view c s) s.rootNode live) (hlive : node = s.rootNode ∨ node ∈ live)
    (hk : KeepsTree s s') (hcovered : lockedWords c s s' = {q | q <+: path ∧ start < q.length})
    (hlast : ∀ b, l₁.getLast? = some b → ∀ q, Spells (view c s) s.rootNode b q →
      q.length = start + pagesOf c s b)
    (hzero : l₂ = [] → start = 0) (hborder : Border s' uuid l₁ l₂) :
    Window c s' (lockOf c s s' node uuid) path start := by
  refine ⟨((hk.above _).spells _ _ (.inl rfl)).mpr hc.spells, hcovered, fun v q hv hq => ?_, ?_⟩
  · rw [hk.rootNode, hk.view_eq] at hv hq
    rw [hk.pagesOf_eq]
    exact (List.mem_append.mp ((hc.under v).mp hv)).imp (hc.behind v · q hq) (hc.within v · q hq)
  · rcases hborder with ⟨hnone, hnil⟩ | ⟨l₀, b, k, rfl, hsome, hmark⟩
    · simp only [lockOf, hnone]
      exact hzero hnil
    · have hb : Under (view c s) s.rootNode b node := (hc.under b).mpr (by simp)
      obtain ⟨q, hq⟩ := hwf.exists_spells (.inr (hwf.under_live hlive hb))
      simp only [lockOf, hsome]
      refine ⟨b, q, ((hk.above _).under b).mpr hb,
        ((hk.above b).spells b q (.inl rfl)).mpr hq, ?_, hmark⟩
      rw [hk.pagesOf_eq]
      exact (hlast b (List.getLast?_concat ..) q hq).symm

theorem Inv.inc {locks : List Lock} {handles : List Nat} (h : Inv c s locks handles live)
    (hoff : c.disable = true → node = s.rootNode) (hnode : node ∈ handles) :
    ∃ uuid s', s.incLockRef c node = some (uuid, s') ∧ KeepsTree s s' ∧
      (∀ v, (s'.nodes v).swaTombstone = (s.nodes v).swaTombstone) ∧
      Inv c s' (lockOf c s s' node uuid :: locks) handles live := by
  classical
  have hwf := h.book.wf
  obtain ⟨hlive, husable⟩ := h.usable node hnode
  obtain ⟨l, hl⟩ := hwf.exists_chain hlive
  obtain ⟨path, hpath⟩ := hwf.exists_spells hlive
  have hclear := husable.clear h.book hpath hl hpath (fun x hx => hl.under_iff.mpr hx)
    (Nat.le_refl _)
  rw [Nat.sub_self, Nat.zero_mul] at hclear
  obtain ⟨uuid, s', l₁, l₂, hrun, rfl, hne, hk, htomb, hkeep, huuids, hborder, hbook⟩ :=
    incLockLoop_spec h.book h.uuids hl (hwf.chain_live hl hlive) hclear c.slidingWindowSize_pos
      (Nat.lt_succ_of_le (h.book.paged.chain_length hl hlive))
  obtain ⟨u, r, hu, hr, hle, hpart, hlast⟩ := hwf.chain_append hl hpath
  have hc : CutAt c s node path r.length l₁ l₂ := by
    refine ⟨hpath, fun v => hl.under_iff, hpart, fun x hx q hq => ?_⟩
    have hxu := hu.under_iff.mpr hx
    exact ((hwf.prefix_iff_under (hwf.under_live (hwf.spells_live hr) hxu) hq hr).mpr hxu).length_le
  have hchanged : ∀ v ∈ live, (s'.nodes v).swaLockRef ≠ (s.nodes v).swaLockRef ↔ v ∈ l₁ := by
    intro v hv
    rw [hbook.swaLock v hv, h.book.swaLock v hv, bump]
    split <;> simp [*]
  have hcovered := hc.lockedWords_eq hwf hlive hchanged
  have hzero : l₂ = [] → r.length = 0 := by
    rintro rfl
    cases hu
    rw [hwf.spells_unique hr .root, List.length_nil]
  have hwindow := hc.window hwf hlive hk hcovered hlast hzero hborder
  have hcovers : ∀ v ∈ live, Covers c s' (lockOf c s s' node uuid) v ↔ v ∈ l₁ := by
    intro v hv
    obtain ⟨q, hq⟩ := hwf.exists_spells (.inr hv)
    rw [(hk.above v).covers_iff, ← hc.mem_iff hwf hv hq, ← hwf.prefix_iff_under hv hq hpath]
    have hmem : q ∈ lockedWords c s s' ↔ q <+: path ∧ r.length < q.length := by rw [hcovered]; rfl
    refine ⟨fun ⟨q', hq', hq''⟩ => ?_, fun hq' => ⟨q, hq, hmem.mpr hq'⟩⟩
    obtain rfl := hwf.spells_unique hq hq'
    exact hmem.mp hq''
  refine ⟨uuid, s', (incLockRef_eq hoff).trans hrun, hk, htomb,
    hbook.congr_counts (fun v _ => ?_) fun v hv => ?_, fun lock hlock => ?_, fun lock hlock hheld =>
    ?_, huuids, fun v hv => ?_⟩
  · rw [fullCount, List.countP_cons, bump]
    refine congr (congrArg HAdd.hAdd (hk.fullCount_eq v)) (if_congr ?_ rfl rfl)
    rw [decide_eq_true_iff, (hk.above _).under]
    exact hl.under_iff
  · rw [swaCount, List.countP_cons, bump]
    refine congr (congrArg HAdd.hAdd (hk.swaCount_eq v)) (if_congr ?_ rfl rfl)
    rw [decide_eq_true_iff, hcovers v hv]
    exact and_iff_right rfl
  · rw [hk.rootNode]
    rcases List.mem_cons.mp hlock with rfl | hlock
    · exact hlive
    · exact h.node lock hlock
  · rcases List.mem_cons.mp hlock with rfl | hlock
    · exact ⟨path, r.length, hwindow⟩
    · obtain ⟨p, start, hw⟩ := h.window lock hlock hheld
      exact ⟨p, start, hw.sameAbove (hk.above _) fun v k _ => hkeep v k⟩
  · rw [hk.rootNode]
    exact ⟨(h.usable v hv).1, (h.usable v hv).2.sameAbove (hk.above v) fun x _ => (htomb x).trans⟩

end Inc

section Dec

/-- The nodes of a chain up to the first one with the uuid. -/
def upToBorder (uuid : Option Nat) (s : SwaRadixCache σ) : List Nat → List Nat
  | [] => []
  | v :: l => if isBorder uuid (s.nodes v) then [v] else v :: upToBorder uuid s l

theorem upToBorder_congr (huuid : ∀ v, (s'.nodes v).swaUuid = (s.nodes v).swaUuid) :
    upToBorder uuid s' l = upToBorder uuid s l := by
  induction l with
  | nil => rfl
  | cons v l ih =>
      have hsame : isBorder uuid (s'.nodes v) = isBorder uuid (s.nodes v) := by
        simp only [isBorder, huuid]
      rw [upToBorder, upToBorder, hsame, ih]

theorem mem_of_upToBorder (hv : v ∈ upToBorder uuid s l) : v ∈ l := by
  induction l with
  | nil => exact hv
  | cons w l ih =>
      rw [upToBorder] at hv
      split at hv
      · rw [List.mem_singleton] at hv
        exact hv ▸ List.mem_cons_self
      · rcases List.mem_cons.mp hv with rfl | hv
        · exact List.mem_cons_self
        · exact List.mem_cons_of_mem _ (ih hv)

def lower (count : Nat → Nat) (l : List Nat) (v : Nat) : Nat := count v - if v ∈ l then 1 else 0

@[simp] theorem lower_nil (count : Nat → Nat) : lower count [] = count := by
  funext v
  simp [lower]

theorem lower_cons (count : Nat → Nat) (hv : v ∉ l) :
    lower (Function.update count v (count v - 1)) l = lower count (v :: l) := by
  funext w
  by_cases hw : w = v
  · simp only [lower, hw, Function.update_self, if_neg hv, List.mem_cons_self,
      if_true, Nat.sub_zero]
  · simp only [lower, Function.update_of_ne hw, List.mem_cons, hw, false_or]

theorem shift_pred {m : Nat} (hm : 0 < m) : Shift 1 (-1) m (m - 1) := by
  have hshift := shift_dec (m - 1)
  rwa [Nat.sub_add_cancel hm] at hshift

theorem pos_of_update {count : Nat → Nat} {m : Nat} (hv : v ∉ l) (h : ∀ w ∈ l, 0 < count w) :
    ∀ w ∈ l, 0 < Function.update count v m w := by
  intro w hw
  have hne : w ≠ v := fun heq => hv (heq ▸ hw)
  rw [Function.update_of_ne hne]
  exact h w hw

/-- The nodes whose window count `dec_lock_ref` lowers. -/
def released (uuid : Option Nat) (s : SwaRadixCache σ) (decLockSwa : Bool) (l : List Nat) :
    List Nat :=
  if decLockSwa then upToBorder uuid s l else []

theorem released_cons (hon : Bool) : released uuid s hon (v :: l) =
    if hon then v :: released uuid s (!isBorder uuid (s.nodes v)) l else [] := by
  cases hon with
  | false => rfl
  | true =>
      simp only [released, upToBorder, if_true]
      cases isBorder uuid (s.nodes v) <;> rfl

theorem mem_of_released {on : Bool} (hv : v ∈ released uuid s on l) : v ∈ l := by
  cases on with
  | false => cases hv
  | true => exact mem_of_upToBorder hv

theorem decLockLoop_spec {on : Bool} (h : Book c s full swa live)
    (hl : RadixTree.Chain (view c s) s.rootNode node l) (hlive : ∀ v ∈ l, v ∈ live)
    (hfull : ∀ v ∈ l, 0 < full v) (hswa : ∀ v ∈ released uuid s on l, 0 < swa v)
    (hfuel : l.length < fuel) :
    ∃ s', decLockLoop uuid fuel node on s = some s' ∧ KeepsTree s s' ∧ SameMarks s s' ∧
      Book c s' (lower full l) (lower swa (released uuid s on l)) live := by
  induction l generalizing s full swa node fuel on with
  | nil =>
      obtain ⟨fuel, rfl⟩ := Nat.exists_eq_succ_of_ne_zero (Nat.ne_of_gt hfuel)
      cases hl
      refine ⟨s, by rw [decLockLoop, if_pos rfl], .refl s, ⟨fun _ => rfl, fun _ => rfl, rfl⟩, ?_⟩
      have hnil : released uuid s on [] = [] := by cases on <;> rfl
      rwa [hnil, lower_nil, lower_nil]
  | cons v l ih =>
      obtain ⟨fuel, rfl⟩ := Nat.exists_eq_succ_of_ne_zero (Nat.ne_zero_of_lt hfuel)
      have hnodup := List.nodup_cons.mp hl.nodup
      have hfuel := Nat.lt_of_succ_lt_succ hfuel
      cases hl with
      | @node _ u _ hv hparent hl =>
        have hvlive := hlive v List.mem_cons_self
        have hrest : ∀ w ∈ l, w ∈ live := fun w hw => hlive w (List.mem_cons_of_mem _ hw)
        have hparent : (s.nodes v).parent = some u := hparent
        have hvfull := hfull v List.mem_cons_self
        have hpos : 0 < (s.nodes v).fullLockRef := by
          rw [h.fullLock v hvlive]
          exact Int.natCast_pos.mpr hvfull
        have hbook := h.lockFull hvlive (shift_pred hvfull)
        have hkeeps := lockFull_keeps 1 (-1) v s
        have hmarks := lockFull_marks 1 (-1) v s
        have hfull' : ∀ w ∈ l, 0 < Function.update full v (full v - 1) w :=
          pos_of_update hnodup.1 fun w hw => hfull w (List.mem_cons_of_mem _ hw)
        simp only [decLockLoop, if_neg hv, if_pos hpos, hparent]
        rw [released_cons] at hswa ⊢
        cases on with
        | false =>
            rw [← hkeeps.view_eq (c := c), ← hkeeps.rootNode] at hl
            have hnone : ∀ w ∈ released uuid (s.lockFull 1 (-1) v) false l,
                0 < swa w := by simp [released]
            obtain ⟨s', hrun, hk, hm, hb⟩ := ih hbook hl hrest hfull' hnone hfuel
            rw [lower_cons full hnodup.1] at hb
            exact ⟨s', hrun, hkeeps.trans hk, hmarks.trans hm, hb⟩
        | true =>
            have hvswa := hswa v List.mem_cons_self
            have htomb : (s.nodes v).swaTombstone = false := by
              by_contra hbad
              exact Nat.ne_of_gt hvswa (h.tombstone v hvlive (by simpa using hbad))
            have hpos' : 0 < (s.nodes v).swaLockRef := by
              rw [h.swaLock v hvlive]
              exact Int.natCast_pos.mpr hvswa
            have hbook' := hbook.lockSwa hvlive ((hmarks.1 v).trans htomb) (shift_pred hvswa)
            have hkeeps' := hkeeps.trans (lockSwa_keeps 1 (-1) v _)
            have hmarks' := hmarks.trans (lockSwa_marks 1 (-1) v _)
            rw [if_pos rfl, if_pos ⟨by rw [htomb]; exact Bool.false_ne_true, hpos'⟩]
            rw [← hkeeps'.view_eq (c := c), ← hkeeps'.rootNode] at hl
            generalize (s.lockFull 1 (-1) v).lockSwa 1 (-1) v = s₁ at hbook' hkeeps' hmarks' hl ⊢
            have hsame : ∀ b, released uuid s₁ b l = released uuid s b l := fun b => by
              simp only [released, upToBorder_congr hmarks'.2.1]
            have hnot : v ∉ released uuid s (!isBorder uuid (s.nodes v)) l := fun hmem =>
              hnodup.1 (mem_of_released hmem)
            obtain ⟨s', hrun, hk, hm, hb⟩ := ih hbook' hl hrest hfull'
              (by
                rw [hsame]
                exact pos_of_update hnot fun w hw => hswa w (List.mem_cons_of_mem _ hw)) hfuel
            rw [lower_cons full hnodup.1, hsame, lower_cons swa hnot] at hb
            exact ⟨s', hrun, hkeeps'.trans hk, hmarks'.trans hm, hb⟩

theorem SwaOnly.keeps {tombstone : Bool} {lock : Int} (hs : SwaOnly s s' v tombstone lock) :
    KeepsTree s s' :=
  ⟨hs.tree, by rw [hs.rest], by rw [hs.rest], hs.frees⟩

theorem SwaOnly.sameUuid {tombstone : Bool} {lock : Int}
    (hs : SwaOnly s s' v tombstone lock) (w : Nat) :
    (s'.nodes w).swaUuid = (s.nodes w).swaUuid := by
  by_cases hw : w = v
  · rw [hw, hs.self]
  · rw [hs.other w hw]

theorem decSwaLoop_spec (h : Book c s full swa live)
    (hl : RadixTree.Chain (view c s) s.rootNode node l) (hlive : ∀ v ∈ l, v ∈ live)
    (hswa : ∀ v ∈ upToBorder uuid s l, 0 < swa v) (hfuel : l.length < fuel) :
    ∃ s', decSwaLoop uuid fuel node s = some s' ∧ KeepsTree s s' ∧
      (∀ v, (s'.nodes v).swaUuid = (s.nodes v).swaUuid) ∧ s'.swaUuidCounter = s.swaUuidCounter ∧
      Book c s' full (lower swa (upToBorder uuid s l)) live := by
  induction l generalizing s swa node fuel with
  | nil =>
      obtain ⟨fuel, rfl⟩ := Nat.exists_eq_succ_of_ne_zero (Nat.ne_of_gt hfuel)
      cases hl
      refine ⟨s, by rw [decSwaLoop, if_pos rfl], .refl s, fun _ => rfl, rfl, ?_⟩
      rwa [upToBorder, lower_nil]
  | cons v l ih =>
      obtain ⟨fuel, rfl⟩ := Nat.exists_eq_succ_of_ne_zero (Nat.ne_zero_of_lt hfuel)
      have hnodup := List.nodup_cons.mp hl.nodup
      have hfuel := Nat.lt_of_succ_lt_succ hfuel
      cases hl with
      | @node _ u _ hv hparent hl =>
        have hvlive := hlive v List.mem_cons_self
        have hrest : ∀ w ∈ l, w ∈ live := fun w hw => hlive w (List.mem_cons_of_mem _ hw)
        have hparent : (s.nodes v).parent = some u := hparent
        have hvswa : 0 < swa v := by
          apply hswa
          rw [upToBorder]
          split <;> exact List.mem_cons_self
        have htomb : (s.nodes v).swaTombstone = false := by
          by_contra hbad
          exact Nat.ne_of_gt hvswa (h.tombstone v hvlive (by simpa using hbad))
        have hpos : 0 < (s.nodes v).swaLockRef := by
          rw [h.swaLock v hvlive]
          exact Int.natCast_pos.mpr hvswa
        obtain ⟨s₁, tombstone, hrel, hto, hbook⟩ := h.releaseSwa hvlive htomb
          (Nat.sub_add_cancel hvswa).symm
        have hcounter : s₁.swaUuidCounter = s.swaUuidCounter := by rw [hto.rest]
        simp only [decSwaLoop, if_neg hv, hparent, hrel, Option.bind_some]
        rw [if_pos ⟨by rw [htomb]; exact Bool.false_ne_true, hpos⟩]
        rw [upToBorder] at hswa ⊢
        cases hborder : isBorder uuid (s.nodes v) with
        | true =>
            refine ⟨s₁, by rw [if_pos rfl], hto.keeps, hto.sameUuid, hcounter, ?_⟩
            rwa [if_pos rfl, ← lower_cons swa List.not_mem_nil, lower_nil]
        | false =>
            rw [hborder] at hswa
            rw [← hto.keeps.view_eq (c := c), ← hto.keeps.rootNode] at hl
            have hnot : v ∉ upToBorder uuid s l := fun hmem => hnodup.1 (mem_of_upToBorder hmem)
            have hsame : upToBorder uuid s₁ l = upToBorder uuid s l := upToBorder_congr hto.sameUuid
            obtain ⟨s', hrun, hk, hu, hc, hb⟩ := ih hbook hl hrest
              (by
                rw [hsame]
                exact pos_of_update hnot fun w hw => hswa w (List.mem_cons_of_mem _ hw)) hfuel
            rw [hsame, lower_cons swa hnot] at hb
            exact ⟨s', hrun, hto.keeps.trans hk, fun w => (hu w).trans (hto.sameUuid w),
              hc.trans hcounter, hb⟩

theorem mem_upToBorder_chain (hwf : Wf (view c s) s.rootNode live) {start : Nat} {p : List ChildKey}
    (hl : RadixTree.Chain (view c s) s.rootNode node l) (hp : Spells (view c s) s.rootNode node p)
    (hcut : ∀ x ∈ l, ∀ q, Spells (view c s) s.rootNode x q →
      start + pagesOf c s x ≤ q.length ∨ q.length ≤ start)
    (hborder : ∀ x ∈ l, ∀ q, Spells (view c s) s.rootNode x q → isBorder uuid (s.nodes x) = true →
      q.length = start + pagesOf c s x)
    (hstop : ∀ x ∈ l, ∀ q, Spells (view c s) s.rootNode x q → q.length = start + pagesOf c s x →
      isBorder uuid (s.nodes x) = true ∨ start = 0)
    (hin : node ≠ s.rootNode → start < p.length) {q : List ChildKey}
    (hq : Spells (view c s) s.rootNode v q) :
    v ∈ upToBorder uuid s l ↔ v ∈ l ∧ start < q.length := by
  induction hl generalizing p with
  | root => simp [upToBorder]
  | @node x u l hx hparent hl ih =>
      have hxlive := (hwf.spells_live hp).resolve_left hx
      obtain ⟨r, hr, rfl⟩ := hwf.spells_parent hxlive hparent hp
      have hlen : (r ++ (view c s x).label).length = r.length + pagesOf c s x := List.length_append
      have hmem : ∀ {y}, y ∈ l → y ∈ x :: l := List.mem_cons_of_mem x
      have habove : v ∈ l → q.length ≤ r.length := fun hv => by
        have hunder := hl.under_iff.mpr hv
        have hvlive := hwf.under_live (hwf.spells_live hr) hunder
        exact ((hwf.prefix_iff_under hvlive hq hr).mpr hunder).length_le
      rw [upToBorder]
      by_cases hvx : v = x
      · have hlt := hin hx
        rw [← hwf.spells_unique (hvx ▸ hq) hp] at hlt
        rw [hvx]
        split <;> simp [hlt]
      · split
        · next hb =>
            have hend := hborder x List.mem_cons_self _ hp hb
            rw [List.mem_singleton, List.mem_cons]
            simp only [hvx, false_or, false_iff, not_and]
            intro hv
            have := habove hv
            omega
        · next hb =>
            have hstart : u ≠ s.rootNode → start < r.length := by
              intro hu
              have hrpos : 0 < r.length := by
                have hulive := (hwf.spells_live hr).resolve_left hu
                exact List.length_pos_of_ne_nil
                  (hwf.reads_ne_nil ((hwf.spells_iff_reads hulive).mp hr) (.inl rfl))
              have hin := hin hx
              have hle := (hcut x List.mem_cons_self _ hp).resolve_right (Nat.not_le_of_lt hin)
              have hne := hstop x List.mem_cons_self _ hp
              simp only [hb, Bool.false_eq_true, false_or] at hne
              omega
            rw [List.mem_cons, List.mem_cons]
            simp only [hvx, false_or]
            exact ih hr (fun y hy => hcut y (hmem hy)) (fun y hy => hborder y (hmem hy))
              (fun y hy => hstop y (hmem hy)) hstart

/-- The nodes that the loops visit for a window are those that the lock covers. -/
theorem Window.mem_upToBorder_iff {lock : Lock} {path : List ChildKey} {start : Nat}
    (hwf : Wf (view c s) s.rootNode live) (huuids : Uuids s live) (hw : Window c s lock path start)
    (hl : RadixTree.Chain (view c s) s.rootNode lock.node l) (hv : v ∈ live) :
    v ∈ upToBorder lock.uuid s l ↔ Covers c s lock v := by
  have hnode := hwf.spells_live hw.spells
  have hlive := hwf.chain_live hl hnode
  have hborder := hw.border
  obtain ⟨q, hq⟩ := hwf.exists_spells (.inr hv)
  have hpages : ∀ {x}, x ∈ live → 0 < pagesOf c s x := fun hx =>
    List.length_pos_of_ne_nil (hwf.label_ne_nil hx)
  have hcov : Covers c s lock v ↔ v ∈ l ∧ start < q.length := by
    rw [hw.covers_iff hwf hv hq, hl.under_iff]
    refine and_congr_right fun hvl => ⟨fun hle => ?_, fun hlt => ?_⟩
    · have := hpages hv
      omega
    · exact (hw.cut v q (hl.under_iff.mpr hvl) hq).resolve_right (Nat.not_le_of_lt hlt)
  rw [hcov]
  cases huu : lock.uuid with
  | none =>
      rw [huu] at hborder
      obtain rfl : start = 0 := hborder
      refine mem_upToBorder_chain hwf hl hw.spells
        (fun x hx q => hw.cut x q (hl.under_iff.mpr hx)) ?_
        (fun _ _ _ _ _ => .inr rfl) (fun hne => ?_) hq
      · intro x hx q hq hb
        cases hb
      · have hr := (hwf.spells_iff_reads (hnode.resolve_left hne)).mp hw.spells
        exact List.length_pos_of_ne_nil (hwf.reads_ne_nil hr (.inl rfl))
  | some uuid =>
      rw [huu] at hborder
      obtain ⟨b, qb, hb, hqb, hlen, hmark⟩ := hborder
      have hblive := hwf.under_live hnode hb
      have hpos := (huuids.range b hblive uuid hmark).1
      have hbpages := hpages hblive
      have hisb : ∀ x ∈ l, isBorder (some uuid) (s.nodes x) = true ↔ x = b := by
        intro x hx
        simp only [isBorder, Bool.and_eq_true, decide_eq_true_iff, ne_eq]
        constructor
        · rintro ⟨_, hxm⟩
          exact huuids.unique x (hlive x hx) b hblive uuid hxm hmark
        · rintro rfl
          exact ⟨Nat.ne_of_gt hpos, hmark⟩
      refine mem_upToBorder_chain hwf hl hw.spells
        (fun x hx q => hw.cut x q (hl.under_iff.mpr hx)) ?_ ?_
        (fun _ => ?_) hq
      · intro x hx q hq hxb
        obtain rfl := (hisb x hx).mp hxb
        rw [hwf.spells_unique hq hqb]
        exact hlen.symm
      · intro x hx q hq hxlen
        refine .inl ((hisb x hx).mpr (hwf.under_unique hnode (hl.under_iff.mpr hx) hb hq hqb ?_))
        change q.length + pagesOf c s b = qb.length + pagesOf c s x
        omega
      · have := ((hwf.prefix_iff_under hblive hqb hw.spells).mpr hb).length_le
        omega

variable {locks locks' : List Lock} {handles : List Nat} {lock : Lock}

theorem Inv.perm (h : Inv c s locks handles live) (hperm : locks'.Perm locks) :
    Inv c s locks' handles live where
  book := h.book.congr_counts (fun _ _ => hperm.countP_eq _) fun _ _ => hperm.countP_eq _
  node lock hlock := h.node lock (hperm.mem_iff.mp hlock)
  window lock hlock := h.window lock (hperm.mem_iff.mp hlock)
  uuids := h.uuids
  usable := h.usable

theorem fullCount_cons (hl : RadixTree.Chain (view c s) s.rootNode lock.node l) (v : Nat) :
    fullCount c s (lock :: locks) v = fullCount c s locks v + if v ∈ l then 1 else 0 := by
  classical
  rw [fullCount, List.countP_cons]
  refine congrArg (_ + ·) (if_congr ?_ rfl rfl)
  rw [decide_eq_true_iff]
  exact hl.under_iff

open Classical in
theorem swaCount_cons (v : Nat) : swaCount c s (lock :: locks) v =
    swaCount c s locks v + if lock.swaHeld = true ∧ Covers c s lock v then 1 else 0 := by
  rw [swaCount, List.countP_cons]
  exact congrArg (_ + ·) (if_congr decide_eq_true_iff rfl rfl)

/-- The nodes whose window count a lock gives back. -/
theorem Inv.mem_upToBorder_iff (h : Inv c s (lock :: locks) handles live)
    (hheld : lock.swaHeld = true) (hl : RadixTree.Chain (view c s) s.rootNode lock.node l)
    (hv : v ∈ live) : v ∈ upToBorder lock.uuid s l ↔ Covers c s lock v := by
  obtain ⟨path, start, hw⟩ := h.window lock List.mem_cons_self hheld
  exact hw.mem_upToBorder_iff h.book.wf h.uuids hl hv

theorem Inv.mem_released_iff (h : Inv c s (lock :: locks) handles live)
    (hl : RadixTree.Chain (view c s) s.rootNode lock.node l) (hv : v ∈ live) :
    v ∈ released lock.uuid s lock.swaHeld l ↔ lock.swaHeld = true ∧ Covers c s lock v := by
  cases hheld : lock.swaHeld with
  | false => simp [released]
  | true =>
      rw [released, if_pos rfl, h.mem_upToBorder_iff hheld hl hv]
      exact (and_iff_right rfl).symm

theorem Inv.retire {handles' : List Nat} (h : Inv c s locks handles live)
    (hk : KeepsTree s s') (huuid : ∀ v, (s'.nodes v).swaUuid = (s.nodes v).swaUuid)
    (hcounter : s'.swaUuidCounter = s.swaUuidCounter)
    (hlocks : ∀ lock ∈ locks', (lock.node = s.rootNode ∨ lock.node ∈ live) ∧
      (lock.swaHeld = true → ∃ path start, Window c s lock path start))
    (hbook : Book c s' (fullCount c s locks') (swaCount c s locks') live)
    (husable : ∀ v ∈ handles', v ∈ handles ∧ Usable c s' v) : Inv c s' locks' handles' live where
  book := hbook.congr_counts (fun v _ => hk.fullCount_eq v) fun v _ => hk.swaCount_eq v
  node lock hlock := by
    rw [hk.rootNode]
    exact (hlocks lock hlock).1
  window lock hlock hheld := by
    obtain ⟨path, start, hw⟩ := (hlocks lock hlock).2 hheld
    exact ⟨path, start, hw.sameAbove (hk.above _) fun v k _ hu => (huuid v).trans hu⟩
  uuids := h.uuids.of_marks hcounter fun v hv k hu => ⟨hv, (huuid v).symm.trans hu⟩
  usable v hv := by
    rw [hk.rootNode]
    exact ⟨(h.usable v (husable v hv).1).1, (husable v hv).2⟩

theorem decLockRef_eq {skipSwa : Bool} (hoff : c.disable = true → node = s.rootNode) :
    s.decLockRef c node uuid skipSwa = decLockLoop uuid (s.counter + 1) node (!skipSwa) s := by
  rw [decLockRef]
  split
  · next hdis => rw [decLockLoop, if_pos (hoff hdis)]
  · rfl

theorem decSwaLockOnly_eq (hoff : c.disable = true → node = s.rootNode) :
    s.decSwaLockOnly c node uuid = decSwaLoop uuid (s.counter + 1) node s := by
  rw [decSwaLockOnly]
  split
  · next hdis => rw [decSwaLoop, if_pos (hoff hdis)]
  · rfl

theorem Inv.dec (h : Inv c s (lock :: locks) handles live)
    (hoff : c.disable = true → lock.node = s.rootNode) :
    ∃ s', s.decLockRef c lock.node lock.uuid (!lock.swaHeld) = some s' ∧ KeepsTree s s' ∧
      SameMarks s s' ∧ Inv c s' locks handles live := by
  classical
  have hwf := h.book.wf
  have hnode := h.node lock List.mem_cons_self
  obtain ⟨l, hl⟩ := hwf.exists_chain hnode
  have hlive := hwf.chain_live hl hnode
  have hfull : ∀ v ∈ l, 0 < fullCount c s (lock :: locks) v := fun v hv => by
    rw [fullCount_cons hl, if_pos hv]
    exact Nat.succ_pos _
  have hswa : ∀ v ∈ released lock.uuid s lock.swaHeld l, 0 < swaCount c s (lock :: locks) v := by
    intro v hv
    rw [swaCount_cons, if_pos ((h.mem_released_iff hl (hlive v (mem_of_released hv))).mp hv)]
    exact Nat.succ_pos _
  obtain ⟨s', hrun, hk, hmarks, hbook⟩ := decLockLoop_spec h.book hl hlive hfull hswa
    (Nat.lt_succ_of_le (h.book.paged.chain_length hl hnode))
  refine ⟨s', ?_, hk, hmarks, h.retire hk hmarks.2.1 hmarks.2.2 (fun lock' hlock' => ?_) ?_
    fun v hv => ?_⟩
  · rw [decLockRef_eq hoff, Bool.not_not]
    exact hrun
  · exact ⟨h.node lock' (List.mem_cons_of_mem _ hlock'),
      h.window lock' (List.mem_cons_of_mem _ hlock')⟩
  · refine hbook.congr_counts (fun v _ => ?_) fun v hv => ?_
    · rw [lower, fullCount_cons hl, Nat.add_sub_cancel]
    · rw [lower, swaCount_cons, if_congr (h.mem_released_iff hl hv) rfl rfl, Nat.add_sub_cancel]
  · exact ⟨hv, (h.usable v hv).2.sameAbove (hk.above v) fun x _ => (hmarks.1 x).trans⟩

theorem Inv.decSwa (h : Inv c s (lock :: locks) handles live)
    (hoff : c.disable = true → lock.node = s.rootNode) (hheld : lock.swaHeld = true) :
    ∃ s', s.decSwaLockOnly c lock.node lock.uuid = some s' ∧ KeepsTree s s' ∧
      Inv c s' ({ lock with swaHeld := false } :: locks) [] live := by
  classical
  have hwf := h.book.wf
  have hnode := h.node lock List.mem_cons_self
  obtain ⟨l, hl⟩ := hwf.exists_chain hnode
  have hlive := hwf.chain_live hl hnode
  have hmem := fun {v} (hv : v ∈ live) => h.mem_upToBorder_iff hheld hl hv
  have hswa : ∀ v ∈ upToBorder lock.uuid s l, 0 < swaCount c s (lock :: locks) v := by
    intro v hv
    rw [swaCount_cons, if_pos ⟨hheld, (hmem (hlive v (mem_of_upToBorder hv))).mp hv⟩]
    exact Nat.succ_pos _
  obtain ⟨s', hrun, hk, huuid, hcounter, hbook⟩ := decSwaLoop_spec h.book hl hlive hswa
    (Nat.lt_succ_of_le (h.book.paged.chain_length hl hnode))
  refine ⟨s', ?_, hk, h.retire hk huuid hcounter (fun lock' hlock' => ?_) ?_ (by simp)⟩
  · rw [decSwaLockOnly_eq hoff]
    exact hrun
  · rcases List.mem_cons.mp hlock' with rfl | hlock'
    · exact ⟨hnode, fun hbad => absurd hbad Bool.false_ne_true⟩
    · exact ⟨h.node lock' (List.mem_cons_of_mem _ hlock'),
        h.window lock' (List.mem_cons_of_mem _ hlock')⟩
  · refine hbook.congr_counts (fun v _ => ?_) fun v hv => ?_
    · exact (fullCount_cons hl v).trans (fullCount_cons hl v).symm
    · rw [lower, swaCount_cons, swaCount_cons, if_neg (fun hbad => Bool.false_ne_true hbad.1)]
      rw [if_congr (and_iff_right hheld) rfl rfl, if_congr (hmem hv) rfl rfl,
        Nat.add_sub_cancel, Nat.add_zero]

end Dec

end SwaRadixCache

end SpecDecode.MemCache
