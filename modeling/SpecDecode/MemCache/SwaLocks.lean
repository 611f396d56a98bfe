import SpecDecode.MemCache.SwaBook

/-!
# Locks of the SWA radix cache

A request that holds a lock remembers a node and a uuid. `Inv` ties the counts of the nodes
to the locks that are held: the full count of a node is the number of locks below it, the
window count the number of locks whose window the node is part of. A split hands both counts
and the uuid to the upper half, so a window stays a union of nodes that ends at the node with
the uuid.

A node that a search returned can be locked as long as no node within its window becomes a
tombstone.
-/

namespace SpecDecode.MemCache

open Function RadixTree

variable {σ : Type}

namespace SwaRadixCache

variable {c : SwaCacheParams} {s s' : SwaRadixCache σ} {live : Finset Nat} {v w : Nat}

/-- A lock that a request holds: `last_node`, `swa_uuid_for_lock` and whether the window part
is still held. `covered` are the words whose last page lies in a node that the lock counts
for its window. -/
structure Lock where
  node : Nat
  uuid : Option Nat
  swaHeld : Bool
  covered : Set (List ChildKey)

def Covers (c : SwaCacheParams) (s : SwaRadixCache σ) (lock : Lock) (v : Nat) : Prop :=
  ∃ p, Spells (view c s) s.rootNode v p ∧ p ∈ lock.covered

def pagesOf (c : SwaCacheParams) (s : SwaRadixCache σ) (v : Nat) : Nat :=
  ((s.tree v).key.syms c.pageSize).length

open Classical in
noncomputable def fullCount (c : SwaCacheParams) (s : SwaRadixCache σ) (locks : List Lock)
    (v : Nat) : Nat :=
  locks.countP fun lock => Under (view c s) s.rootNode v lock.node

open Classical in
/-- The number of held windows that contain a node. -/
noncomputable def swaCount (c : SwaCacheParams) (s : SwaRadixCache σ) (locks : List Lock)
    (v : Nat) : Nat :=
  locks.countP fun lock => lock.swaHeld = true ∧ Covers c s lock v

/-- The window of a lock consists of the nodes behind the first `start` pages of its path, and
the uuid marks the first of them. -/
structure Window (c : SwaCacheParams) (s : SwaRadixCache σ) (lock : Lock) (path : List ChildKey)
    (start : Nat) : Prop where
  spells : Spells (view c s) s.rootNode lock.node path
  covered : lock.covered = {q | q <+: path ∧ start < q.length}
  cut : ∀ v q, Under (view c s) s.rootNode v lock.node → Spells (view c s) s.rootNode v q →
    start + pagesOf c s v ≤ q.length ∨ q.length ≤ start
  border : match lock.uuid with
    | none => start = 0
    | some uuid => ∃ b q, Under (view c s) s.rootNode b lock.node ∧
        Spells (view c s) s.rootNode b q ∧ start + pagesOf c s b = q.length ∧
        (s.nodes b).swaUuid = some uuid

/-- No node above `v` and less than a window away is a tombstone. -/
def Usable (c : SwaCacheParams) (s : SwaRadixCache σ) (v : Nat) : Prop :=
  ∀ x p q, Under (view c s) s.rootNode x v → Spells (view c s) s.rootNode v p →
    Spells (view c s) s.rootNode x q →
    (p.length - q.length) * c.pageSize < c.slidingWindowSize → (s.nodes x).swaTombstone = false

structure Uuids (s : SwaRadixCache σ) (live : Finset Nat) : Prop where
  range : ∀ v ∈ live, ∀ uuid, (s.nodes v).swaUuid = some uuid → 0 < uuid ∧ uuid ≤ s.swaUuidCounter
  unique : ∀ v ∈ live, ∀ w ∈ live, ∀ uuid, (s.nodes v).swaUuid = some uuid →
    (s.nodes w).swaUuid = some uuid → v = w

/-- The invariant of a cache on which `locks` are held and where the nodes `handles` may be
locked. -/
structure Inv (c : SwaCacheParams) (s : SwaRadixCache σ) (locks : List Lock) (handles : List Nat)
    (live : Finset Nat) : Prop where
  book : Book c s (fullCount c s locks) (swaCount c s locks) live
  node : ∀ lock ∈ locks, lock.node = s.rootNode ∨ lock.node ∈ live
  window : ∀ lock ∈ locks, lock.swaHeld = true → ∃ path start, Window c s lock path start
  uuids : Uuids s live
  usable : ∀ v ∈ handles, (v = s.rootNode ∨ v ∈ live) ∧ Usable c s v

variable {locks : List Lock} {handles : List Nat} {lock : Lock} {path : List ChildKey} {start : Nat}

section Windows

theorem Book.wf {full swa : Nat → Nat} (h : Book c s full swa live) :
    Wf (view c s) s.rootNode live := h.paged.wf

theorem Window.covers_iff (hwf : Wf (view c s) s.rootNode live) (hw : Window c s lock path start)
    (hv : v ∈ live) {q : List ChildKey} (hq : Spells (view c s) s.rootNode v q) :
    Covers c s lock v ↔ Under (view c s) s.rootNode v lock.node ∧
    start + pagesOf c s v ≤ q.length := by
  have hpos : 0 < pagesOf c s v := List.length_pos_of_ne_nil (hwf.label_ne_nil hv)
  have hunder : q <+: path ↔ Under (view c s) s.rootNode v lock.node :=
    hwf.prefix_iff_under hv hq hw.spells
  constructor
  · rintro ⟨q', hq', hmem⟩
    obtain rfl := hwf.spells_unique hq hq'
    rw [hw.covered] at hmem
    refine ⟨hunder.mp hmem.1, (hw.cut v q (hunder.mp hmem.1) hq).resolve_right ?_⟩
    exact Nat.not_le_of_lt hmem.2
  · rintro ⟨hv, hle⟩
    refine ⟨q, hq, ?_⟩
    rw [hw.covered]
    exact ⟨hunder.mpr hv, by omega⟩

/-- The words of a node of a window are covered, and those of the other nodes are not. -/
theorem Window.mem_covered_iff (hwf : Wf (view c s) s.rootNode live)
    (hw : Window c s lock path start) (hv : v ∈ live) {p : List ChildKey} {i : Nat}
    (hr : Reads (view c s) s.rootNode p v i) : p ∈ lock.covered ↔ Covers c s lock v := by
  obtain ⟨q, hq⟩ := hwf.exists_spells (.inr hv)
  obtain ⟨hpos, hle, u, a, r, hu, hchild, rfl⟩ := hwf.reads_iff_spells.mp hr
  obtain rfl := hwf.spells_unique hq (.child hu hchild)
  have hlen : (r ++ (view c s v).label).length = r.length + pagesOf c s v := List.length_append
  rw [hw.covers_iff hwf hv hq, hw.covered, Set.mem_ofPred_eq, hlen, List.length_append,
    List.length_take, Nat.min_eq_left hle]
  constructor
  · rintro ⟨hpre, hlt⟩
    obtain ⟨v', i', hr', hunder⟩ := hwf.reads_under hw.spells hpre (hwf.reads_ne_nil hr (.inl rfl))
    obtain ⟨rfl, _⟩ := hwf.reads_unique hr hr' (.inl rfl)
    refine ⟨hunder, ?_⟩
    have hcut := hw.cut _ _ hunder hq
    have hi : i ≤ pagesOf c s v := hle
    rw [hlen] at hcut
    omega
  · rintro ⟨hunder, hstart⟩
    have hpre := (hwf.prefix_iff_under hv hq hw.spells).mpr hunder
    refine ⟨List.IsPrefix.trans ?_ hpre, by omega⟩
    exact (List.prefix_append_right_inj _).mpr (List.take_prefix _ _)

theorem fullCount_congr {v' : Nat} (hunder : ∀ lock ∈ locks,
    Under (view c s') s'.rootNode v' lock.node ↔ Under (view c s) s.rootNode v lock.node) :
    fullCount c s' locks v' = fullCount c s locks v := by
  classical
  refine List.countP_congr fun lock hlock => ?_
  simpa using hunder lock hlock

theorem swaCount_congr {v' : Nat} (hcovers : ∀ lock ∈ locks, lock.swaHeld = true →
    (Covers c s' lock v' ↔ Covers c s lock v)) : swaCount c s' locks v' = swaCount c s locks v := by
  classical
  refine List.countP_congr fun lock hlock => ?_
  simpa using hcovers lock hlock

/-- No lock lies below a node that none can reach. -/
theorem fullCount_eq_zero (hnone : ∀ lock ∈ locks, ¬ Under (view c s) s.rootNode v lock.node) :
    fullCount c s locks v = 0 := by
  classical
  refine List.countP_eq_zero.mpr fun lock hlock => ?_
  simpa using hnone lock hlock

theorem swaCount_eq_zero (hnone : ∀ lock ∈ locks, lock.swaHeld = true → ¬ Covers c s lock v) :
    swaCount c s locks v = 0 := by
  classical
  refine List.countP_eq_zero.mpr fun lock hlock => ?_
  simpa using hnone lock hlock

theorem Inv.swaCount_le (h : Inv c s locks handles live) (hv : v ∈ live) :
    swaCount c s locks v ≤ fullCount c s locks v := by
  classical
  obtain ⟨q, hq⟩ := h.book.wf.exists_spells (.inr hv)
  refine List.countP_mono_left fun lock hlock hheld => ?_
  simp only [decide_eq_true_eq] at hheld ⊢
  obtain ⟨path, start, hw⟩ := h.window lock hlock hheld.1
  exact ((hw.covers_iff h.book.wf hv hq).mp hheld.2).1

end Windows

section Same

structure SameAbove (c : SwaCacheParams) (s s' : SwaRadixCache σ) (w : Nat) : Prop where
  under : ∀ v, Under (view c s') s'.rootNode v w ↔ Under (view c s) s.rootNode v w
  spells : ∀ v p, v = w ∨ Under (view c s) s.rootNode v w →
    (Spells (view c s') s'.rootNode v p ↔ Spells (view c s) s.rootNode v p)
  pages : ∀ v, Under (view c s) s.rootNode v w → pagesOf c s' v = pagesOf c s v

theorem SameAbove.covers_iff (ha : SameAbove c s s' v) :
    Covers c s' lock v ↔ Covers c s lock v := by
  simp only [Covers, ha.spells v _ (.inl rfl)]

/-- A window stays while its nodes keep their places and the marked node its uuid. -/
theorem Window.sameAbove (hw : Window c s lock path start) (ha : SameAbove c s s' lock.node)
    (hmark : ∀ v uuid, Under (view c s) s.rootNode v lock.node →
      (s.nodes v).swaUuid = some uuid → (s'.nodes v).swaUuid = some uuid) :
    Window c s' lock path start := by
  refine ⟨(ha.spells _ _ (.inl rfl)).mpr hw.spells, hw.covered, fun v q hv hq => ?_, ?_⟩
  · have hv := (ha.under v).mp hv
    rw [ha.pages v hv]
    exact hw.cut v q hv ((ha.spells v q (.inr hv)).mp hq)
  · have hborder := hw.border
    cases huu : lock.uuid with
    | none =>
        rw [huu] at hborder
        exact hborder
    | some uuid =>
        rw [huu] at hborder
        obtain ⟨b, q, hb, hq, hlen, huuid⟩ := hborder
        refine ⟨b, q, (ha.under b).mpr hb, (ha.spells b q (.inr hb)).mpr hq, ?_,
          hmark b uuid hb huuid⟩
        rwa [ha.pages b hb]

theorem Usable.sameAbove (h : Usable c s v) (ha : SameAbove c s s' v)
    (htomb : ∀ x, Under (view c s) s.rootNode x v → (s.nodes x).swaTombstone = false →
      (s'.nodes x).swaTombstone = false) : Usable c s' v := by
  intro x p q hx hp hq hlt
  have hx := (ha.under x).mp hx
  exact htomb x hx (h x p q hx ((ha.spells v p (.inl rfl)).mp hp)
    ((ha.spells x q (.inr hx)).mp hq) hlt)

theorem Uuids.of_marks {live' : Finset Nat} (h : Uuids s live)
    (hcounter : s'.swaUuidCounter = s.swaUuidCounter)
    (hmark : ∀ v ∈ live', ∀ uuid, (s'.nodes v).swaUuid = some uuid →
      v ∈ live ∧ (s.nodes v).swaUuid = some uuid) : Uuids s' live' := by
  refine ⟨fun v hv uuid hu => ?_, fun v hv w hw uuid hu hu' => ?_⟩
  · rw [hcounter]
    exact h.range v (hmark v hv uuid hu).1 uuid (hmark v hv uuid hu).2
  · obtain ⟨hv, hu⟩ := hmark v hv uuid hu
    obtain ⟨hw, hu'⟩ := hmark w hw uuid hu'
    exact h.unique v hv w hw uuid hu hu'

section

variable (h : Inv c s locks handles live)

include h

/-- The invariant when neither the tree nor the uuids change and no node becomes a
tombstone. -/
theorem Inv.same
    (hbook : Book c s' (fullCount c s locks) (swaCount c s locks) live)
    (hroot : s'.rootNode = s.rootNode) (habove : ∀ w, SameAbove c s s' w)
    (huuid : ∀ v, (s'.nodes v).swaUuid = (s.nodes v).swaUuid)
    (hcounter : s'.swaUuidCounter = s.swaUuidCounter)
    (htomb : ∀ v, (s.nodes v).swaTombstone = false → (s'.nodes v).swaTombstone = false) :
    Inv c s' locks handles live where
  book := hbook.congr_counts (fun v _ => fullCount_congr fun lock _ => (habove lock.node).under v)
    fun v _ => swaCount_congr fun _ _ _ => (habove v).covers_iff
  node lock hlock := by
    rw [hroot]
    exact h.node lock hlock
  window lock hlock hheld := by
    obtain ⟨path, start, hw⟩ := h.window lock hlock hheld
    exact ⟨path, start, hw.sameAbove (habove _) fun v _ _ hu => (huuid v).trans hu⟩
  uuids := h.uuids.of_marks hcounter fun v hv _ hu => ⟨hv, (huuid v).symm.trans hu⟩
  usable v hv := by
    rw [hroot]
    exact ⟨(h.usable v hv).1, (h.usable v hv).2.sameAbove (habove v) fun x _ => htomb x⟩

theorem Inv.sameNodes
    (hbook : Book c s' (fullCount c s locks) (swaCount c s locks) live)
    (hnodes : s'.nodes = s.nodes)
    (hroot : s'.rootNode = s.rootNode) (hcounter : s'.swaUuidCounter = s.swaUuidCounter) :
    Inv c s' locks handles live := by
  have htree : s'.tree = s.tree := by
    funext v
    simp only [tree, hnodes]
  have hview : view c s' = view c s := by simp only [view, htree]
  refine h.same hbook hroot
    (fun w => ⟨fun v => by rw [hview, hroot], fun v p _ => by rw [hview, hroot],
    fun v _ => by simp only [pagesOf, htree]⟩) (fun v => by rw [hnodes]) hcounter fun v hv => ?_
  rw [hnodes]
  exact hv

theorem Inv.free (slots : List σ) : Inv c (s.free slots) locks handles live :=
  h.sameNodes (h.book.free slots) rfl rfl rfl

theorem Inv.lists {l l' : LruList}
    (hlists : Lists { s with fullLruList := l, swaLruList := l' } (· ∈ live)) :
    Inv c { s with fullLruList := l, swaLruList := l' } locks handles live :=
  h.sameNodes (h.book.same ⟨rfl, fun _ => ⟨rfl, rfl, rfl⟩, rfl, rfl, rfl, rfl, rfl, rfl⟩ hlists)
    rfl rfl rfl

theorem Inv.overwrite {value : List σ} (hv : v ∈ live)
    (htomb : (s.nodes v).swaTombstone = true) (hvalue : value.length = (s.tree v).key.len) :
    ∃ s', s.overwriteNode v value = some s' ∧ OverwriteTo s s' v value ∧
      Inv c s' locks handles live := by
  obtain ⟨s', hrun, hto, hbook⟩ := h.book.overwriteNode hv htomb hvalue
  have hroot : s'.rootNode = s.rootNode := by rw [hto.rest]
  have hspells : ∀ w p, Spells (view c s') s.rootNode w p ↔ Spells (view c s) s.rootNode w p := by
    intro w p
    refine ⟨fun hp => ?_, hto.tree.spells⟩
    have hwf := hbook.wf
    rw [hroot] at hwf
    obtain ⟨q, hq⟩ := h.book.wf.exists_spells (hwf.spells_live hp)
    rwa [hwf.spells_unique hp (hto.tree.spells hq)]
  have hparent : ∀ w, (view c s' w).parent = (view c s w).parent := fun w => (hto.tree.fields w).2.1
  have hback : ∀ {w : Nat} {l : List Nat}, RadixTree.Chain (view c s') s.rootNode w l →
      RadixTree.Chain (view c s) s.rootNode w l := fun hl => by
    induction hl with
    | root => exact .root
    | node hne hp _ ih => exact .node hne ((hparent _).symm.trans hp) ih
  have habove : ∀ w, SameAbove c s s' w := fun w => by
    refine ⟨fun x => ?_, fun x p _ => by rw [hroot, hspells], fun x _ => ?_⟩
    · rw [hroot]
      exact ⟨fun ⟨l, hl, hmem⟩ => ⟨l, hback hl, hmem⟩,
        fun ⟨l, hl, hmem⟩ => ⟨l, hto.tree.chain hl, hmem⟩⟩
    · simp only [pagesOf, (hto.tree.fields x).2.2]
  refine ⟨s', hrun, hto, h.same hbook hroot habove (fun w => ?_) ?_ ?_⟩
  · by_cases hw : w = v
    · rw [hw, hto.self]
    · rw [hto.other w hw]
  · rw [hto.rest]
  · intro w hw
    by_cases hwv : w = v
    · rw [hwv, hto.self]
    · rwa [hto.other w hwv]

end

end Same

section SplitNode

variable {child u n : Nat}

theorem SplitTo.split {full swa : Nat → Nat} (h : Book c s full swa live) (hchild : child ∈ live)
    (hn : 0 < n) (hlt : n < pagesOf c s child) (hs : SplitTo c s s' u child (n * c.pageSize))
    (hu : u = s.rootNode ∨ u ∈ live)
    (hedge : (s.tree u).children.lookup ((s.tree child).key.childKey c.pageSize) = some child) :
    Split (view c s) (view c s') s.rootNode live u child s.counter n
      ((s.tree child).key.childKey c.pageSize)
      (((s.tree child).key.slice (n * c.pageSize) (s.tree child).key.len).childKey c.pageSize) :=
  hs.tree.split c.pageSize_pos h.paged hchild hn hlt hu hedge

theorem SplitTo.pagesOf (hs : SplitTo c s s' u child (n * c.pageSize))
    (hlt : n ≤ pagesOf c s child) :
    pagesOf c s' s.counter = n ∧ pagesOf c s' child = pagesOf c s child - n ∧
      ∀ v, v ≠ s.counter → v ≠ child → pagesOf c s' v = pagesOf c s v := by
  refine ⟨?_, ?_, fun v hv hvc => ?_⟩
  · rw [SwaRadixCache.pagesOf, hs.tree.atNew, RadixKey.syms_take, List.length_take]
    exact Nat.min_eq_left hlt
  · rw [SwaRadixCache.pagesOf, hs.tree.atChild, RadixKey.syms_drop, List.length_drop]
    rfl
  · rw [SwaRadixCache.pagesOf, (hs.tree.fields hv hvc).1]
    rfl

/-- A split keeps the windows: both halves of a node belong to the same ones. -/
theorem Window.splitNode {a a' : ChildKey} (hwf : Wf (view c s) s.rootNode live)
    (hw : Window c s lock path start) (hnode : lock.node = s.rootNode ∨ lock.node ∈ live)
    (hsplit : Split (view c s) (view c s') s.rootNode live u child s.counter n a a')
    (hs : SplitTo c s s' u child (n * c.pageSize)) (hchild : child ∈ live) (hn : 0 < n)
    (hlt : n < pagesOf c s child) : Window c s' lock path start := by
  obtain ⟨hnew, hrest, hother⟩ := hs.pagesOf (Nat.le_of_lt hlt)
  have hroot : s'.rootNode = s.rootNode := by rw [hs.rest]
  have hunder : ∀ v, Under (view c s') s.rootNode v lock.node ↔
      Under (view c s) s.rootNode v lock.node ∨
        v = s.counter ∧ Under (view c s) s.rootNode child lock.node := fun v =>
    hsplit.under_iff hwf hnode
  -- the path of the upper half ends `n` pages behind the beginning of the node
  obtain ⟨r, hr⟩ := hwf.exists_spells hsplit.parentLive
  have hcspell : Spells (view c s) s.rootNode child (r ++ (view c s child).label) :=
    .child hr hsplit.edge
  have hnspell := hsplit.spells_new hwf hr
  have hclen : (r ++ (view c s child).label).length = r.length + pagesOf c s child :=
    List.length_append
  have hnlen : (r ++ (view c s child).label.take n).length = r.length + n := by
    rw [List.length_append, List.length_take]
    exact congrArg (r.length + ·) (Nat.min_eq_left (Nat.le_of_lt hlt))
  have hold : ∀ v, Under (view c s) s.rootNode v lock.node → v ≠ s.counter := fun v hv =>
    hsplit.ne_new (.inr (hwf.under_live hnode hv))
  have hspell : ∀ {v q}, Under (view c s) s.rootNode v lock.node →
      (Spells (view c s') s.rootNode v q ↔ Spells (view c s) s.rootNode v q) := fun hv =>
    hsplit.spells_iff hwf (.inr (hwf.under_live hnode hv))
  refine ⟨?_, hw.covered, fun v q hv hq => ?_, ?_⟩
  · rw [hroot]
    exact hsplit.spells hwf hw.spells
  · rw [hroot, hunder] at hv
    rw [hroot] at hq
    rcases hv with hv | ⟨rfl, hv⟩
    · rw [hspell hv] at hq
      have hcut := hw.cut v q hv hq
      by_cases hvc : v = child
      · subst hvc
        omega
      · rwa [hother v (hold v hv) hvc]
    · obtain rfl := (hsplit.wf hwf).spells_unique hq hnspell
      have hcut := hw.cut child _ hv hcspell
      omega
  · have hborder := hw.border
    cases huu : lock.uuid with
    | none =>
        rw [huu] at hborder
        exact hborder
    | some uuid =>
        rw [huu] at hborder
        obtain ⟨b, q, hb, hq, hlen, hmark⟩ := hborder
        by_cases hbc : b = child
        · subst hbc
          obtain rfl := hwf.spells_unique hq hcspell
          refine ⟨s.counter, _, ?_, hroot ▸ hnspell, by omega, hs.newUuid.1.trans hmark⟩
          rw [hroot, hunder]
          exact .inr ⟨rfl, hb⟩
        · refine ⟨b, q, ?_, ?_, ?_, (hs.uuid b (hold b hb) hbc).trans hmark⟩
          · rw [hroot, hunder]
            exact .inl hb
          · rw [hroot, hspell hb]
            exact hq
          · rwa [hother b (hold b hb) hbc]

theorem Uuids.splitNode (h : Uuids s live) (hs : SplitTo c s s' u child (n * c.pageSize))
    (hchild : child ∈ live) (hfresh : s.counter ∉ live) :
    Uuids s' (Insert.insert s.counter live) := by
  have hmark : ∀ v ∈ Insert.insert s.counter live, ∀ uuid, (s'.nodes v).swaUuid = some uuid →
      ∃ w ∈ live, (s.nodes w).swaUuid = some uuid ∧ v = if w = child then s.counter else w := by
    intro v hv uuid huu
    rcases Finset.mem_insert.mp hv with rfl | hv
    · exact ⟨child, hchild, hs.newUuid.1.symm.trans huu, by rw [if_pos rfl]⟩
    · have hvc : v ≠ child := by
        rintro rfl
        rw [hs.newUuid.2] at huu
        cases huu
      have hne : v ≠ s.counter := fun heq => hfresh (heq ▸ hv)
      exact ⟨v, hv, (hs.uuid v hne hvc).symm.trans huu, by rw [if_neg hvc]⟩
  refine ⟨fun v hv uuid huu => ?_, fun v hv w hw uuid huu huu' => ?_⟩
  · obtain ⟨x, hx, huuid, _⟩ := hmark v hv uuid huu
    have hcounter : s'.swaUuidCounter = s.swaUuidCounter := by rw [hs.rest]
    rw [hcounter]
    exact h.range x hx uuid huuid
  · obtain ⟨x, hx, huuid, rfl⟩ := hmark v hv uuid huu
    obtain ⟨y, hy, huuid', rfl⟩ := hmark w hw uuid huu'
    rw [h.unique x hx y hy uuid huuid huuid']

theorem Usable.splitNode {a a' : ChildKey} (h : Usable c s v)
    (hwf : Wf (view c s) s.rootNode live) (hv : v = s.rootNode ∨ v ∈ live)
    (hsplit : Split (view c s) (view c s') s.rootNode live u child s.counter n a a')
    (hs : SplitTo c s s' u child (n * c.pageSize)) : Usable c s' v := by
  have hroot : s'.rootNode = s.rootNode := by rw [hs.rest]
  obtain ⟨r, hr⟩ := hwf.exists_spells hsplit.parentLive
  have hcspell : Spells (view c s) s.rootNode child (r ++ (view c s child).label) :=
    .child hr hsplit.edge
  intro x p q hx hp hq hnear
  rw [hroot] at hx hp hq
  rw [hsplit.under_iff hwf hv] at hx
  rw [hsplit.spells_iff hwf hv] at hp
  rcases hx with hx | ⟨rfl, hx⟩
  · have hxlive := hwf.under_live hv hx
    rw [hsplit.spells_iff hwf (.inr hxlive)] at hq
    rw [(hs.flags x (hsplit.ne_new (.inr hxlive))).1]
    exact h x p q hx hp hq hnear
  · obtain rfl := (hsplit.wf hwf).spells_unique hq (hsplit.spells_new hwf hr)
    rw [hs.newFlags.1]
    refine h child p _ hx hp hcspell (Nat.lt_of_le_of_lt ?_ hnear)
    refine Nat.mul_le_mul_right _ (Nat.sub_le_sub_left ?_ _)
    rw [List.length_append, List.length_append]
    exact Nat.add_le_add_left (List.length_take_le' _ _) _

theorem Inv.splitNode (h : Inv c s locks handles live) (hchild : child ∈ live) (hn : 0 < n)
    (hlt : n < pagesOf c s child) :
    ∃ u s' a a', s.splitNode c child (n * c.pageSize) = some (s.counter, s') ∧
      SplitTo c s s' u child (n * c.pageSize) ∧
      Split (view c s) (view c s') s.rootNode live u child s.counter n a a' ∧
      Inv c s' locks handles (Insert.insert s.counter live) := by
  obtain ⟨u, s', hrun, hu, hedge, hs, hbook⟩ := h.book.splitNode hchild hn hlt
  have hsplit := hs.split h.book hchild hn hlt hu hedge
  have hwf := h.book.wf
  have hroot : s'.rootNode = s.rootNode := by rw [hs.rest]
  have hfresh := h.book.paged.counter_fresh.2
  have hunder : ∀ v, ∀ lock ∈ locks, Under (view c s') s.rootNode v lock.node ↔
      Under (view c s) s.rootNode v lock.node ∨
        v = s.counter ∧ Under (view c s) s.rootNode child lock.node :=
    fun v lock hlock => hsplit.under_iff hwf (h.node lock hlock)
  have hnotUnder : ∀ lock ∈ locks, ¬ Under (view c s) s.rootNode s.counter lock.node :=
    fun lock hlock hbad => hfresh (hwf.under_live (h.node lock hlock) hbad)
  have hwindow : ∀ lock ∈ locks, lock.swaHeld = true →
      ∃ path start, Window c s lock path start ∧ Window c s' lock path start := by
    intro lock hlock hheld
    obtain ⟨path, start, hw⟩ := h.window lock hlock hheld
    exact ⟨path, start, hw, hw.splitNode hwf (h.node lock hlock) hsplit hs hchild hn hlt⟩
  refine ⟨u, s', _, _, hrun, hs, hsplit, hbook.congr_counts (fun v hv => ?_) fun v hv => ?_,
    fun lock hlock => ?_, fun lock hlock hheld => ?_, h.uuids.splitNode hs hchild hfresh,
    fun v hv => ?_⟩
  · rcases Finset.mem_insert.mp hv with rfl | hv
    · rw [update_self]
      refine fullCount_congr fun lock hlock => ?_
      rw [hroot, hunder _ lock hlock]
      simp [hnotUnder lock hlock]
    · have hne : v ≠ s.counter := fun heq => hfresh (heq ▸ hv)
      rw [update_of_ne hne]
      refine fullCount_congr fun lock hlock => ?_
      rw [hroot, hunder _ lock hlock]
      simp [hne]
  · rcases Finset.mem_insert.mp hv with rfl | hv
    · rw [update_self]
      refine swaCount_congr fun lock hlock hheld => ?_
      obtain ⟨path, start, hw, hw'⟩ := hwindow lock hlock hheld
      obtain ⟨r, hr⟩ := hwf.exists_spells hsplit.parentLive
      have hnspell := hsplit.spells_new hwf hr
      have hlabel : n ≤ (view c s child).label.length := Nat.le_of_lt hlt
      rw [hw'.covers_iff (hroot ▸ hsplit.wf hwf) (Finset.mem_insert_self _ _) (hroot ▸ hnspell),
        hw.covers_iff hwf hchild (.child hr hsplit.edge), hroot, hunder _ lock hlock]
      simp only [hnotUnder lock hlock, true_and, false_or]
      refine and_congr_right fun _ => ?_
      rw [(hs.pagesOf (Nat.le_of_lt hlt)).1, List.length_append, List.length_append,
        List.length_take_of_le hlabel]
      exact (Nat.add_le_add_iff_right).trans (Nat.add_le_add_iff_right).symm
    · have hne : v ≠ s.counter := fun heq => hfresh (heq ▸ hv)
      rw [update_of_ne hne]
      refine swaCount_congr fun lock _ _ => ?_
      simp only [Covers, hroot, hsplit.spells_iff hwf (.inr hv)]
  · rw [hroot]
    exact (h.node lock hlock).imp_right Finset.mem_insert_of_mem
  · obtain ⟨path, start, _, hw'⟩ := hwindow lock hlock hheld
    exact ⟨path, start, hw'⟩
  · obtain ⟨hvlive, husable⟩ := h.usable v hv
    rw [hroot]
    exact ⟨hvlive.imp_right Finset.mem_insert_of_mem, husable.splitNode hwf hvlive hsplit hs⟩

end SplitNode

section Leaf

variable {u : Nat} {key : RadixKey} {value : List σ}

theorem LeafTo.above {tombstone : Bool} (hs : LeafTo c s s' u key value tombstone)
    (hadd : AddLeaf (view c s) (view c s') s.rootNode live u s.counter (key.childKey c.pageSize)
      (key.syms c.pageSize) (pages c.pageSize value)) (hwf : Wf (view c s) s.rootNode live)
    (hfresh : s.counter ∉ live) (hv : v = s.rootNode ∨ v ∈ live) : SameAbove c s s' v := by
  have hroot : s'.rootNode = s.rootNode := by rw [hs.rest]
  refine ⟨fun w => by rw [hroot, hadd.under_iff hwf hv], fun w p hw => ?_, fun w hw => ?_⟩
  · rw [hroot, hadd.spells_iff hwf]
    rcases hw with rfl | hw
    · exact hv
    · exact .inr (hwf.under_live hv hw)
  · rw [pagesOf, (hs.tree.fields fun heq => hfresh (heq ▸ hwf.under_live hv hw)).1]
    rfl

theorem Inv.addNewNode (h : Inv c s locks handles live) (hu : u = s.rootNode ∨ u ∈ live)
    (hkey : 0 < key.len) (haligned : key.Aligned c.pageSize) (hvalue : value.length = key.len)
    (hfree : (s.tree u).children.lookup (key.childKey c.pageSize) = none) (tombstone : Bool) :
    ∃ s', s.addNewNode c u key value tombstone = some (s.counter, s') ∧
      LeafTo c s s' u key value tombstone ∧
      AddLeaf (view c s) (view c s') s.rootNode live u s.counter (key.childKey c.pageSize)
        (key.syms c.pageSize) (pages c.pageSize value) ∧
      Inv c s' locks handles (Insert.insert s.counter live) := by
  obtain ⟨s', hrun, hs, hbook⟩ := h.book.addNewNode hu hkey haligned hvalue hfree tombstone
  have hadd : AddLeaf (view c s) (view c s') s.rootNode live u s.counter (key.childKey c.pageSize)
      (key.syms c.pageSize) (pages c.pageSize value) :=
    hs.tree.addLeaf c.pageSize_pos h.book.paged hu hkey haligned hvalue hfree
  have hwf := h.book.wf
  have hroot : s'.rootNode = s.rootNode := by rw [hs.rest]
  have hfresh := h.book.paged.counter_fresh.2
  have hne : ∀ {v}, v ∈ live → v ≠ s.counter := fun hv heq => hfresh (heq ▸ hv)
  have habove : ∀ {v}, v = s.rootNode ∨ v ∈ live → SameAbove c s s' v := fun hv =>
    hs.above hadd hwf hfresh hv
  have hnotUnder : ∀ lock ∈ locks, ¬ Under (view c s') s'.rootNode s.counter lock.node := by
    intro lock hlock hbad
    have hbad := ((habove (h.node lock hlock)).under _).mp hbad
    exact hfresh (hwf.under_live (h.node lock hlock) hbad)
  have hwindow : ∀ lock ∈ locks, lock.swaHeld = true →
      ∃ path start, Window c s' lock path start := by
    intro lock hlock hheld
    obtain ⟨path, start, hw⟩ := h.window lock hlock hheld
    refine ⟨path, start, hw.sameAbove (habove (h.node lock hlock)) fun v uuid hv hu => ?_⟩
    rw [(hs.flags v (hne (hwf.under_live (h.node lock hlock) hv))).2.2.2, hu]
  refine ⟨s', hrun, hs, hadd, hbook.congr_counts (fun v hv => ?_) fun v hv => ?_,
    fun lock hlock => ?_, hwindow, h.uuids.of_marks (by rw [hs.rest]) fun v hv uuid huu => ?_,
    fun v hv => ?_⟩
  · rcases Finset.mem_insert.mp hv with rfl | hv
    · rw [update_self]
      exact fullCount_eq_zero hnotUnder
    · rw [update_of_ne (hne hv)]
      exact fullCount_congr fun lock hlock => (habove (h.node lock hlock)).under v
  · rcases Finset.mem_insert.mp hv with rfl | hv
    · rw [update_self]
      refine swaCount_eq_zero fun lock hlock hheld hbad => ?_
      obtain ⟨path, start, hw⟩ := hwindow lock hlock hheld
      have hwf' := hroot ▸ hadd.wf hwf
      obtain ⟨q, hq⟩ := hwf'.exists_spells (.inr (Finset.mem_insert_self _ _))
      exact hnotUnder lock hlock ((hw.covers_iff hwf' (Finset.mem_insert_self _ _) hq).mp hbad).1
    · rw [update_of_ne (hne hv)]
      exact swaCount_congr fun _ _ _ => (habove (.inr hv)).covers_iff
  · rw [hroot]
    exact (h.node lock hlock).imp_right Finset.mem_insert_of_mem
  · rcases Finset.mem_insert.mp hv with rfl | hv
    · rw [hs.newFlags.2.2.2] at huu
      cases huu
    · exact ⟨hv, (hs.flags v (hne hv)).2.2.2.symm.trans huu⟩
  · obtain ⟨hvlive, husable⟩ := h.usable v hv
    rw [hroot]
    refine ⟨hvlive.imp_right Finset.mem_insert_of_mem, husable.sameAbove (habove hvlive) ?_⟩
    intro x hx hflag
    rw [(hs.flags x (hne (hwf.under_live hvlive hx))).1, hflag]

end Leaf

end SwaRadixCache

end SpecDecode.MemCache
