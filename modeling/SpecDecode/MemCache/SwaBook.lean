import SpecDecode.MemCache.SwaRadixCache

/-!
# The bookkeeping of the SWA radix cache

`Book` says that the nodes form a page tree, that both LRU lists hold the right nodes and
that the four sizes are the sums they stand for, where `full` and `swa` are the lock
counts. It is kept by every primitive step.
-/

namespace SpecDecode.MemCache

open Function RadixTree

variable {σ : Type}

namespace LruList

variable {nodes : Nat → SwaTreeNode σ} {l : LruList} {isSwa : Bool} {p q : Nat → Prop} {v w : Nat}

/-- The list holds the nodes that satisfy `p`, each of them once. -/
structure Holds (l : LruList) (isSwa : Bool) (p : Nat → Prop) : Prop where
  kind : l.isSwaList = isSwa
  nodup : l.order.Nodup
  mem : ∀ v, v ∈ l.order ↔ p v

theorem Holds.congr (h : l.Holds isSwa p) (hpq : ∀ v, p v ↔ q v) : l.Holds isSwa q :=
  ⟨h.kind, h.nodup, fun v => (h.mem v).trans (hpq v)⟩

theorem addNodeAfter_perm {prev : Option Nat} {order : List Nat}
    (hprev : ∀ w, prev = some w → w ∈ order) : (addNodeAfter prev v order).Perm (v :: order) := by
  cases prev with
  | none =>
      rw [addNodeAfter]
  | some w =>
      have hw := hprev w rfl
      induction order with
      | nil => cases hw
      | cons x order ih =>
          rw [addNodeAfter]
          split
          · exact .swap _ _ _
          · next hne =>
              have hw' := List.mem_of_ne_of_mem (Ne.symm hne) hw
              exact ((ih (fun _ heq => Option.some.inj heq ▸ hw') hw').cons x).trans (.swap _ _ _)

theorem Holds.perm {order : List Nat} (h : l.Holds isSwa p) (hperm : order.Perm l.order) :
    LruList.Holds { l with order := order } isSwa p :=
  ⟨h.kind, hperm.nodup_iff.mpr h.nodup, fun v => hperm.mem_iff.trans (h.mem v)⟩

theorem Holds.allowed (h : l.Holds isSwa p)
    (htomb : isSwa = true → (nodes v).swaTombstone = false) :
    ¬ (l.isSwaList = true ∧ (nodes v).swaTombstone = true) := by
  rintro ⟨hkind, hv⟩
  rw [htomb (h.kind ▸ hkind)] at hv
  exact Bool.false_ne_true hv

theorem Holds.resetNodeMru (nodes : Nat → SwaTreeNode σ) (h : l.Holds isSwa p) (hv : p v)
    (htomb : isSwa = true → (nodes v).swaTombstone = false) :
    ∃ l', l.resetNodeMru nodes v = some l' ∧ l'.Holds isSwa p := by
  have hmem := (h.mem v).mpr hv
  refine ⟨_, if_pos ⟨hmem, h.allowed htomb⟩, h.perm ?_⟩
  exact (List.perm_cons_erase hmem).symm

theorem Holds.insertMru (nodes : Nat → SwaTreeNode σ) (h : l.Holds isSwa p) (hv : ¬ p v)
    (htomb : isSwa = true → (nodes v).swaTombstone = false) :
    ∃ l', l.insertMru nodes v = some l' ∧ l'.Holds isSwa fun w => w = v ∨ p w := by
  have hmem : v ∉ l.order := fun hmem => hv ((h.mem v).mp hmem)
  refine ⟨_, if_pos ⟨hmem, h.allowed htomb⟩, h.kind,
    List.nodup_cons.mpr ⟨hmem, h.nodup⟩, fun w => ?_⟩
  rw [List.mem_cons, h.mem]

theorem Holds.removeNode (nodes : Nat → SwaTreeNode σ) (h : l.Holds isSwa p) (hv : p v)
    (htomb : isSwa = true → (nodes v).swaTombstone = false) :
    ∃ l', l.removeNode nodes v = some l' ∧ l'.Holds isSwa fun w => w ≠ v ∧ p w := by
  have hmem := (h.mem v).mpr hv
  refine ⟨_, if_pos ⟨hmem, h.allowed htomb⟩, h.kind, h.nodup.erase v, fun w => ?_⟩
  rw [h.nodup.mem_erase_iff, h.mem]

theorem Holds.resetLoop {root fuel : Nat} {t : Nat → Node ChildKey (List σ)} {chain : List Nat}
    {prev : Option Nat} (ht : ∀ v, (t v).parent = (nodes v).parent)
    (hchain : RadixTree.Chain t root v chain) (h : l.Holds isSwa p)
    (hp : ∀ w ∈ chain, (isSwa = true → (nodes w).swaTombstone = false) → p w)
    (hprev : ∀ w, prev = some w → p w ∧ w ∉ chain) (hfuel : chain.length < fuel) :
    ∃ l', l.resetLoop nodes root fuel prev v = some l' ∧ l'.Holds isSwa p := by
  induction hchain generalizing l fuel prev with
  | root =>
      obtain ⟨fuel, rfl⟩ := Nat.exists_eq_succ_of_ne_zero (Nat.ne_of_gt hfuel)
      exact ⟨l, by rw [LruList.resetLoop, if_pos rfl], h⟩
  | @node v u chain hv hparent hchain ih =>
      obtain ⟨fuel, rfl⟩ := Nat.exists_eq_succ_of_ne_zero (Nat.ne_zero_of_lt hfuel)
      have hfuel := Nat.lt_of_succ_lt_succ hfuel
      rw [ht] at hparent
      have hnot : v ∉ chain :=
        (List.nodup_cons.mp (RadixTree.Chain.node hv ((ht v).trans hparent) hchain).nodup).1
      have hrest : ∀ w ∈ chain, (isSwa = true → (nodes w).swaTombstone = false) → p w := fun w hw =>
        hp w (List.mem_cons_of_mem _ hw)
      simp only [LruList.resetLoop, if_neg hv, hparent, h.kind]
      by_cases hskip : isSwa = true ∧ (nodes v).swaTombstone = true
      · rw [if_neg (by simp [hskip.1, hskip.2])]
        apply ih h hrest _ hfuel
        intro w hw
        obtain ⟨hpw, hnotin⟩ := hprev w hw
        exact ⟨hpw, fun hmem => hnotin (List.mem_cons_of_mem _ hmem)⟩
      · have hpv : p v := hp v List.mem_cons_self fun hswa => by
          simpa [hswa] using hskip
        have hmem := (h.mem v).mpr hpv
        rw [if_pos (by by_contra hno; exact hskip (by simpa using hno)), if_pos hmem]
        have hperm : (addNodeAfter prev v (l.order.erase v)).Perm l.order := by
          refine (addNodeAfter_perm fun w hw => ?_).trans (List.perm_cons_erase hmem).symm
          obtain ⟨hpw, hnotin⟩ := hprev w hw
          have hne : w ≠ v := fun heq => hnotin (heq ▸ List.mem_cons_self)
          exact (List.mem_erase_of_ne hne).mpr ((h.mem w).mpr hpw)
        have hnext : ∀ w, some v = some w → p w ∧ w ∉ chain := fun w hw => by
          obtain rfl := Option.some.inj hw
          exact ⟨hpv, hnot⟩
        exact h.kind ▸ ih (h.perm hperm) hrest hnext hfuel

end LruList

namespace SwaRadixCache

variable {c : SwaCacheParams} {s s' : SwaRadixCache σ} {full swa full' swa' : Nat → Nat}
variable {live : Finset Nat} {v w : Nat}

/-- The nodes as a page tree. -/
def tree (s : SwaRadixCache σ) (v : Nat) : PageNode σ := (s.nodes v).toPageNode

/-- The tree a cache holds, with pages as symbols. -/
def view (c : SwaCacheParams) (s : SwaRadixCache σ) : Nat → Node ChildKey (List σ) :=
  PageTree.view c.pageSize s.tree

/-- The length of the keys of the nodes that satisfy `p`. -/
def sizeOf (s : SwaRadixCache σ) (live : Finset Nat) (p : Nat → Prop) [DecidablePred p] : Int :=
  ∑ v ∈ live, if p v then ((s.tree v).key.len : Int) else 0

/-- The LRU lists of a cache hold the nodes that satisfy `p`, and those of them that are not
tombstoned. -/
structure Lists (s : SwaRadixCache σ) (p : Nat → Prop) : Prop where
  full : s.fullLruList.Holds false p
  swa : s.swaLruList.Holds true fun v => p v ∧ (s.nodes v).swaTombstone = false

/-- The bookkeeping of a cache whose nodes besides the root are `live`, where `full` and
`swa` are the lock counts. -/
structure Book (c : SwaCacheParams) (s : SwaRadixCache σ) (full swa : Nat → Nat)
    (live : Finset Nat) : Prop where
  paged : PageTree.Paged c.pageSize s.tree s.rootNode s.counter live
  fullLock : ∀ v ∈ live, (s.nodes v).fullLockRef = full v
  swaLock : ∀ v ∈ live, (s.nodes v).swaLockRef = swa v
  tombstone : ∀ v ∈ live, (s.nodes v).swaTombstone = true → swa v = 0
  root : (s.nodes s.rootNode).swaTombstone = false ∧ (s.nodes s.rootNode).fullLockRef = 1 ∧
    (s.nodes s.rootNode).swaLockRef = 1
  lists : s.Lists (· ∈ live)
  fullEvictable : s.fullEvictableSize = s.sizeOf live fun v => full v = 0
  fullProtected : s.fullProtectedSize = s.sizeOf live fun v => 0 < full v
  swaEvictable : s.swaEvictableSize =
    s.sizeOf live fun v => (s.nodes v).swaTombstone = false ∧ swa v = 0
  swaProtected : s.swaProtectedSize = s.sizeOf live fun v => 0 < swa v

section Lists

variable {p : Nat → Prop} {f : (Nat → SwaTreeNode σ) → LruList → Option LruList}

theorem onLists_eq {l m : LruList} {tombstone : Bool} (hfull : f s.nodes s.fullLruList = some l)
    (hswa : tombstone = false → f s.nodes s.swaLruList = some m) :
    s.onLists tombstone f = some { s with
      fullLruList := l, swaLruList := if tombstone then s.swaLruList else m } := by
  cases tombstone with
  | true => simp [onLists, onFull, hfull]
  | false => simp [onLists, onFull, onSwa, hfull, hswa rfl]

theorem Lists.reset (h : s.Lists p) (hv : p v) :
    ∃ l l', s.onLists (s.nodes v).swaTombstone (fun nodes l => l.resetNodeMru nodes v) =
        some { s with fullLruList := l, swaLruList := l' } ∧
      Lists { s with fullLruList := l, swaLruList := l' } p := by
  obtain ⟨l, hl, hfull⟩ := h.full.resetNodeMru s.nodes hv Bool.noConfusion
  cases htomb : (s.nodes v).swaTombstone with
  | true =>
      exact ⟨_, _, onLists_eq hl (m := s.swaLruList) Bool.noConfusion, hfull, h.swa⟩
  | false =>
      obtain ⟨l', hl', hswa⟩ := h.swa.resetNodeMru s.nodes ⟨hv, htomb⟩ fun _ => htomb
      exact ⟨_, _, onLists_eq hl fun _ => hl', hfull, hswa⟩

theorem Lists.insert (h : s.Lists p) (hv : ¬ p v) :
    ∃ l l', s.onLists (s.nodes v).swaTombstone (fun nodes l => l.insertMru nodes v) =
        some { s with fullLruList := l, swaLruList := l' } ∧
      Lists { s with fullLruList := l, swaLruList := l' } fun w => w = v ∨ p w := by
  obtain ⟨l, hl, hfull⟩ := h.full.insertMru s.nodes hv Bool.noConfusion
  cases htomb : (s.nodes v).swaTombstone with
  | true =>
      refine ⟨_, _, onLists_eq hl (m := s.swaLruList) Bool.noConfusion, hfull,
        h.swa.congr fun w => ?_⟩
      refine and_congr_left fun hw => ⟨.inr, fun hor => hor.resolve_left ?_⟩
      rintro rfl
      rw [htomb] at hw
      cases hw
  | false =>
      obtain ⟨l', hl', hswa⟩ := h.swa.insertMru s.nodes (fun hbad => hv hbad.1) fun _ => htomb
      refine ⟨_, _, onLists_eq hl fun _ => hl', hfull, hswa.congr fun w => ?_⟩
      rw [or_and_right]
      refine or_congr_left ⟨fun heq => ⟨heq, heq ▸ htomb⟩, And.left⟩

theorem Lists.remove (h : s.Lists p) (hv : p v) :
    ∃ l l', s.onLists (s.nodes v).swaTombstone (fun nodes l => l.removeNode nodes v) =
        some { s with fullLruList := l, swaLruList := l' } ∧
      Lists { s with fullLruList := l, swaLruList := l' } fun w => w ≠ v ∧ p w := by
  obtain ⟨l, hl, hfull⟩ := h.full.removeNode s.nodes hv Bool.noConfusion
  cases htomb : (s.nodes v).swaTombstone with
  | true =>
      refine ⟨_, _, onLists_eq hl (m := s.swaLruList) Bool.noConfusion, hfull,
        h.swa.congr fun w => ?_⟩
      refine and_congr_left fun hw => ⟨fun hp => ⟨?_, hp⟩, And.right⟩
      rintro rfl
      rw [htomb] at hw
      cases hw
  | false =>
      obtain ⟨l', hl', hswa⟩ := h.swa.removeNode s.nodes ⟨hv, htomb⟩ fun _ => htomb
      exact ⟨_, _, onLists_eq hl fun _ => hl', hfull, hswa.congr fun w => and_assoc.symm⟩

/-- Lists with the same nodes stay right when the nodes change elsewhere. -/
theorem Lists.congr {q : Nat → Prop} (h : s.Lists p) (hfull : s'.fullLruList = s.fullLruList)
    (hswa : s'.swaLruList = s.swaLruList) (hpq : ∀ v, p v ↔ q v)
    (htomb : ∀ v, p v → (s'.nodes v).swaTombstone = (s.nodes v).swaTombstone) : s'.Lists q where
  full := hfull ▸ h.full.congr hpq
  swa := hswa ▸ h.swa.congr fun v => by
    rw [← hpq]
    exact and_congr_right fun hv => by rw [htomb v hv]

end Lists

section SplitNode

variable {u child n : Nat}

structure SplitTo (c : SwaCacheParams) (s s' : SwaRadixCache σ) (u child n : Nat) : Prop where
  tree : PageTree.SplitAt c.pageSize s.tree s'.tree u child s.counter n
  flags : ∀ v, v ≠ s.counter → (s'.nodes v).swaTombstone = (s.nodes v).swaTombstone ∧
    (s'.nodes v).fullLockRef = (s.nodes v).fullLockRef ∧
    (s'.nodes v).swaLockRef = (s.nodes v).swaLockRef
  newFlags : (s'.nodes s.counter).swaTombstone = (s.nodes child).swaTombstone ∧
    (s'.nodes s.counter).fullLockRef = (s.nodes child).fullLockRef ∧
    (s'.nodes s.counter).swaLockRef = (s.nodes child).swaLockRef
  uuid : ∀ v, v ≠ s.counter → v ≠ child → (s'.nodes v).swaUuid = (s.nodes v).swaUuid
  newUuid : (s'.nodes s.counter).swaUuid = (s.nodes child).swaUuid ∧
    (s'.nodes child).swaUuid = none
  rest : s' = { s with
    nodes := s'.nodes, counter := s.counter + 1
    fullLruList := s'.fullLruList, swaLruList := s'.swaLruList }

theorem splitNodes_to (hparent : (s.nodes child).parent = some u) (huc : u ≠ child)
    (hu : u ≠ s.counter) (hc : child ≠ s.counter) (n : Nat) :
    SplitTo c s (s.splitNodes c child n u) u child n := by
  refine ⟨⟨?_, ?_, ?_, ?_⟩, ?_, ?_, ?_, ?_, rfl⟩
  · simp [tree, splitNodes, updateNode, update_of_ne hu.symm, update_of_ne hc.symm,
      hparent]
  · simp [tree, splitNodes, updateNode, update_of_ne huc.symm, update_of_ne hc]
  · simp [tree, splitNodes, updateNode, update_of_ne huc, update_of_ne hu]
  · intro v hvu hv hvc
    simp [tree, splitNodes, updateNode, update_of_ne hvu, update_of_ne hvc,
      update_of_ne hv]
  · intro v hv
    by_cases hvu : v = u
    · subst hvu
      simp [splitNodes, updateNode, update_of_ne huc, update_of_ne hv]
    · by_cases hvc : v = child
      · subst hvc
        simp [splitNodes, updateNode, update_of_ne hvu, update_of_ne hv]
      · simp [splitNodes, updateNode, update_of_ne hvu, update_of_ne hvc,
          update_of_ne hv]
  · simp [splitNodes, updateNode, update_of_ne hu.symm, update_of_ne hc.symm]
  · intro v hv hvc
    by_cases hvu : v = u
    · subst hvu
      simp [splitNodes, updateNode, update_of_ne hvc, update_of_ne hv]
    · simp [splitNodes, updateNode, update_of_ne hvu, update_of_ne hvc,
        update_of_ne hv]
  · simp [splitNodes, updateNode, update_of_ne hu.symm, update_of_ne hc.symm,
      update_of_ne huc.symm]

theorem splitNode_eq (h : s.Lists (· ∈ live)) (hchild : child ∈ live)
    (hparent : (s.nodes child).parent = some u) (huc : u ≠ child) (hu : u ≠ s.counter)
    (hfresh : s.counter ∉ live) (hfirst : 0 < ((s.nodes child).key.slice 0 n).len)
    (hrest : 0 < ((s.nodes child).key.slice n (s.nodes child).key.len).len) :
    ∃ s', s.splitNode c child n = some (s.counter, s') ∧ SplitTo c s s' u child n ∧
      s'.Lists (· ∈ Insert.insert s.counter live) := by
  have hc : child ≠ s.counter := fun heq => hfresh (heq ▸ hchild)
  obtain ⟨l₁, l₁', hremove, h₁⟩ := h.remove hchild
  generalize hs₁ : ({ s with fullLruList := l₁, swaLruList := l₁' } : SwaRadixCache σ) = s₁
    at hremove h₁
  have hto : SplitTo c s₁ (s₁.splitNodes c child n u) u child n := by
    subst hs₁
    exact splitNodes_to (s := { s with fullLruList := l₁, swaLruList := l₁' }) hparent huc hu hc n
  have h₂ : (s₁.splitNodes c child n u).Lists fun w => w ≠ child ∧ w ∈ live := by
    refine h₁.congr rfl rfl (fun w => Iff.rfl) fun w hw => (hto.flags w ?_).1
    subst hs₁
    exact fun heq => hfresh (heq ▸ hw.2)
  have htomb : ((s₁.splitNodes c child n u).nodes s.counter).swaTombstone =
      (s.nodes child).swaTombstone := by
    subst hs₁
    exact hto.newFlags.1
  have htomb' : ((s₁.splitNodes c child n u).nodes child).swaTombstone =
      (s.nodes child).swaTombstone := by
    subst hs₁
    exact (hto.flags child hc).1
  obtain ⟨l₃, l₃', hinsert, h₃⟩ := h₂.insert (v := s.counter) fun hbad => hfresh hbad.2
  obtain ⟨l₄, l₄', hinsert', h₄⟩ := h₃.insert (v := child) fun hbad => by
    rcases hbad with heq | hbad
    · exact hc heq
    · exact hbad.1 rfl
  rw [htomb] at hinsert
  rw [htomb'] at hinsert'
  refine ⟨_, ?_, ?_, h₄.congr rfl rfl (fun w => ?_) fun _ _ => rfl⟩
  · simp only [splitNode, hfirst, hrest, and_self, if_true, hparent, Option.bind_eq_bind,
      Option.bind_some, hremove, hinsert, hinsert']
  · subst hs₁
    exact ⟨hto.tree, hto.flags, hto.newFlags, hto.uuid, hto.newUuid, rfl⟩
  · rw [Finset.mem_insert]
    by_cases hw : w = child
    · simp [hw, hchild]
    · simp [hw]

/-- A split keeps the books; the new node takes over the lock counts. -/
theorem SplitTo.book (h : Book c s full swa live) (hchild : child ∈ live) (hn : 0 < n)
    (hlt : n < ((s.tree child).key.syms c.pageSize).length)
    (hs : SplitTo c s s' u child (n * c.pageSize)) (hu : u = s.rootNode ∨ u ∈ live)
    (hedge : (s.tree u).children.lookup ((s.tree child).key.childKey c.pageSize) = some child)
    (hlists : s'.Lists (· ∈ Insert.insert s.counter live)) :
    Book c s' (update full s.counter (full child))
      (update swa s.counter (swa child)) (Insert.insert s.counter live) := by
  have hne : ∀ {v : Nat}, v ∈ live → v ≠ s.counter := fun hv => h.paged.ne_counter (.inr hv)
  have hroot : s'.rootNode = s.rootNode := by rw [hs.rest]
  have hcounter : s'.counter = s.counter + 1 := by rw [hs.rest]
  have hsize : ∀ {p p' : Nat → Prop} [DecidablePred p] [DecidablePred p'],
      (p' s.counter ↔ p child) → (∀ v ∈ live, p' v ↔ p v) →
      s'.sizeOf (Insert.insert s.counter live) p' = s.sizeOf live p := fun hnew hold =>
    hs.tree.sum_eq c.pageSize_pos h.paged hchild hlt hnew hold
  have hfull : ∀ v ∈ live, update full s.counter (full child) v = full v := fun v hv =>
    update_of_ne (hne hv) _ _
  have hswa : ∀ v ∈ live, update swa s.counter (swa child) v = swa v := fun v hv =>
    update_of_ne (hne hv) _ _
  refine ⟨?_, ?_, ?_, ?_, ?_, hlists, ?_, ?_, ?_, ?_⟩
  · rw [hroot, hcounter]
    exact hs.tree.paged c.pageSize_pos h.paged hchild hn hlt hu hedge
  · intro v hv
    rcases Finset.mem_insert.mp hv with rfl | hv
    · rw [update_self, hs.newFlags.2.1, h.fullLock child hchild]
    · rw [hfull v hv, (hs.flags v (hne hv)).2.1, h.fullLock v hv]
  · intro v hv
    rcases Finset.mem_insert.mp hv with rfl | hv
    · rw [update_self, hs.newFlags.2.2, h.swaLock child hchild]
    · rw [hswa v hv, (hs.flags v (hne hv)).2.2, h.swaLock v hv]
  · intro v hv htomb
    rcases Finset.mem_insert.mp hv with rfl | hv
    · rw [update_self]
      exact h.tombstone child hchild (hs.newFlags.1 ▸ htomb)
    · rw [hswa v hv]
      exact h.tombstone v hv ((hs.flags v (hne hv)).1 ▸ htomb)
  · obtain ⟨htomb, hfullRef, hswaRef⟩ := hs.flags _ (h.paged.ne_counter (.inl rfl))
    rw [hroot, htomb, hfullRef, hswaRef]
    exact h.root
  · rw [hsize (p := fun v => full v = 0) (by simp) fun v hv => by rw [hfull v hv],
      ← h.fullEvictable]
    rw [hs.rest]
  · rw [hsize (p := fun v => 0 < full v) (by simp) fun v hv => by rw [hfull v hv],
      ← h.fullProtected]
    rw [hs.rest]
  · rw [hsize (p := fun v => (s.nodes v).swaTombstone = false ∧ swa v = 0)
      (by rw [update_self, hs.newFlags.1])
      fun v hv => by rw [hswa v hv, (hs.flags v (hne hv)).1], ← h.swaEvictable]
    rw [hs.rest]
  · rw [hsize (p := fun v => 0 < swa v) (by simp) fun v hv => by rw [hswa v hv], ← h.swaProtected]
    rw [hs.rest]

theorem Book.splitNode (h : Book c s full swa live) (hchild : child ∈ live) (hn : 0 < n)
    (hlt : n < ((s.tree child).key.syms c.pageSize).length) :
    ∃ u s', s.splitNode c child (n * c.pageSize) = some (s.counter, s') ∧
      (u = s.rootNode ∨ u ∈ live) ∧
      (s.tree u).children.lookup ((s.tree child).key.childKey c.pageSize) = some child ∧
      SplitTo c s s' u child (n * c.pageSize) ∧
      Book c s' (update full s.counter (full child))
        (update swa s.counter (swa child)) (Insert.insert s.counter live) := by
  obtain ⟨u, hu, hparent, huc, hedge⟩ := h.paged.parent_lookup c.pageSize_pos hchild
  obtain ⟨hfirst, hrest, hmul⟩ := h.paged.split_len c.pageSize_pos hchild hlt
  have hpos : 0 < n * c.pageSize := Nat.mul_pos hn c.pageSize_pos
  obtain ⟨s', hsplit, hs, hlists⟩ :=
      splitNode_eq (c := c) (n := n * c.pageSize) h.lists hchild hparent
    huc (h.paged.ne_counter hu) h.paged.counter_fresh.2 (hpos.trans_eq hfirst.symm)
    ((Nat.sub_pos_of_lt hmul).trans_eq hrest.symm)
  exact ⟨u, s', hsplit, hu, hedge, hs, hs.book h hchild hn hlt hu hedge hlists⟩

end SplitNode

section AddNode

variable {u : Nat} {key : RadixKey} {value : List σ} {tombstone : Bool}

structure LeafTo (c : SwaCacheParams) (s s' : SwaRadixCache σ) (u : Nat) (key : RadixKey)
    (value : List σ) (tombstone : Bool) : Prop where
  tree : PageTree.LeafAt c.pageSize s.tree s'.tree u s.counter key value
  flags : ∀ v, v ≠ s.counter → (s'.nodes v).swaTombstone = (s.nodes v).swaTombstone ∧
    (s'.nodes v).fullLockRef = (s.nodes v).fullLockRef ∧
    (s'.nodes v).swaLockRef = (s.nodes v).swaLockRef ∧ (s'.nodes v).swaUuid = (s.nodes v).swaUuid
  newFlags : (s'.nodes s.counter).swaTombstone = tombstone ∧
    (s'.nodes s.counter).fullLockRef = 0 ∧ (s'.nodes s.counter).swaLockRef = 0 ∧
    (s'.nodes s.counter).swaUuid = none
  rest : s' = { s with
    nodes := s'.nodes, counter := s.counter + 1
    fullEvictableSize := s.fullEvictableSize + value.length
    swaEvictableSize := s.swaEvictableSize + if tombstone then 0 else (value.length : Int)
    fullLruList := s'.fullLruList, swaLruList := s'.swaLruList }

theorem LeafTo.book (h : Book c s full swa live) (hs : LeafTo c s s' u key value tombstone)
    (hu : u = s.rootNode ∨ u ∈ live) (hkey : 0 < key.len) (haligned : key.Aligned c.pageSize)
    (hvalue : value.length = key.len)
    (hfree : (s.tree u).children.lookup (key.childKey c.pageSize) = none)
    (hlists : s'.Lists (· ∈ Insert.insert s.counter live)) :
    Book c s' (update full s.counter 0) (update swa s.counter 0)
      (Insert.insert s.counter live) := by
  have hne : ∀ {v : Nat}, v ∈ live → v ≠ s.counter := fun hv => h.paged.ne_counter (.inr hv)
  have hroot : s'.rootNode = s.rootNode := by rw [hs.rest]
  have hcounter : s'.counter = s.counter + 1 := by rw [hs.rest]
  have hsize : ∀ {p p' : Nat → Prop} [DecidablePred p] [DecidablePred p'],
      (∀ v ∈ live, p' v ↔ p v) → s'.sizeOf (Insert.insert s.counter live) p' =
        (if p' s.counter then (key.len : Int) else 0) + s.sizeOf live p := fun hold =>
    hs.tree.sum_eq h.paged hold
  have hfull : ∀ v ∈ live, update full s.counter 0 v = full v := fun v hv =>
    update_of_ne (hne hv) _ _
  have hswa : ∀ v ∈ live, update swa s.counter 0 v = swa v := fun v hv =>
    update_of_ne (hne hv) _ _
  have hsizes : s'.fullEvictableSize = s.fullEvictableSize + key.len ∧
      s'.swaEvictableSize = s.swaEvictableSize + if tombstone then 0 else (key.len : Int) := by
    rw [← hvalue]
    exact ⟨by rw [hs.rest], by rw [hs.rest]⟩
  refine ⟨?_, ?_, ?_, ?_, ?_, hlists, ?_, ?_, ?_, ?_⟩
  · rw [hroot, hcounter]
    exact hs.tree.paged c.pageSize_pos h.paged hu hkey haligned hvalue hfree
  · intro v hv
    rcases Finset.mem_insert.mp hv with rfl | hv
    · rw [update_self, hs.newFlags.2.1]
      rfl
    · rw [hfull v hv, (hs.flags v (hne hv)).2.1, h.fullLock v hv]
  · intro v hv
    rcases Finset.mem_insert.mp hv with rfl | hv
    · rw [update_self, hs.newFlags.2.2.1]
      rfl
    · rw [hswa v hv, (hs.flags v (hne hv)).2.2.1, h.swaLock v hv]
  · intro v hv htomb
    rcases Finset.mem_insert.mp hv with rfl | hv
    · exact update_self _ _ _
    · rw [hswa v hv]
      exact h.tombstone v hv ((hs.flags v (hne hv)).1 ▸ htomb)
  · obtain ⟨htomb, hfullRef, hswaRef, _⟩ := hs.flags _ (h.paged.ne_counter (.inl rfl))
    rw [hroot, htomb, hfullRef, hswaRef]
    exact h.root
  · rw [hsize (p := fun v => full v = 0) fun v hv => by rw [hfull v hv], ← h.fullEvictable,
      if_pos (update_self _ _ _), hsizes.1, add_comm]
  · rw [hsize (p := fun v => 0 < full v) fun v hv => by rw [hfull v hv], ← h.fullProtected,
      if_neg (by simp), zero_add]
    rw [hs.rest]
  · rw [hsize (p := fun v => (s.nodes v).swaTombstone = false ∧ swa v = 0)
      fun v hv => by rw [hswa v hv, (hs.flags v (hne hv)).1], ← h.swaEvictable, hsizes.2, add_comm,
      hs.newFlags.1, update_self]
    cases tombstone <;> simp
  · rw [hsize (p := fun v => 0 < swa v) fun v hv => by rw [hswa v hv], ← h.swaProtected,
      if_neg (by simp), zero_add]
    rw [hs.rest]

theorem Book.addNewNode (h : Book c s full swa live) (hu : u = s.rootNode ∨ u ∈ live)
    (hkey : 0 < key.len) (haligned : key.Aligned c.pageSize) (hvalue : value.length = key.len)
    (hfree : (s.tree u).children.lookup (key.childKey c.pageSize) = none) (tombstone : Bool) :
    ∃ s', s.addNewNode c u key value tombstone = some (s.counter, s') ∧
      LeafTo c s s' u key value tombstone ∧
      Book c s' (update full s.counter 0) (update swa s.counter 0)
        (Insert.insert s.counter live) := by
  have hne : u ≠ s.counter := h.paged.ne_counter hu
  have hfresh := h.paged.counter_fresh.2
  generalize hs₁ : (({ s with
    counter := s.counter + 1
    nodes := update s.nodes s.counter
      ⟨⟨[], some u, key, value⟩, tombstone, 0, 0, none⟩ } : SwaRadixCache σ).updateNode u fun n =>
    { n with children := setChild (key.childKey c.pageSize) s.counter n.children }) = s₁
  have hnew : s₁.nodes s.counter = ⟨⟨[], some u, key, value⟩, tombstone, 0, 0, none⟩ := by
    subst hs₁
    simp [updateNode, update_of_ne hne.symm]
  have hflags : ∀ v, v ≠ s.counter → (s₁.nodes v).swaTombstone = (s.nodes v).swaTombstone ∧
      (s₁.nodes v).fullLockRef = (s.nodes v).fullLockRef ∧
      (s₁.nodes v).swaLockRef = (s.nodes v).swaLockRef ∧
        (s₁.nodes v).swaUuid = (s.nodes v).swaUuid := by
    intro v hv
    subst hs₁
    by_cases hvu : v = u
    · subst hvu
      simp [updateNode, update_of_ne hv]
    · simp [updateNode, update_of_ne hv, update_of_ne hvu]
  have h₁ : s₁.Lists (· ∈ live) := by
    refine h.lists.congr ?_ ?_ (fun _ => Iff.rfl) fun v hv =>
      (hflags v (h.paged.ne_counter (.inr hv))).1
    all_goals subst hs₁; rfl
  obtain ⟨l, l', hinsert, h₂⟩ := h₁.insert hfresh
  rw [hnew] at hinsert
  have hto : LeafTo c s ({ s₁ with
      fullLruList := l, swaLruList := l'
      fullEvictableSize := s₁.fullEvictableSize + value.length
      swaEvictableSize := s₁.swaEvictableSize + if tombstone then 0 else (value.length : Int) })
      u key value tombstone := by
    refine ⟨⟨?_, ?_, ?_⟩, hflags, by simp [hnew], by subst hs₁; rfl⟩
    · simp [tree, hnew]
    · subst hs₁
      simp [tree, updateNode, update_of_ne hne]
    · intro v hvu hv
      subst hs₁
      simp [tree, updateNode, update_of_ne hv, update_of_ne hvu]
  refine ⟨_, ?_, hto, hto.book h hu hkey haligned hvalue hfree ?_⟩
  · simp only [SwaRadixCache.addNewNode, hkey, if_true, hs₁, hinsert, Option.bind_eq_bind,
      Option.bind_some]
  · exact h₂.congr rfl rfl (fun v => Finset.mem_insert.symm) fun _ _ => rfl

end AddNode

section Retag

variable {m k : Nat}

structure RetagAt (s s' : SwaRadixCache σ) (v m k : Nat) : Prop where
  tree : s'.tree = s.tree
  rootNode : s'.rootNode = s.rootNode
  counter : s'.counter = s.counter
  other : ∀ w, w ≠ v → (s'.nodes w).swaTombstone = (s.nodes w).swaTombstone ∧
    (s'.nodes w).fullLockRef = (s.nodes w).fullLockRef ∧
    (s'.nodes w).swaLockRef = (s.nodes w).swaLockRef
  full : (s'.nodes v).fullLockRef = m
  swa : (s'.nodes v).swaLockRef = k
  tombstone : (s'.nodes v).swaTombstone = true → k = 0

private theorem sizeOf_retag {p p' : Nat → Prop} [DecidablePred p] [DecidablePred p']
    (hv : v ∈ live)
    (htree : s'.tree = s.tree) (hother : ∀ w ∈ live, w ≠ v → (p' w ↔ p w)) :
    s'.sizeOf live p' = s.sizeOf live p + (if p' v then ((s.tree v).key.len : Int) else 0) -
      if p v then ((s.tree v).key.len : Int) else 0 := by
  have hrest : ∑ w ∈ live.erase v, (if p' w then ((s.tree w).key.len : Int) else 0) =
      ∑ w ∈ live.erase v, if p w then ((s.tree w).key.len : Int) else 0 := by
    refine Finset.sum_congr rfl fun w hw => ?_
    simp only [hother w (Finset.mem_of_mem_erase hw) (Finset.ne_of_mem_erase hw)]
  rw [sizeOf, sizeOf, htree, ← Finset.add_sum_erase _ _ hv,
    ← Finset.add_sum_erase live (fun w => if p w then ((s.tree w).key.len : Int) else 0) hv, hrest]
  omega

theorem RetagAt.book (h : Book c s full swa live) (hv : v ∈ live) (hs : RetagAt s s' v m k)
    (hlists : s'.Lists (· ∈ live)) (hfe : s'.fullEvictableSize = s.fullEvictableSize +
      (if m = 0 then ((s.tree v).key.len : Int) else 0) -
        if full v = 0 then ((s.tree v).key.len : Int) else 0)
    (hfp : s'.fullProtectedSize = s.fullProtectedSize +
      (if 0 < m then ((s.tree v).key.len : Int) else 0) -
        if 0 < full v then ((s.tree v).key.len : Int) else 0)
    (hse : s'.swaEvictableSize = s.swaEvictableSize +
      (if (s'.nodes v).swaTombstone = false ∧ k = 0 then ((s.tree v).key.len : Int) else 0) -
        if (s.nodes v).swaTombstone = false ∧ swa v = 0 then ((s.tree v).key.len : Int) else 0)
    (hsp : s'.swaProtectedSize = s.swaProtectedSize +
      (if 0 < k then ((s.tree v).key.len : Int) else 0) -
        if 0 < swa v then ((s.tree v).key.len : Int) else 0) :
    Book c s' (update full v m) (update swa v k) live := by
  have hfull : ∀ w, w ≠ v → update full v m w = full w := fun w hw =>
    update_of_ne hw _ _
  have hswa : ∀ w, w ≠ v → update swa v k w = swa w := fun w hw =>
    update_of_ne hw _ _
  refine ⟨?_, ?_, ?_, ?_, ?_, hlists, ?_, ?_, ?_, ?_⟩
  · rw [hs.tree, hs.rootNode, hs.counter]
    exact h.paged
  · intro w hw
    by_cases hwv : w = v
    · rw [hwv, update_self, hs.full]
    · rw [hfull w hwv, (hs.other w hwv).2.1, h.fullLock w hw]
  · intro w hw
    by_cases hwv : w = v
    · rw [hwv, update_self, hs.swa]
    · rw [hswa w hwv, (hs.other w hwv).2.2, h.swaLock w hw]
  · intro w hw htomb
    by_cases hwv : w = v
    · rw [hwv, update_self]
      exact hs.tombstone (hwv ▸ htomb)
    · rw [hswa w hwv]
      exact h.tombstone w hw ((hs.other w hwv).1 ▸ htomb)
  · have hne : s.rootNode ≠ v := fun heq => h.paged.wf.root_notMem (heq ▸ hv)
    obtain ⟨htomb, hfullRef, hswaRef⟩ := hs.other _ hne
    rw [hs.rootNode, htomb, hfullRef, hswaRef]
    exact h.root
  · rw [sizeOf_retag (p := fun w => full w = 0) hv hs.tree fun w _ hwv => by rw [hfull w hwv], hfe,
      h.fullEvictable, update_self]
  · rw [sizeOf_retag (p := fun w => 0 < full w) hv hs.tree fun w _ hwv => by rw [hfull w hwv], hfp,
      h.fullProtected, update_self]
  · rw [sizeOf_retag (p := fun w => (s.nodes w).swaTombstone = false ∧ swa w = 0) hv hs.tree
      fun w _ hwv => by rw [hswa w hwv, (hs.other w hwv).1], hse, h.swaEvictable, update_self]
  · rw [sizeOf_retag (p := fun w => 0 < swa w) hv hs.tree fun w _ hwv => by rw [hswa w hwv], hsp,
      h.swaProtected, update_self]

theorem Book.congr_counts (h : Book c s full swa live) (hfull : ∀ v ∈ live, full' v = full v)
    (hswa : ∀ v ∈ live, swa' v = swa v) : Book c s full' swa' live := by
  have hsize : ∀ {p p' : Nat → Prop} [DecidablePred p] [DecidablePred p'],
      (∀ v ∈ live, p' v ↔ p v) → s.sizeOf live p' = s.sizeOf live p := fun heq =>
    Finset.sum_congr rfl fun v hv => by simp only [heq v hv]
  refine ⟨h.paged, fun v hv => ?_, fun v hv => ?_, fun v hv => ?_, h.root, h.lists, ?_, ?_, ?_, ?_⟩
  · rw [hfull v hv, h.fullLock v hv]
  · rw [hswa v hv, h.swaLock v hv]
  · rw [hswa v hv]
    exact h.tombstone v hv
  · rw [hsize (p := fun v => full v = 0) fun v hv => by rw [hfull v hv], h.fullEvictable]
  · rw [hsize (p := fun v => 0 < full v) fun v hv => by rw [hfull v hv], h.fullProtected]
  · rw [hsize (p := fun v => (s.nodes v).swaTombstone = false ∧ swa v = 0)
      fun v hv => by rw [hswa v hv], h.swaEvictable]
  · rw [hsize (p := fun v => 0 < swa v) fun v hv => by rw [hswa v hv], h.swaProtected]

theorem updateNode_tree {f : SwaTreeNode σ → SwaTreeNode σ}
    (hf : (f (s.nodes v)).toPageNode = (s.nodes v).toPageNode) :
    (s.updateNode v f).tree = s.tree := by
  funext w
  by_cases hw : w = v
  · subst hw
    simpa [tree, updateNode] using hf
  · simp [tree, updateNode, update_of_ne hw]

theorem updateNode_other {f : SwaTreeNode σ → SwaTreeNode σ} (hw : w ≠ v) :
    (s.updateNode v f).nodes w = s.nodes w :=
  update_of_ne hw _ _

@[simp] theorem updateNode_self {f : SwaTreeNode σ → SwaTreeNode σ} :
    (s.updateNode v f).nodes v = f (s.nodes v) :=
  update_self _ _ _

end Retag

section Locks

open RadixCache (Shift)

variable {border d : Int} {m : Nat}

@[simp] theorem lockFull_self : (s.lockFull border d v).nodes v =
    { s.nodes v with fullLockRef := (s.nodes v).fullLockRef + d } :=
  update_self _ _ _

theorem lockFull_other (hw : w ≠ v) : (s.lockFull border d v).nodes w = s.nodes w :=
  update_of_ne hw _ _

private theorem lockFull_retag (h : Book c s full swa live) (hv : v ∈ live)
    (hshift : Shift border d (full v) m) : RetagAt s (s.lockFull border d v) v m (swa v) where
  tree := updateNode_tree (s := s) (v := v)
    (f := fun n => { n with fullLockRef := n.fullLockRef + d }) rfl
  rootNode := rfl
  counter := rfl
  other w hw := by simp [lockFull_other hw]
  full := by rw [lockFull_self, h.fullLock v hv, hshift.1]
  swa := by rw [lockFull_self, h.swaLock v hv]
  tombstone htomb := h.tombstone v hv (by rwa [lockFull_self] at htomb)

/-- A lock moves the slots of a node from one size to the other when its count leaves or
reaches zero. -/
theorem Book.lockFull (h : Book c s full swa live) (hv : v ∈ live)
    (hshift : Shift border d (full v) m) :
    Book c (s.lockFull border d v) (update full v m) swa live := by
  have hs := lockFull_retag h hv hshift
  have hlen : (s.nodes v).value.length = (s.tree v).key.len := h.paged.values v hv
  have hmoved := hshift.2 (s.tree v).key.len
  have hlists : (s.lockFull border d v).Lists (· ∈ live) := by
    refine h.lists.congr rfl rfl (fun _ => Iff.rfl) fun w _ => ?_
    by_cases hw : w = v
    · rw [hw, lockFull_self]
    · exact (hs.other w hw).1
  have hbook := hs.book h hv hlists ?_ ?_ ?_ ?_
  · rwa [update_eq_self] at hbook
  · simp only [SwaRadixCache.lockFull, h.fullLock v hv, hlen, hmoved]
    omega
  · simp only [SwaRadixCache.lockFull, h.fullLock v hv, hlen, hmoved, Nat.pos_iff_ne_zero]
    split <;> split <;> simp_all [sub_eq_add_neg]
  · rw [lockFull_self]
    simp [SwaRadixCache.lockFull, updateNode]
  · simp [SwaRadixCache.lockFull, updateNode]

@[simp] theorem lockSwa_self : (s.lockSwa border d v).nodes v =
    { s.nodes v with swaLockRef := (s.nodes v).swaLockRef + d } :=
  update_self _ _ _

theorem lockSwa_other (hw : w ≠ v) : (s.lockSwa border d v).nodes w = s.nodes w :=
  update_of_ne hw _ _

private theorem lockSwa_retag (h : Book c s full swa live) (hv : v ∈ live)
    (htomb : (s.nodes v).swaTombstone = false) (hshift : Shift border d (swa v) m) :
    RetagAt s (s.lockSwa border d v) v (full v) m where
  tree := updateNode_tree (s := s) (v := v)
    (f := fun n => { n with swaLockRef := n.swaLockRef + d }) rfl
  rootNode := rfl
  counter := rfl
  other w hw := by simp [lockSwa_other hw]
  full := by rw [lockSwa_self, h.fullLock v hv]
  swa := by rw [lockSwa_self, h.swaLock v hv, hshift.1]
  tombstone hbad := by
    rw [lockSwa_self, htomb] at hbad
    cases hbad

theorem Book.lockSwa (h : Book c s full swa live) (hv : v ∈ live)
    (htomb : (s.nodes v).swaTombstone = false) (hshift : Shift border d (swa v) m) :
    Book c (s.lockSwa border d v) full (update swa v m) live := by
  have hs := lockSwa_retag h hv htomb hshift
  have hlen : (s.nodes v).value.length = (s.tree v).key.len := h.paged.values v hv
  have hmoved := hshift.2 (s.tree v).key.len
  have hlists : (s.lockSwa border d v).Lists (· ∈ live) := by
    refine h.lists.congr rfl rfl (fun _ => Iff.rfl) fun w _ => ?_
    by_cases hw : w = v
    · rw [hw, lockSwa_self]
    · exact (hs.other w hw).1
  have hbook := hs.book h hv hlists ?_ ?_ ?_ ?_
  · rwa [update_eq_self] at hbook
  · simp [SwaRadixCache.lockSwa, updateNode]
  · simp [SwaRadixCache.lockSwa, updateNode]
  · rw [lockSwa_self]
    simp only [SwaRadixCache.lockSwa, h.swaLock v hv, hlen, hmoved, htomb, true_and]
    omega
  · simp only [SwaRadixCache.lockSwa, h.swaLock v hv, hlen, hmoved, Nat.pos_iff_ne_zero]
    split <;> split <;> simp_all [sub_eq_add_neg]

end Locks

section Same

structure SameBook (s s' : SwaRadixCache σ) : Prop where
  tree : s'.tree = s.tree
  flags : ∀ v, (s'.nodes v).swaTombstone = (s.nodes v).swaTombstone ∧
    (s'.nodes v).fullLockRef = (s.nodes v).fullLockRef ∧
    (s'.nodes v).swaLockRef = (s.nodes v).swaLockRef
  rootNode : s'.rootNode = s.rootNode
  counter : s'.counter = s.counter
  sizes : s'.fullEvictableSize = s.fullEvictableSize ∧ s'.fullProtectedSize = s.fullProtectedSize ∧
    s'.swaEvictableSize = s.swaEvictableSize ∧ s'.swaProtectedSize = s.swaProtectedSize

theorem Book.same (h : Book c s full swa live) (hs : SameBook s s') (hlists : s'.Lists (· ∈ live)) :
    Book c s' full swa live := by
  have hsize : ∀ {p p' : Nat → Prop} [DecidablePred p] [DecidablePred p'],
      (∀ v, p' v ↔ p v) → s'.sizeOf live p' = s.sizeOf live p := fun heq => by
    rw [sizeOf, sizeOf, hs.tree]
    exact Finset.sum_congr rfl fun v _ => by simp only [heq v]
  refine ⟨?_, fun v hv => ?_, fun v hv => ?_, fun v hv => ?_, ?_, hlists, ?_, ?_, ?_, ?_⟩
  · rw [hs.tree, hs.rootNode, hs.counter]
    exact h.paged
  · rw [(hs.flags v).2.1, h.fullLock v hv]
  · rw [(hs.flags v).2.2, h.swaLock v hv]
  · rw [(hs.flags v).1]
    exact h.tombstone v hv
  · obtain ⟨htomb, hfullRef, hswaRef⟩ := hs.flags s.rootNode
    rw [hs.rootNode, htomb, hfullRef, hswaRef]
    exact h.root
  · rw [hs.sizes.1, h.fullEvictable, hsize fun v => Iff.rfl]
  · rw [hs.sizes.2.1, h.fullProtected, hsize fun v => Iff.rfl]
  · rw [hs.sizes.2.2.1, h.swaEvictable, hsize fun v => by rw [(hs.flags v).1]]
  · rw [hs.sizes.2.2.2, h.swaProtected, hsize fun v => Iff.rfl]

theorem Book.free (h : Book c s full swa live) (slots : List σ) :
    Book c (s.free slots) full swa live :=
  h.same ⟨rfl, fun _ => ⟨rfl, rfl, rfl⟩, rfl, rfl, rfl, rfl, rfl, rfl⟩
    (h.lists.congr rfl rfl (fun _ => Iff.rfl) fun _ _ => rfl)

theorem markNode_other (hw : w ≠ v) : (s.markNode v).2.nodes w = s.nodes w := by
  unfold markNode
  split
  · rfl
  · exact update_of_ne hw _ _

theorem markNode_self : (s.markNode v).2.nodes v =
    { s.nodes v with swaUuid := some (s.markNode v).1 } := by
  unfold markNode
  split
  · next uuid huuid => rw [← huuid]
  · exact update_self _ _ _

theorem markNode_same (s : SwaRadixCache σ) (v : Nat) : SameBook s (s.markNode v).2 := by
  have hnodes : ∀ w, ((s.markNode v).2.nodes w).toPageNode = (s.nodes w).toPageNode ∧
      ((s.markNode v).2.nodes w).swaTombstone = (s.nodes w).swaTombstone ∧
      ((s.markNode v).2.nodes w).fullLockRef = (s.nodes w).fullLockRef ∧
      ((s.markNode v).2.nodes w).swaLockRef = (s.nodes w).swaLockRef := by
    intro w
    by_cases hw : w = v
    · rw [hw, markNode_self]
      exact ⟨rfl, rfl, rfl, rfl⟩
    · rw [markNode_other hw]
      exact ⟨rfl, rfl, rfl, rfl⟩
  refine ⟨funext fun w => (hnodes w).1, fun w => (hnodes w).2, ?_, ?_, ?_⟩
  all_goals
    unfold markNode
    split <;> simp [updateNode]

theorem Book.markNode (h : Book c s full swa live) (v : Nat) :
    Book c (s.markNode v).2 full swa live := by
  have hs := markNode_same s v
  refine h.same hs (h.lists.congr ?_ ?_ (fun _ => Iff.rfl) fun w _ => (hs.flags w).1)
  all_goals
    unfold SwaRadixCache.markNode
    split <;> rfl

end Same

section Tombstones

variable {value : List σ}

/-- The slots that were passed to `free`, call by call. -/
def frees (s : SwaRadixCache σ) : List (List σ) :=
  s.calls.filterMap fun
    | .free slots => some slots
    | .freeSwa _ => none

@[simp] theorem frees_free (s : SwaRadixCache σ) (slots : List σ) :
    (s.free slots).frees = s.frees ++ [slots] := by
  simp [frees, free]

@[simp] theorem frees_freeSwa (s : SwaRadixCache σ) (slots : List σ) :
    (s.freeSwa slots).frees = s.frees := by
  simp [frees, freeSwa]

/-- The slots that the tree owns and those that were freed. -/
def slots (s : SwaRadixCache σ) (live : Finset Nat) : Multiset σ :=
  PageTree.slots s.tree live + (s.frees.flatten : Multiset σ)

structure PagesOk (P : List σ → Prop) (c : SwaCacheParams) (s : SwaRadixCache σ)
    (live : Finset Nat) : Prop where
  tree : PageTree.PagesOk P c.pageSize s.tree live
  frees : ∀ slots ∈ s.frees, c.pageSize ∣ slots.length ∧ ∀ b ∈ pages c.pageSize slots, P b

structure OverwriteTo (s s' : SwaRadixCache σ) (v : Nat) (value : List σ) : Prop where
  self : s'.nodes v = { s.nodes v with value := value, swaTombstone := false }
  other : ∀ w, w ≠ v → s'.nodes w = s.nodes w
  rest : s' = { s with
    nodes := s'.nodes, swaLruList := s'.swaLruList
    swaEvictableSize := s.swaEvictableSize + value.length }

theorem OverwriteTo.tree (hs : OverwriteTo s s' v value) :
    PageTree.RevaluedAt s.tree s'.tree v value where
  atNode := by simp [SwaRadixCache.tree, hs.self]
  other w hw := by simp [SwaRadixCache.tree, hs.other w hw]

theorem Book.overwriteNode (h : Book c s full swa live) (hv : v ∈ live)
    (htomb : (s.nodes v).swaTombstone = true) (hvalue : value.length = (s.tree v).key.len) :
    ∃ s', s.overwriteNode v value = some s' ∧ OverwriteTo s s' v value ∧
      Book c s' full swa live := by
  have hzero := h.tombstone v hv htomb
  generalize hs₁ : s.updateNode v (fun n => { n with value := value, swaTombstone := false }) = s₁
  have hself : s₁.nodes v = { s.nodes v with value := value, swaTombstone := false } := by
    subst hs₁
    exact updateNode_self
  have hother : ∀ w, w ≠ v → s₁.nodes w = s.nodes w := fun w hw => by
    subst hs₁
    exact updateNode_other hw
  have hlist : s₁.swaLruList = s.swaLruList := by
    subst hs₁
    rfl
  obtain ⟨l, hinsert, hl⟩ := h.lists.swa.insertMru s₁.nodes (v := v)
    (fun hbad => by rw [htomb] at hbad; cases hbad.2) fun _ => by rw [hself]
  rw [← hlist] at hinsert
  have hto : OverwriteTo s
      { s₁ with swaLruList := l, swaEvictableSize := s₁.swaEvictableSize + value.length } v value :=
    ⟨hself, hother, by subst hs₁; rfl⟩
  refine ⟨_, ?_, hto, ?_⟩
  · simp [SwaRadixCache.overwriteNode, hs₁, onSwa, hinsert]
  · generalize hs' : ({ s₁ with
      swaLruList := l
      swaEvictableSize := s₁.swaEvictableSize + value.length } : SwaRadixCache σ) = s' at hto ⊢
    have hroot : s'.rootNode = s.rootNode := by rw [hto.rest]
    have hcounter : s'.counter = s.counter := by rw [hto.rest]
    have hflags : ∀ w, (s'.nodes w).fullLockRef = (s.nodes w).fullLockRef ∧
        (s'.nodes w).swaLockRef = (s.nodes w).swaLockRef := by
      intro w
      by_cases hw : w = v
      · rw [hw, hto.self]
        exact ⟨rfl, rfl⟩
      · rw [hto.other w hw]
        exact ⟨rfl, rfl⟩
    have hsize : ∀ {p : Nat → Prop} [DecidablePred p], s'.sizeOf live p = s.sizeOf live p :=
      Finset.sum_congr rfl fun w _ => by rw [(hto.tree.fields w).2.2]
    refine ⟨?_, ?_, ?_, ?_, ?_, ⟨?_, ?_⟩, ?_, ?_, ?_, ?_⟩
    · rw [hroot, hcounter]
      exact hto.tree.paged h.paged hvalue
    · exact fun w hw => (hflags w).1.trans (h.fullLock w hw)
    · exact fun w hw => (hflags w).2.trans (h.swaLock w hw)
    · intro w hw hbad
      by_cases hwv : w = v
      · rw [hwv, hzero]
      · exact h.tombstone w hw (hto.other w hwv ▸ hbad)
    · have hne : s.rootNode ≠ v := fun heq => h.paged.wf.root_notMem (heq ▸ hv)
      rw [hroot, hto.other _ hne]
      exact h.root
    · have hfull : s'.fullLruList = s.fullLruList := by rw [hto.rest]
      exact hfull ▸ h.lists.full
    · have hswa : s'.swaLruList = l := by rw [← hs']
      refine hswa ▸ hl.congr fun w => ?_
      by_cases hwv : w = v
      · simp [hwv, hto.self, hv]
      · simp [hwv, hto.other w hwv]
    · rw [hsize, ← h.fullEvictable, hto.rest]
    · rw [hsize, ← h.fullProtected, hto.rest]
    · have hadd : s'.swaEvictableSize = s.swaEvictableSize + value.length := by rw [hto.rest]
      rw [hadd, h.swaEvictable, hsize, hvalue, sizeOf, sizeOf, ← Finset.add_sum_erase _ _ hv,
        ← Finset.add_sum_erase live (fun w => if (s'.nodes w).swaTombstone = false ∧ swa w = 0 then
          ((s.tree w).key.len : Int) else 0) hv, hto.self, htomb, hzero]
      have hrest : ∑ w ∈ live.erase v, (if (s'.nodes w).swaTombstone = false ∧ swa w = 0 then
          ((s.tree w).key.len : Int) else 0) = ∑ w ∈ live.erase v,
          if (s.nodes w).swaTombstone = false ∧ swa w = 0 then ((s.tree w).key.len : Int) else 0 :=
        Finset.sum_congr rfl fun w hw => by rw [hto.other w (Finset.ne_of_mem_erase hw)]
      rw [hrest]
      simp only [Bool.true_eq_false, false_and, if_false, true_and, if_true]
      omega
    · rw [hsize, ← h.swaProtected, hto.rest]

structure SwaOnly (s s' : SwaRadixCache σ) (v : Nat) (tombstone : Bool) (lock : Int) : Prop where
  self : s'.nodes v = { s.nodes v with swaTombstone := tombstone, swaLockRef := lock }
  other : ∀ w, w ≠ v → s'.nodes w = s.nodes w
  rest : s' = { s with
    nodes := s'.nodes, swaLruList := s'.swaLruList, calls := s'.calls
    swaEvictableSize := s'.swaEvictableSize, swaProtectedSize := s'.swaProtectedSize }
  frees : s'.frees = s.frees

theorem SwaOnly.tree {tombstone : Bool} {lock : Int} (hs : SwaOnly s s' v tombstone lock) :
    s'.tree = s.tree := by
  funext w
  by_cases hw : w = v
  · simp [SwaRadixCache.tree, hw, hs.self]
  · simp [SwaRadixCache.tree, hs.other w hw]

theorem SwaOnly.retag {tombstone : Bool} {k : Nat} (h : Book c s full swa live) (hv : v ∈ live)
    (hs : SwaOnly s s' v tombstone k) (htomb : tombstone = true → k = 0) :
    RetagAt s s' v (full v) k where
  tree := hs.tree
  rootNode := by rw [hs.rest]
  counter := by rw [hs.rest]
  other w hw := by simp [hs.other w hw]
  full := by rw [hs.self, h.fullLock v hv]
  swa := by rw [hs.self]
  tombstone hbad := htomb (by rwa [hs.self] at hbad)

theorem SwaOnly.book {tombstone : Bool} {k : Nat} (h : Book c s full swa live) (hv : v ∈ live)
    (hs : SwaOnly s s' v tombstone k) (htomb : tombstone = true → k = 0)
    (hlists : s'.Lists (· ∈ live)) (hse : s'.swaEvictableSize = s.swaEvictableSize +
      (if tombstone = false ∧ k = 0 then ((s.tree v).key.len : Int) else 0) -
        if (s.nodes v).swaTombstone = false ∧ swa v = 0 then ((s.tree v).key.len : Int) else 0)
    (hsp : s'.swaProtectedSize = s.swaProtectedSize +
      (if 0 < k then ((s.tree v).key.len : Int) else 0) -
        if 0 < swa v then ((s.tree v).key.len : Int) else 0) :
    Book c s' full (update swa v k) live := by
  have hfe : s'.fullEvictableSize = s.fullEvictableSize := by rw [hs.rest]
  have hfp : s'.fullProtectedSize = s.fullProtectedSize := by rw [hs.rest]
  have hbook := (hs.retag h hv htomb).book h hv hlists (by omega) (by omega)
    (by rw [hse, hs.self]) hsp
  rwa [update_eq_self] at hbook

theorem SwaOnly.lists {l : LruList} {lock : Int} (h : s.Lists (· ∈ live))
    (hs : SwaOnly s s' v true lock) (hlist : s'.swaLruList = l)
    (hl : l.Holds true fun w => w ≠ v ∧ w ∈ live ∧ (s.nodes w).swaTombstone = false) :
    s'.Lists (· ∈ live) := by
  have hfull : s'.fullLruList = s.fullLruList := by rw [hs.rest]
  refine ⟨hfull ▸ h.full, hlist ▸ hl.congr fun w => ?_⟩
  by_cases hwv : w = v
  · simp [hwv, hs.self]
  · simp [hwv, hs.other w hwv]

theorem SwaOnly.lists_false {lock : Int} (h : s.Lists (· ∈ live)) (hs : SwaOnly s s' v false lock)
    (htomb : (s.nodes v).swaTombstone = false) (hlist : s'.swaLruList = s.swaLruList) :
    s'.Lists (· ∈ live) := by
  have hfull : s'.fullLruList = s.fullLruList := by rw [hs.rest]
  refine h.congr hfull hlist (fun _ => Iff.rfl) fun w _ => ?_
  by_cases hwv : w = v
  · rw [hwv, hs.self, htomb]
  · rw [hs.other w hwv]

theorem Book.tombstoneNode (h : Book c s full swa live) (hv : v ∈ live)
    (htomb : (s.nodes v).swaTombstone = false) (hzero : swa v = 0) {size : Nat}
    (hsize : size = (s.tree v).key.len) :
    ∃ s', s.tombstoneNode v size = some s' ∧ SwaOnly s s' v true (swa v) ∧
      Book c s' full swa live ∧ s'.swaLruList.order = s.swaLruList.order.erase v := by
  obtain ⟨l, hremove, hl⟩ := h.lists.swa.removeNode s.nodes ⟨hv, htomb⟩ fun _ => htomb
  have horder : l.order = s.swaLruList.order.erase v := by
    rw [LruList.removeNode] at hremove
    split at hremove
    · rw [← Option.some.inj hremove]
    · cases hremove
  have hrun : s.tombstoneNode v size = some
      { ({ s.freeSwa (s.nodes v).value with swaLruList := l } : SwaRadixCache σ).updateNode v
          (fun n => { n with swaTombstone := true }) with
        swaEvictableSize := s.swaEvictableSize - size } := by
    simp only [SwaRadixCache.tombstoneNode, onSwa, freeSwa, hremove, Option.map_some]
  generalize hs' :
    ({ ({ s.freeSwa (s.nodes v).value with swaLruList := l } : SwaRadixCache σ).updateNode v
    (fun n => { n with swaTombstone := true }) with
    swaEvictableSize := s.swaEvictableSize - size } : SwaRadixCache σ) = s' at hrun
  have hto : SwaOnly s s' v true (swa v) := by
    subst hs'
    refine ⟨?_, ?_, rfl, frees_freeSwa s _⟩
    · rw [← h.swaLock v hv]
      exact update_self _ _ _
    · exact fun w hw => update_of_ne hw _ _
  have hlist : s'.swaLruList = l := by
    subst hs'
    rfl
  refine ⟨s', hrun, hto, ?_, by rw [hlist, horder]⟩
  have hbook := hto.book h hv (fun _ => hzero) (hto.lists h.lists hlist hl) ?_ ?_
  · rwa [update_eq_self] at hbook
  · have hsub : s'.swaEvictableSize = s.swaEvictableSize - size := by rw [← hs']
    rw [hsub, htomb, hzero, hsize]
    simp
  · have hsame : s'.swaProtectedSize = s.swaProtectedSize := by
      rw [← hs']
      rfl
    omega

/-- A window lock is given back; the last one of a leaf makes it a tombstone. -/
theorem Book.releaseSwa (h : Book c s full swa live) (hv : v ∈ live)
    (htomb : (s.nodes v).swaTombstone = false) {k : Nat} (hk : swa v = k + 1) :
    ∃ s' tombstone, s.releaseSwa v = some s' ∧ SwaOnly s s' v tombstone k ∧
      Book c s' full (update swa v k) live := by
  have hlock := h.swaLock v hv
  rw [hk] at hlock
  have hlen : (s.nodes v).value.length = (s.tree v).key.len := h.paged.values v hv
  have hdec : (s.nodes v).swaLockRef - 1 = (k : Int) := by omega
  by_cases hlast : k = 0
  · have hone : (s.nodes v).swaLockRef = 1 := by omega
    by_cases hleaf : (s.nodes v).children = []
    · obtain ⟨l, hremove, hl⟩ := h.lists.swa.removeNode s.nodes ⟨hv, htomb⟩ fun _ => htomb
      obtain ⟨s', hrun⟩ : ∃ s', s.releaseSwa v = some s' := by
        simp [SwaRadixCache.releaseSwa, hone, hleaf, onSwa, freeSwa, hremove]
      refine ⟨s', true, hrun, ?_⟩
      simp only [SwaRadixCache.releaseSwa, hone, if_true, hleaf, onSwa, freeSwa, hremove,
        Option.map_some] at hrun
      have heq := Option.some.inj hrun
      have hto : SwaOnly s s' v true k := by
        rw [← heq]
        refine ⟨?_, ?_, rfl, ?_⟩
        · simp [updateNode, hdec]
        · intro w hw
          simp [updateNode, update_of_ne hw]
        · simp [SwaRadixCache.frees, updateNode]
      refine ⟨hto, hto.book h hv (fun _ => hlast) (hto.lists h.lists (by rw [← heq]; rfl) hl) ?_ ?_⟩
      · simp [← heq, updateNode, hk]
      · simp [← heq, updateNode, hlen, hk, hlast]
    · obtain ⟨s', hrun⟩ : ∃ s', s.releaseSwa v = some s' := by
        simp [SwaRadixCache.releaseSwa, hone, hleaf]
      refine ⟨s', false, hrun, ?_⟩
      simp only [SwaRadixCache.releaseSwa, hone, if_true, hleaf, if_false] at hrun
      have heq := Option.some.inj hrun
      have hto : SwaOnly s s' v false k := by
        rw [← heq]
        refine ⟨?_, ?_, rfl, rfl⟩
        · simp [updateNode, hdec, htomb]
        · intro w hw
          simp [updateNode, update_of_ne hw]
      refine ⟨hto, hto.book h hv Bool.noConfusion
        (hto.lists_false h.lists htomb (by rw [← heq]; rfl)) ?_ ?_⟩
      · simp [← heq, updateNode, hlen, hk, hlast]
      · simp [← heq, updateNode, hlen, hk, hlast]
  · have hne : (s.nodes v).swaLockRef ≠ 1 := by omega
    obtain ⟨s', hrun⟩ : ∃ s', s.releaseSwa v = some s' := by
      simp [SwaRadixCache.releaseSwa, hne]
    refine ⟨s', false, hrun, ?_⟩
    simp only [SwaRadixCache.releaseSwa, hne, if_false] at hrun
    have heq := Option.some.inj hrun
    have hto : SwaOnly s s' v false k := by
      rw [← heq]
      refine ⟨?_, ?_, rfl, rfl⟩
      · simp [updateNode, hdec, htomb]
      · intro w hw
        simp [updateNode, update_of_ne hw]
    refine ⟨hto, hto.book h hv Bool.noConfusion
      (hto.lists_false h.lists htomb (by rw [← heq]; rfl)) ?_ ?_⟩
    · simp [← heq, updateNode, hk, hlast]
    · simp [← heq, updateNode, hk, Nat.pos_of_ne_zero hlast]

end Tombstones

section DeleteLeaf

variable {x u : Nat}

def dropLeaf (c : SwaCacheParams) (x : Nat) (s : SwaRadixCache σ) : Option (SwaRadixCache σ) :=
  ((s.free (s.nodes x).value).onLists (s.nodes x).swaTombstone
    fun nodes l => l.removeNode nodes x).bind (deleteLeaf c x)

structure DropTo (c : SwaCacheParams) (s s' : SwaRadixCache σ) (u x : Nat) : Prop where
  tree : PageTree.RemovedAt c.pageSize s.tree s'.tree u x
  flags : ∀ v, (s'.nodes v).swaTombstone = (s.nodes v).swaTombstone ∧
    (s'.nodes v).fullLockRef = (s.nodes v).fullLockRef ∧
    (s'.nodes v).swaLockRef = (s.nodes v).swaLockRef ∧ (s'.nodes v).swaUuid = (s.nodes v).swaUuid
  rest : s' = { s with
    nodes := s'.nodes
    fullEvictableSize := s.fullEvictableSize - (s.tree x).key.len
    swaEvictableSize := s.swaEvictableSize -
      if (s.nodes x).swaTombstone then 0 else ((s.tree x).key.len : Int)
    fullLruList := s'.fullLruList, swaLruList := s'.swaLruList, calls := s'.calls }
  frees : s'.frees = s.frees ++ [(s.nodes x).value]

theorem DropTo.book (h : Book c s full swa live) (hx : x ∈ live) (hleaf : (s.tree x).children = [])
    (hfull : full x = 0) (hswa : swa x = 0) (hs : DropTo c s s' u x)
    (hu : u = s.rootNode ∨ u ∈ live)
    (hedge : (s.tree u).children.lookup ((s.tree x).key.childKey c.pageSize) = some x)
    (hlists : s'.Lists (· ∈ live.erase x)) : Book c s' full swa (live.erase x) := by
  have hroot : s'.rootNode = s.rootNode := by rw [hs.rest]
  have hcounter : s'.counter = s.counter := by rw [hs.rest]
  have hsize : ∀ {p p' : Nat → Prop} [DecidablePred p] [DecidablePred p'],
      (∀ v ∈ live, p' v ↔ p v) → s'.sizeOf (live.erase x) p' =
        s.sizeOf live p - if p x then ((s.tree x).key.len : Int) else 0 := fun hold => by
    have hsum := hs.tree.sum_eq hx hold
    rw [sizeOf, sizeOf, hsum]
    omega
  have hmem : ∀ {v : Nat}, v ∈ live.erase x → v ∈ live := Finset.mem_of_mem_erase
  refine ⟨?_, fun v hv => ?_, fun v hv => ?_, fun v hv => ?_, ?_, hlists, ?_, ?_, ?_, ?_⟩
  · rw [hroot, hcounter]
    exact hs.tree.paged h.paged hleaf hu hedge
  · rw [(hs.flags v).2.1, h.fullLock v (hmem hv)]
  · rw [(hs.flags v).2.2.1, h.swaLock v (hmem hv)]
  · rw [(hs.flags v).1]
    exact h.tombstone v (hmem hv)
  · obtain ⟨htomb, hfullRef, hswaRef, _⟩ := hs.flags s.rootNode
    rw [hroot, htomb, hfullRef, hswaRef]
    exact h.root
  · rw [hsize (p := fun v => full v = 0) fun v _ => Iff.rfl, ← h.fullEvictable,
      if_pos hfull, hs.rest]
  · rw [hsize (p := fun v => 0 < full v) fun v _ => Iff.rfl, ← h.fullProtected,
      if_neg (by rw [hfull]; exact lt_irrefl 0), sub_zero, hs.rest]
  · have hsub : s'.swaEvictableSize = s.swaEvictableSize -
        if (s.nodes x).swaTombstone then 0 else ((s.tree x).key.len : Int) := by rw [hs.rest]
    rw [hsize (p := fun v => (s.nodes v).swaTombstone = false ∧ swa v = 0)
      (fun v _ => by rw [(hs.flags v).1]), ← h.swaEvictable, hsub, hswa]
    cases (s.nodes x).swaTombstone <;> simp
  · rw [hsize (p := fun v => 0 < swa v) fun v _ => Iff.rfl, ← h.swaProtected,
      if_neg (by rw [hswa]; exact lt_irrefl 0), sub_zero, hs.rest]

theorem Book.dropLeaf (h : Book c s full swa live) (hx : x ∈ live)
    (hleaf : (s.tree x).children = []) (hfull : full x = 0) (hswa : swa x = 0) :
    ∃ u s', s.dropLeaf c x = some s' ∧ (u = s.rootNode ∨ u ∈ live) ∧
      (s.nodes x).parent = some u ∧
      (s.tree u).children.lookup ((s.tree x).key.childKey c.pageSize) = some x ∧
      DropTo c s s' u x ∧ Book c s' full swa (live.erase x) := by
  obtain ⟨u, hu, hparent, hux, hedge⟩ := h.paged.parent_lookup c.pageSize_pos hx
  obtain ⟨l, l', hremove, hl⟩ := (h.free (s.nodes x).value).lists.remove hx
  generalize hs₁ : ({ s.free (s.nodes x).value with
    fullLruList := l, swaLruList := l' } : SwaRadixCache σ) = s₁ at hremove hl
  have hnodes : s₁.nodes = s.nodes := by
    subst hs₁
    rfl
  have hparent' : (s.nodes x).parent = some u := hparent
  have hleaf' : (s.nodes x).children = [] := hleaf
  have hedge' : (s.nodes u).children.lookup ((s.nodes x).key.childKey c.pageSize) = some x := hedge
  have hpop : s₁.popLeaf c x = some { s₁.updateNode u (fun p =>
      { p with children := popChild ((s.nodes x).key.childKey c.pageSize) p.children }) with
      fullEvictableSize := s₁.fullEvictableSize - (s.nodes x).key.len } := by
    simp [popLeaf, hnodes, hparent', hleaf', hedge']
  have hrun : s.dropLeaf c x = (s₁.popLeaf c x).map fun s' => { s' with
      swaEvictableSize := s'.swaEvictableSize -
        if (s.nodes x).swaTombstone then 0 else ((s.nodes x).key.len : Int) } := by
    have hremove' : (s.free (s.nodes x).value).onLists (s.nodes x).swaTombstone
        (fun nodes l => l.removeNode nodes x) = some s₁ := hremove
    rw [SwaRadixCache.dropLeaf, hremove', Option.bind_some, SwaRadixCache.deleteLeaf, hnodes]
  rw [hpop, Option.map_some] at hrun
  cases hrun' : s.dropLeaf c x with
  | none =>
      rw [hrun'] at hrun
      cases hrun
  | some s' =>
      have heq := Option.some.inj (hrun'.symm.trans hrun)
      have hself : s'.nodes u = { s.nodes u with
          children := popChild ((s.nodes x).key.childKey c.pageSize) (s.nodes u).children } := by
        rw [heq, ← hnodes]
        exact update_self _ _ _
      have hother : ∀ v, v ≠ u → s'.nodes v = s.nodes v := fun v hv => by
        rw [heq, ← hnodes]
        exact update_of_ne hv _ _
      have hto : DropTo c s s' u x := by
        refine ⟨⟨?_, ?_⟩, ?_, ?_, ?_⟩
        · simp [tree, hself]
        · intro v hv
          simp [tree, hother v hv]
        · intro v
          by_cases hv : v = u
          · rw [hv, hself]
            exact ⟨rfl, rfl, rfl, rfl⟩
          · rw [hother v hv]
            exact ⟨rfl, rfl, rfl, rfl⟩
        · rw [heq, ← hs₁]
          rfl
        · rw [heq, ← hs₁]
          exact frees_free s _
      refine ⟨u, s', rfl, hu, hparent, hedge, hto, hto.book h hx hleaf hfull hswa hu hedge ?_⟩
      refine hl.congr (by rw [heq]; rfl) (by rw [heq]; rfl) (fun v => ?_) fun v _ => ?_
      · rw [Finset.mem_erase]
      · rw [hnodes, (hto.flags v).1]

end DeleteLeaf

end SwaRadixCache

end SpecDecode.MemCache
