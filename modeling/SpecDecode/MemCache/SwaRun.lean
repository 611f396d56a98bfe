import SpecDecode.MemCache.SwaInsert

/-!
# Runs of the SWA radix cache

A session is a cache with the locks that are held on it and the nodes that searches returned.
`Steps` is any sequence of calls. No call of a session fails, and the books are exact in all
of its states.
-/

namespace SpecDecode.MemCache

open RadixTree

variable {σ : Type}

namespace SwaRadixCache

/-- A cache, the locks that requests hold and the nodes that `match_prefix` returned since the
last eviction or early release. -/
structure Session (σ : Type) where
  cache : SwaRadixCache σ
  locks : List Lock
  handles : List Nat

/-- A call of the cache. A lock that is given back is named with the locks that stay. -/
inductive Call (σ : Type) where
  | matchPrefix (key : RadixKey)
  | insert (key : RadixKey) (value : List σ) (prevPrefixLen swaEvictedSeqlen : Nat)
  | incLockRef (node : Nat)
  | decSwaLockOnly (lock : Lock) (rest : List Lock)
  | decLockRef (lock : Lock) (rest : List Lock)
  | evict (numTokens swaNumTokens : Nat)

namespace Call

/-- What the callers see to: a slot for each unit of an inserted key, eviction by whole pages,
locks on returned nodes, and one `dec_lock_ref` for each lock behind at most one
`dec_swa_lock_only`. -/
def Fits (c : SwaCacheParams) (x : Session σ) : Call σ → Prop
  | matchPrefix _ => True
  | insert key value _ swaEvictedSeqlen =>
      (alignedKey c key).len ≤ value.length ∧ c.pageSize ∣ swaEvictedSeqlen
  | incLockRef node => node = x.cache.rootNode ∨ node ∈ x.handles
  | decSwaLockOnly lock rest => x.locks.Perm (lock :: rest) ∧ lock.swaHeld = true
  | decLockRef lock rest => x.locks.Perm (lock :: rest)
  | evict _ _ => True

/-- The session behind a call; `skip_swa` is set when the window part is no longer held. -/
def exec (c : SwaCacheParams) (x : Session σ) : Call σ → Option (Session σ)
  | matchPrefix key =>
      (x.cache.matchPrefix c key).map fun r => ⟨r.2, x.locks, r.1.lastDeviceNode :: x.handles⟩
  | insert key value prevPrefixLen swaEvictedSeqlen =>
      (x.cache.insert c key value prevPrefixLen swaEvictedSeqlen).map fun r =>
      ⟨r.2, x.locks, x.handles⟩
  | incLockRef node =>
      (x.cache.incLockRef c node).map fun r =>
        ⟨r.2, lockOf c x.cache r.2 node r.1 :: x.locks, x.handles⟩
  | decSwaLockOnly lock rest =>
      (x.cache.decSwaLockOnly c lock.node lock.uuid).map fun s =>
        ⟨s, { lock with swaHeld := false } :: rest, []⟩
  | decLockRef lock rest =>
      (x.cache.decLockRef c lock.node lock.uuid (!lock.swaHeld)).map fun s => ⟨s, rest, x.handles⟩
  | evict numTokens swaNumTokens =>
      (x.cache.evict c numTokens swaNumTokens).map fun e => ⟨e.cache, x.locks, []⟩

/-- A search or an insertion. -/
def IsLookup : Call σ → Prop
  | matchPrefix _ => True
  | insert _ _ _ _ => True
  | _ => False

end Call

/-- The sessions that calls with `p` lead to. -/
inductive Steps (c : SwaCacheParams) (p : Call σ → Prop) (x : Session σ) : Session σ → Prop where
  | refl : Steps c p x x
  | call {y z : Session σ} (k : Call σ) (h : Steps c p x y) (hp : p k) (hfits : k.Fits c y)
      (hexec : k.exec c y = some z) : Steps c p x z

/-- The sessions of a cache that was empty at first. -/
def Reached (c : SwaCacheParams) (x : Session σ) : Prop :=
  Steps c (fun _ => True) ⟨new, [], []⟩ x

theorem Steps.mono {c : SwaCacheParams} {p q : Call σ → Prop} {x y : Session σ} (h : Steps c p x y)
    (hpq : ∀ k, p k → q k) : Steps c q x y := by
  induction h with
  | refl => exact .refl
  | call k _ hp hfits hexec ih => exact ih.call k (hpq k hp) hfits hexec

theorem Steps.trans {c : SwaCacheParams} {p : Call σ → Prop} {x y z : Session σ} (h : Steps c p x y)
    (h' : Steps c p y z) : Steps c p x z := by
  induction h' with
  | refl => exact h
  | call k _ hp hfits hexec ih => exact ih.call k hp hfits hexec

variable {c : SwaCacheParams} {s s' : SwaRadixCache σ} {live live' : Finset Nat} {x y : Session σ}
variable {locks : List Lock} {handles : List Nat} {k : Call σ}

section Invariant

structure SessionInv (c : SwaCacheParams) (x : Session σ) (live : Finset Nat) : Prop where
  inv : Inv c x.cache x.locks x.handles live
  off : c.disable = true → live = ∅

theorem SessionInv.new (c : SwaCacheParams) : SessionInv c (⟨new, [], []⟩ : Session σ) ∅ := by
  refine ⟨⟨⟨⟨⟨?_, ?_, ?_, ?_, ?_⟩, ?_, ?_, ?_⟩, ?_, ?_, ?_, ?_, ⟨⟨?_, ?_, ?_⟩, ⟨?_, ?_, ?_⟩⟩, rfl,
    rfl, rfl, rfl⟩, ?_, ?_, ⟨?_, ?_⟩, ?_⟩, fun _ => rfl⟩
  all_goals simp [SwaRadixCache.new, tree, PageTree.view]

theorem SessionInv.node_eq (h : SessionInv c x live) {v : Nat}
    (hv : v = x.cache.rootNode ∨ v ∈ live) (hdis : c.disable = true) : v = x.cache.rootNode := by
  refine hv.resolve_right fun hmem => ?_
  rw [h.off hdis] at hmem
  exact Finset.notMem_empty v hmem

theorem Inv.handles_sub {handles' : List Nat} (h : Inv c s locks handles live)
    (hsub : handles' ⊆ handles) : Inv c s locks handles' live :=
  ⟨h.book, h.node, h.window, h.uuids, fun v hv => h.usable v (hsub hv)⟩

theorem SessionInv.exec (h : SessionInv c x live) (hfits : k.Fits c x) :
    ∃ y live', k.exec c x = some y ∧ SessionInv c y live' := by
  cases k with
  | matchPrefix key =>
      by_cases hdis : c.disable = true
      · have hrun : x.cache.matchPrefix c key = some (⟨[], x.cache.rootNode⟩, x.cache) := by
          simp [SwaRadixCache.matchPrefix, hdis]
        exact ⟨_, live, by rw [Call.exec, hrun]; rfl, h.inv.root, h.off⟩
      · obtain ⟨r, s', bs, m, live', hrun, hfound⟩ := h.inv.matchPrefix h.off key
        exact ⟨_, live', by rw [Call.exec, hrun]; rfl, hfound.inv, fun hbad => absurd hbad hdis⟩
  | insert key value prev evicted =>
      by_cases hdis : c.disable = true
      · have hrun : x.cache.insert c key value prev evicted = some (0, x.cache) := by
          simp [SwaRadixCache.insert, hdis]
        exact ⟨_, live, by rw [Call.exec, hrun]; rfl, h.inv, h.off⟩
      · obtain ⟨r, s', live', hrun, hins⟩ := h.inv.insert prev (Bool.not_eq_true _ ▸ hdis) hfits.1
          hfits.2
        exact ⟨_, live', by rw [Call.exec, hrun]; rfl, hins.inv, fun hbad => absurd hbad hdis⟩
  | incLockRef node =>
      have hroot := h.inv.root
      have hmem : node ∈ x.cache.rootNode :: x.handles := List.mem_cons.mpr hfits
      obtain ⟨uuid, s', hrun, _, _, hinv⟩ := hroot.inc (h.node_eq (hroot.usable node hmem).1) hmem
      exact ⟨_, live, by rw [Call.exec, hrun]; rfl,
        hinv.handles_sub (List.subset_cons_self _ _), h.off⟩
  | decSwaLockOnly lock rest =>
      have hperm := h.inv.perm hfits.1.symm
      have hnode := hperm.node lock List.mem_cons_self
      obtain ⟨s', hrun, _, hinv⟩ := hperm.decSwa (h.node_eq hnode) hfits.2
      exact ⟨_, live, by rw [Call.exec, hrun]; rfl, hinv, h.off⟩
  | decLockRef lock rest =>
      have hperm := h.inv.perm hfits.symm
      have hnode := hperm.node lock List.mem_cons_self
      obtain ⟨s', hrun, _, _, hinv⟩ := hperm.dec (h.node_eq hnode)
      exact ⟨_, live, by rw [Call.exec, hrun]; rfl, hinv, h.off⟩
  | evict n m =>
      by_cases hdis : c.disable = true
      · have hrun : x.cache.evict c n m = some ⟨0, 0, x.cache⟩ := by
          simp [SwaRadixCache.evict, hdis]
        exact ⟨_, live, by rw [Call.exec, hrun]; rfl, h.inv.forget, h.off⟩
      · obtain ⟨e, _, _, live', hrun, hend⟩ := h.inv.evict (Bool.not_eq_true _ ▸ hdis) n m
        exact ⟨_, live', by rw [Call.exec, hrun]; rfl, hend.inv, fun hbad => absurd hbad hdis⟩

theorem SessionInv.steps {p : Call σ → Prop} (h : SessionInv c x live) (hsteps : Steps c p x y) :
    ∃ live', SessionInv c y live' := by
  induction hsteps with
  | refl => exact ⟨live, h⟩
  | call k _ _ hfits hexec ih =>
      obtain ⟨live₁, h₁⟩ := ih
      obtain ⟨z, live₂, hrun, h₂⟩ := h₁.exec hfits
      obtain rfl := Option.some.inj (hrun.symm.trans hexec)
      exact ⟨live₂, h₂⟩

theorem Reached.inv (h : Reached c x) : ∃ live, SessionInv c x live := (SessionInv.new c).steps h

end Invariant

section Exact

/-- The node is reached from the root. -/
def InTree (s : SwaRadixCache σ) (v : Nat) : Prop :=
  Relation.ReflTransGen (fun u w => ∃ a, (s.nodes u).children.lookup a = some w) s.rootNode v

/-- The books of a cache whose nodes besides the root are `live`. -/
structure Exact (s : SwaRadixCache σ) (live : Finset Nat) : Prop where
  inTree : ∀ v, v ∈ live ↔ v ≠ s.rootNode ∧ s.InTree v
  lockRef : ∀ v, s.InTree v → 0 ≤ (s.nodes v).swaLockRef ∧
    (s.nodes v).swaLockRef ≤ (s.nodes v).fullLockRef
  tombstone : ∀ v, s.InTree v → (s.nodes v).swaTombstone = true → (s.nodes v).swaLockRef = 0
  fullLru : s.fullLruList.order.Nodup ∧ ∀ v, v ∈ s.fullLruList.order ↔ v ∈ live
  swaLru : s.swaLruList.order.Nodup ∧
    ∀ v, v ∈ s.swaLruList.order ↔ v ∈ live ∧ (s.nodes v).swaTombstone = false
  fullEvictable : s.fullEvictableSize =
    ∑ v ∈ live, if (s.nodes v).fullLockRef = 0 then ((s.nodes v).value.length : Int) else 0
  fullProtected : s.fullProtectedSize =
    ∑ v ∈ live, if 0 < (s.nodes v).fullLockRef then ((s.nodes v).value.length : Int) else 0
  swaEvictable : s.swaEvictableSize =
    ∑ v ∈ live, if (s.nodes v).swaTombstone = false ∧ (s.nodes v).swaLockRef = 0 then
      ((s.nodes v).value.length : Int) else 0
  swaProtected : s.swaProtectedSize =
    ∑ v ∈ live, if 0 < (s.nodes v).swaLockRef then ((s.nodes v).value.length : Int) else 0

theorem Inv.inTree_iff (h : Inv c s locks handles live) {v : Nat} :
    s.InTree v ↔ v = s.rootNode ∨ v ∈ live :=
  h.book.wf.below_root_iff

theorem Inv.exact (h : Inv c s locks handles live) : Exact s live := by
  have hlen : ∀ v ∈ live, ((s.tree v).key.len : Int) = ((s.nodes v).value.length : Int) :=
    fun v hv =>
    congrArg Int.ofNat (h.book.paged.values v hv).symm
  obtain ⟨hrootTomb, hrootFull, hrootSwa⟩ := h.book.root
  refine ⟨fun v => ?_, fun v hv => ?_, fun v hv htomb => ?_,
    ⟨h.book.lists.full.nodup, h.book.lists.full.mem⟩,
    ⟨h.book.lists.swa.nodup, h.book.lists.swa.mem⟩, ?_, ?_, ?_, ?_⟩
  · rw [h.inTree_iff]
    refine ⟨fun hv => ⟨fun heq => h.book.wf.root_notMem (heq ▸ hv), .inr hv⟩, fun hv =>
      hv.2.resolve_left hv.1⟩
  · rcases h.inTree_iff.mp hv with rfl | hv
    · rw [hrootFull, hrootSwa]
      decide
    · rw [h.book.fullLock v hv, h.book.swaLock v hv]
      exact ⟨Int.natCast_nonneg _, Int.ofNat_le.mpr (h.swaCount_le hv)⟩
  · rcases h.inTree_iff.mp hv with rfl | hv
    · rw [hrootTomb] at htomb
      cases htomb
    · rw [h.book.swaLock v hv, h.book.tombstone v hv htomb]
      rfl
  · refine h.book.fullEvictable.trans (Finset.sum_congr rfl fun v hv => ?_)
    rw [hlen v hv, h.book.fullLock v hv]
    simp
  · refine h.book.fullProtected.trans (Finset.sum_congr rfl fun v hv => ?_)
    rw [hlen v hv, h.book.fullLock v hv]
    simp
  · refine h.book.swaEvictable.trans (Finset.sum_congr rfl fun v hv => ?_)
    rw [hlen v hv, h.book.swaLock v hv]
    simp
  · refine h.book.swaProtected.trans (Finset.sum_congr rfl fun v hv => ?_)
    rw [hlen v hv, h.book.swaLock v hv]
    simp

/-- The window counts change by `d` on the nodes of a lock and stay on the others. The nodes are
told by the words that end in them, so a node that was split counts part by part. -/
def ShiftsWindow (c : SwaCacheParams) (s s' : SwaRadixCache σ) (lock : Lock) (d : Int) : Prop :=
  ∀ p v i, Reads (view c s) s.rootNode p v i →
    (p ∈ lock.covered → (s'.nodes v).swaLockRef = (s.nodes v).swaLockRef + d) ∧
      (p ∉ lock.covered → (s'.nodes v).swaLockRef = (s.nodes v).swaLockRef)

variable {lock : Lock}

theorem Inv.shiftsWindow {locks' : List Lock} {handles' : List Nat}
    (h : Inv c s (lock :: locks) handles live) (hheld : lock.swaHeld = true)
    (h' : Inv c s' locks' handles' live) (hk : KeepsTree s s')
    (hcount : ∀ v, swaCount c s locks' v = swaCount c s locks v) :
    ShiftsWindow c s s' lock (-1) := by
  classical
  intro p v i hr
  have hv := (h.book.wf.reads_live hr (.inl rfl)).1
  obtain ⟨path, start, hw⟩ := h.window lock List.mem_cons_self hheld
  rw [hw.mem_covered_iff h.book.wf hv hr, h.book.swaLock v hv, h'.book.swaLock v hv, hk.swaCount_eq,
    hcount, swaCount_cons]
  constructor
  · intro hcovers
    rw [if_pos ⟨hheld, hcovers⟩]
    omega
  · intro hcovers
    rw [if_neg fun hbad => hcovers hbad.2, Nat.add_zero]

theorem Inv.shiftsWindow_inc (h : Inv c s locks handles live)
    (h' : Inv c s' (lock :: locks) handles live)
    (hheld : lock.swaHeld = true) (hk : KeepsTree s s') : ShiftsWindow c s s' lock 1 := by
  classical
  intro p v i hr
  have hv := (h.book.wf.reads_live hr (.inl rfl)).1
  obtain ⟨path, start, hw⟩ := h'.window lock List.mem_cons_self hheld
  have hr' : Reads (view c s') s'.rootNode p v i := by rwa [hk.view_eq, hk.rootNode]
  rw [hw.mem_covered_iff h'.book.wf hv hr', h.book.swaLock v hv, h'.book.swaLock v hv,
    swaCount_cons, hk.swaCount_eq]
  constructor
  · intro hcovers
    rw [if_pos ⟨hheld, hcovers⟩]
    omega
  · intro hcovers
    rw [if_neg fun hbad => hcovers hbad.2, Nat.add_zero]

/-- In every session no fitting call fails, the books are exact, and a lock gives back its window
on the nodes where it took it. -/
theorem Reached.books_exact (h : Reached c x) :
    (∀ k : Call σ, k.Fits c x → ∃ y, k.exec c x = some y) ∧
    (∃ live, Exact x.cache live) ∧
    (∀ node, (Call.incLockRef node : Call σ).Fits c x → ∀ uuid s',
      x.cache.incLockRef c node = some (uuid, s') →
        ShiftsWindow c x.cache s' (lockOf c x.cache s' node uuid) 1) ∧
    (∀ lock rest, x.locks.Perm (lock :: rest) → ∀ s',
      x.cache.decLockRef c lock.node lock.uuid (!lock.swaHeld) = some s' →
        if lock.swaHeld then ShiftsWindow c x.cache s' lock (-1)
        else ∀ v, x.cache.InTree v → (s'.nodes v).swaLockRef = (x.cache.nodes v).swaLockRef) ∧
    (∀ lock rest, x.locks.Perm (lock :: rest) → lock.swaHeld = true → ∀ s',
      x.cache.decSwaLockOnly c lock.node lock.uuid = some s' →
        ShiftsWindow c x.cache s' lock (-1)) := by
  obtain ⟨live, hx⟩ := h.inv
  refine ⟨fun k hfits => ?_, ⟨live, hx.inv.exact⟩, ?_, ?_, ?_⟩
  · obtain ⟨y, _, hrun, _⟩ := hx.exec hfits
    exact ⟨y, hrun⟩
  · intro node hfits uuid s' hrun
    have hroot := hx.inv.root
    have hmem : node ∈ x.cache.rootNode :: x.handles := List.mem_cons.mpr hfits
    obtain ⟨uuid', s'', hrun', hk, _, hinv⟩ :=
      hroot.inc (hx.node_eq (hroot.usable node hmem).1) hmem
    obtain ⟨rfl, rfl⟩ := Prod.mk.inj (Option.some.inj (hrun'.symm.trans hrun))
    exact hroot.shiftsWindow_inc hinv rfl hk
  · intro lock rest hperm s' hrun
    have hinv := hx.inv.perm hperm.symm
    have hnode := hinv.node lock List.mem_cons_self
    obtain ⟨s'', hrun', hk, _, hinv'⟩ := hinv.dec (hx.node_eq hnode)
    obtain rfl := Option.some.inj (hrun'.symm.trans hrun)
    split
    · next hheld => exact hinv.shiftsWindow hheld hinv' hk fun _ => rfl
    · next hheld =>
        intro v hv
        rcases hinv.inTree_iff.mp hv with rfl | hv
        · have hroot := hinv'.book.root.2.2
          rw [hk.rootNode] at hroot
          rw [hroot, hinv.book.root.2.2]
        · rw [hinv.book.swaLock v hv, hinv'.book.swaLock v hv, hk.swaCount_eq, swaCount_cons,
            if_neg fun hbad => hheld hbad.1, Nat.add_zero]
  · intro lock rest hperm hheld s' hrun
    have hinv := hx.inv.perm hperm.symm
    have hnode := hinv.node lock List.mem_cons_self
    obtain ⟨s'', hrun', hk, hinv'⟩ := hinv.decSwa (hx.node_eq hnode) hheld
    obtain rfl := Option.some.inj (hrun'.symm.trans hrun)
    refine hinv.shiftsWindow hheld hinv' hk fun v => ?_
    rw [swaCount_cons, if_neg fun hbad => Bool.false_ne_true hbad.1, Nat.add_zero]

def window2 : SwaCacheParams := ⟨false, 1, false, 2, false, by decide, by decide⟩

/-- A request of five tokens, whose node another search has split; the lock of a third one covers
the lower half for its window. -/
def lockedRequest : Session Nat :=
  [.insert ⟨[1, 2, 3, 4, 5], none, false⟩ [11, 12, 13, 14, 15] 0 0,
    .matchPrefix ⟨[1, 2, 3, 6], none, false⟩, .matchPrefix ⟨[1, 2, 3, 4, 5], none, false⟩,
    .incLockRef 1].foldl (fun x k => (Call.exec window2 x k).getD x) ⟨new, [], []⟩

theorem reached_lockedRequest : Reached window2 lockedRequest :=
  (((Steps.refl.call (.insert ⟨[1, 2, 3, 4, 5], none, false⟩ [11, 12, 13, 14, 15] 0 0) trivial
    (show (alignedKey window2 ⟨[1, 2, 3, 4, 5], none, false⟩).len ≤ 5 ∧ 1 ∣ 0 by decide) rfl).call
    (.matchPrefix ⟨[1, 2, 3, 6], none, false⟩) trivial trivial rfl).call
    (.matchPrefix ⟨[1, 2, 3, 4, 5], none, false⟩) trivial trivial rfl).call
    (.incLockRef 1) trivial (.inr List.mem_cons_self) rfl

/-- An eviction has taken the window slots of the upper half. -/
def tombstoneRequest : Session Nat :=
  ((Call.evict 0 1).exec window2 lockedRequest).getD lockedRequest

theorem reached_tombstoneRequest : Reached window2 tombstoneRequest :=
  reached_lockedRequest.call (.evict 0 1) trivial trivial rfl

theorem books_exact_tombstone :
    (tombstoneRequest.cache.nodes 2).swaTombstone = true ∧
      tombstoneRequest.cache.fullProtectedSize = 5 ∧ tombstoneRequest.cache.swaProtectedSize = 2 ∧
      ∃ live, Exact tombstoneRequest.cache live :=
  ⟨rfl, rfl, rfl, reached_tombstoneRequest.books_exact.2.1⟩

end Exact

section Search

/-- What a search returned can be locked until something is evicted or released. -/
theorem Steps.mem_handles {v : Nat} (h : Steps c Call.IsLookup x y) (hv : v ∈ x.handles) :
    v ∈ y.handles := by
  induction h with
  | refl => exact hv
  | call k _ hlookup _ hexec ih =>
      cases k with
      | matchPrefix key =>
          obtain ⟨r, _, rfl⟩ := Option.map_eq_some_iff.mp hexec
          exact List.mem_cons_of_mem _ ih
      | insert key value prev evicted =>
          obtain ⟨r, _, rfl⟩ := Option.map_eq_some_iff.mp hexec
          exact ih
      | incLockRef => exact hlookup.elim
      | decSwaLockOnly => exact hlookup.elim
      | decLockRef => exact hlookup.elim
      | evict => exact hlookup.elim

/-- In every session a search returns the values of the longest usable prefix, and its node can be
locked behind any searches and insertions. -/
theorem Reached.matchPrefix_longest_usable (h : Reached c x) (key : RadixKey) :
    ∃ r s' bs m, x.cache.matchPrefix c key = some (r, s') ∧
      Longest (view c x.cache) x.cache.rootNode [] (wordOf c key) bs ∧ m ≤ bs.length ∧
      r.deviceIndices = (bs.take m).flatten ∧
      EndsAt c x.cache (wordOf c key) bs.length m ∧ UsablePrefix c x.cache (wordOf c key) m ∧
      (∀ j ≤ bs.length, EndsAt c x.cache (wordOf c key) bs.length j →
        UsablePrefix c x.cache (wordOf c key) j → j ≤ m) ∧
      ∀ y, Steps c Call.IsLookup ⟨s', x.locks, r.lastDeviceNode :: x.handles⟩ y →
        ∃ uuid s'', y.cache.incLockRef c r.lastDeviceNode = some (uuid, s'') := by
  obtain ⟨live, hx⟩ := h.inv
  obtain ⟨r, s', bs, m, live', hrun, hfound⟩ := hx.inv.matchPrefix hx.off key
  refine ⟨r, s', bs, m, hrun, hfound.longest, hfound.le, hfound.values, hfound.ends, hfound.usable,
    hfound.best, fun y hsteps => ?_⟩
  have hsearch : (Call.matchPrefix key).exec c x =
      some ⟨s', x.locks, r.lastDeviceNode :: x.handles⟩ := by
    rw [Call.exec, hrun, Option.map_some]
  have hy : Reached c y := (h.call (.matchPrefix key) trivial trivial hsearch).trans
    (hsteps.mono fun _ _ => trivial)
  obtain ⟨_, hinv⟩ := hy.inv
  obtain ⟨z, _, hinc, _⟩ := hinv.exec (k := .incLockRef r.lastDeviceNode)
    (.inr (hsteps.mem_handles List.mem_cons_self))
  obtain ⟨⟨uuid, s''⟩, hinc, _⟩ := Option.map_eq_some_iff.mp hinc
  exact ⟨uuid, s'', hinc⟩

theorem matchPrefix_tombstone :
    ∃ r s' bs m, tombstoneRequest.cache.matchPrefix window2 ⟨[1, 2, 3, 4, 5], none, false⟩ =
        some (r, s') ∧
      Longest (view window2 tombstoneRequest.cache) tombstoneRequest.cache.rootNode []
        (wordOf window2 ⟨[1, 2, 3, 4, 5], none, false⟩) bs ∧
      r.deviceIndices = (bs.take m).flatten ∧ r.deviceIndices = [11, 12, 13, 14, 15] := by
  obtain ⟨r, s', bs, m, hrun, hlongest, _, hvalues, _⟩ :=
    reached_tombstoneRequest.matchPrefix_longest_usable ⟨[1, 2, 3, 4, 5], none, false⟩
  have hslots : (tombstoneRequest.cache.matchPrefix window2 ⟨[1, 2, 3, 4, 5], none, false⟩).map
      (fun r => r.1.deviceIndices) = some [11, 12, 13, 14, 15] := rfl
  rw [hrun] at hslots
  exact ⟨r, s', bs, m, hrun, hlongest, hvalues, Option.some.inj hslots⟩

end Search

end SwaRadixCache

end SpecDecode.MemCache
