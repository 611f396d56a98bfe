import SpecDecode.Lib.PrefixMap
import SpecDecode.MemCache.RadixCalls
import Mathlib.Data.Finset.Max
import Mathlib.Data.Prod.Lex

/-!
# Runs of the radix cache

Eviction removes unlocked leaves until enough slots are free. `Run` is any sequence of
calls; along it the bookkeeping is exact.
-/

namespace SpecDecode.MemCache

open RadixTree

namespace RadixCache

variable {σ : Type} {c : CacheParams} {s s' : RadixCache σ} {live live' : Finset Nat}
variable {locks : List Nat}

section Evict

variable {x : Nat} {victims victims' : List Nat} {e e' : EvictState σ}

structure EvictedAt (c : CacheParams) (locks : List Nat) (s : RadixCache σ) (live : Finset Nat)
    (victims : List Nat) (s' : RadixCache σ) (live' : Finset Nat) : Prop where
  inv : Inv c s' locks live'
  rootNode : s'.rootNode = s.rootNode
  live_eq : ∀ v, v ∈ live' ↔ v ∈ live ∧ v ∉ victims
  unlocked : ∀ x ∈ victims, x ∈ live ∧ (s.nodes x).lockRef = 0
  fields : ∀ v, (s'.nodes v).key = (s.nodes v).key ∧ (s'.nodes v).value = (s.nodes v).value ∧
    (s'.nodes v).lockRef = (s.nodes v).lockRef
  reads : ∀ p v i, Reads (view c s') s.rootNode p v i ↔
    Reads (view c s) s.rootNode p v i ∧ v ∉ victims
  slots : s.slots live = s'.slots live' +
    ((victims.map fun x => (s.nodes x).value).flatten : List σ)

theorem EvictedAt.refl (h : Inv c s locks live) : EvictedAt c locks s live [] s live where
  inv := h
  rootNode := rfl
  live_eq v := by simp
  unlocked x hx := absurd hx List.not_mem_nil
  fields v := ⟨rfl, rfl, rfl⟩
  reads p v i := by simp
  slots := by simp

theorem EvictedAt.trans {s'' : RadixCache σ} {live'' : Finset Nat}
    (h : EvictedAt c locks s live victims s' live')
    (h' : EvictedAt c locks s' live' victims' s'' live'') :
    EvictedAt c locks s live (victims ++ victims') s'' live'' where
  inv := h'.inv
  rootNode := h'.rootNode.trans h.rootNode
  live_eq v := by
    rw [h'.live_eq, h.live_eq, List.mem_append, not_or, and_assoc]
  unlocked x hx := by
    rcases List.mem_append.mp hx with hx | hx
    · exact h.unlocked x hx
    · obtain ⟨hmem, hlock⟩ := h'.unlocked x hx
      exact ⟨((h.live_eq x).mp hmem).1, by rw [← (h.fields x).2.2, hlock]⟩
  fields v := by
    obtain ⟨hkey, hvalue, hlock⟩ := h.fields v
    obtain ⟨hkey', hvalue', hlock'⟩ := h'.fields v
    exact ⟨hkey'.trans hkey, hvalue'.trans hvalue, hlock'.trans hlock⟩
  reads p v i := by
    have hreads := h'.reads p v i
    rw [h.rootNode] at hreads
    rw [hreads, h.reads, List.mem_append, not_or, and_assoc]
  slots := by
    have hsame : victims'.map (fun x => (s'.nodes x).value) =
        victims'.map fun x => (s.nodes x).value :=
      List.map_congr_left fun x _ => (h.fields x).2.1
    rw [h.slots, h'.slots, hsame, List.map_append, List.flatten_append, ← Multiset.coe_add,
      add_assoc, add_comm (Multiset.ofList _) (Multiset.ofList _)]

theorem EvictedAt.entry_iff (h : EvictedAt c locks s live victims s' live')
    (hwf : Wf (view c s) s.rootNode live) (p : List ChildKey) (b : List σ) :
    Entry (view c s') s.rootNode p b ↔ Entry (view c s) s.rootNode p b ∧
      ∀ x ∈ victims, ∀ i, ¬ Reads (view c s) s.rootNode p x i := by
  have hvals : ∀ v, (view c s' v).vals = (view c s v).vals := fun v => by
    simp only [view, (h.fields v).2.1]
  constructor
  · rintro ⟨v, i, hr, hget⟩
    obtain ⟨hr, hv⟩ := (h.reads _ _ _).mp hr
    rw [hvals] at hget
    refine ⟨⟨v, i, hr, hget⟩, fun x hx j hj => hv ?_⟩
    obtain ⟨rfl, _⟩ := hwf.reads_unique hr hj (.inl rfl)
    exact hx
  · rintro ⟨⟨v, i, hr, hget⟩, hnot⟩
    rw [← hvals] at hget
    exact ⟨v, i, (h.reads _ _ _).mpr ⟨hr, fun hv => hnot v hv _ hr⟩, hget⟩

/-- No lock is held on a node whose lock count is zero. -/
theorem Inv.notMem_locks (h : Inv c s locks live) (hx : x ∈ live)
    (hlock : (s.nodes x).lockRef = 0) : s.lockCount c locks x = 0 ∧ x ∉ locks := by
  have hzero : s.lockCount c locks x = 0 := by
    have hcount := h.book.lock x hx
    omega
  refine ⟨hzero, fun hmem => ?_⟩
  have hnot := (List.countP_eq_zero.mp hzero) x hmem
  obtain ⟨l, hl⟩ := h.book.wf.chain x hx
  have hself : x ∈ l := by
    cases hl with
    | root => exact absurd hx h.book.wf.root_notMem
    | node => exact List.mem_cons_self
  simp only [decide_eq_true_eq] at hnot
  exact hnot ⟨l, hl, hself⟩

/-- Removing one unlocked leaf. Its parent may become the next one. -/
theorem Inv.deleteLeaf (hps : 0 < c.pageSize) (h : Inv c s locks live)
    (hx : x ∈ s.evictableLeaves) :
    ∃ s' u, RadixCache.deleteLeaf c x s = some s' ∧ (s.nodes x).parent = some u ∧
      EvictedAt c locks s live [x] s' (live.erase x) ∧
      s'.evictableLeaves = if (s'.nodes u).children = [] ∧ (s'.nodes u).lockRef = 0 then
        Insert.insert u (s.evictableLeaves.erase x) else s.evictableLeaves.erase x := by
  obtain ⟨hxlive, hlock, hleaf⟩ := (h.book.leaves x).mp hx
  obtain ⟨hcount, hnot⟩ := h.notMem_locks hxlive hlock
  obtain ⟨u, hu, hparent, hedge⟩ := h.book.parent_lookup hps hxlive
  have hux : u ≠ x := fun heq => h.book.wf.parent_ne hxlive (heq ▸ hparent)
  obtain ⟨s', hdelete, hs⟩ := deleteLeaf_at hparent hux hedge
  have hremove := hs.removeLeaf hleaf hu hedge
  have hbook := hs.book h.book hxlive hleaf hu hedge hcount
  refine ⟨s', u, hdelete, hparent, ?_, ?_⟩
  · refine ⟨⟨hbook.congr_held fun v _ => ?_, fun w hw => ?_⟩, hs.rootNode, fun v => ?_, ?_,
      fun v => (hs.fields v).2, fun p v i => ?_, ?_⟩
    · refine lockCount_congr fun w hw => ?_
      rw [hs.rootNode]
      exact hremove.under_iff h.book.wf (h.held w hw)
    · rw [hs.rootNode]
      have hne : w ≠ x := fun heq => hnot (heq ▸ hw)
      exact (h.held w hw).imp_right (Finset.mem_erase_of_ne_of_mem hne)
    · rw [Finset.mem_erase, List.mem_singleton, and_comm]
    · intro y hy
      rw [List.mem_singleton.mp hy]
      exact ⟨hxlive, hlock⟩
    · rw [hremove.reads_iff h.book.wf, List.mem_singleton]
    · rw [hs.slots_eq hxlive]
      simp
  · -- the parent had a child, so it was not an evictable leaf before
    have huleaf : u ∉ s.evictableLeaves := fun hmem => by
      rw [((h.book.leaves u).mp hmem).2.2] at hedge
      cases hedge
    have hnonneg : 0 ≤ (s.nodes u).lockRef := by
      rcases hu with rfl | hu
      · rw [h.book.rootLock]
        decide
      · rw [h.book.lock u hu]
        exact Int.natCast_nonneg _
    ext v
    rw [hs.leaves, (hs.fields u).2.2.2]
    by_cases hvu : v = u
    · subst hvu
      rw [if_pos rfl]
      split
      · next hpush => simp [hpush.1, hpush.2]
      · next hpush =>
          refine iff_of_false (fun hin => hpush ⟨hin.2, by omega⟩) fun hin => ?_
          exact huleaf (Finset.mem_of_mem_erase hin)
    · rw [if_neg hvu]
      split <;> simp [hvu]

theorem evictNode_spec (hps : 0 < c.pageSize) (h : Inv c e.cache locks live)
    (hheap : e.heap = e.cache.evictableLeaves) (hx : x ∈ e.heap) (hleast : ∀ y ∈ e.heap,
      c.evictionPolicy.before (e.cache.nodes y) (e.cache.nodes x) = false) :
    ∃ s', evictNode c x e =
        some ⟨s'.evictableLeaves, e.freed ++ [(e.cache.nodes x).value], s'⟩ ∧
      EvictedAt c locks e.cache live [x] s' (live.erase x) := by
  obtain ⟨s', u, hdelete, hparent, hevicted, hleaves⟩ := h.deleteLeaf hps (hheap ▸ hx)
  refine ⟨s', ?_, hevicted⟩
  rw [evictNode, if_pos ⟨hx, hleast⟩, hdelete, hparent, hleaves, hheap]
  rfl

theorem evictLoop_spec {numTokens : Nat} (hps : 0 < c.pageSize) (h : Inv c e.cache locks live)
    (hheap : e.heap = e.cache.evictableLeaves) (hloop : evictLoop c numTokens victims e = some e') :
    ∃ live', EvictedAt c locks e.cache live victims e'.cache live' ∧
      e'.freed = e.freed ++ victims.map (fun x => (e.cache.nodes x).value) ∧
      (numTokens ≤ e'.numEvicted ∨ e'.cache.evictableLeaves = ∅) := by
  induction victims generalizing e live with
  | nil =>
      rw [evictLoop] at hloop
      split at hloop
      · cases hloop
      · next hstop =>
          obtain rfl := Option.some.inj hloop
          refine ⟨live, .refl h, by simp, ?_⟩
          rw [← hheap]
          by_cases hmore : e.numEvicted < numTokens
          · exact .inr (not_not.mp fun hne => hstop ⟨hmore, hne⟩)
          · exact .inl (Nat.le_of_not_lt hmore)
  | cons x victims ih =>
      rw [evictLoop] at hloop
      split at hloop
      · obtain ⟨e₁, hnode, hloop⟩ := Option.bind_eq_some_iff.mp hloop
        have hpop : x ∈ e.heap ∧ ∀ y ∈ e.heap,
            c.evictionPolicy.before (e.cache.nodes y) (e.cache.nodes x) = false := by
          by_contra hnot
          rw [evictNode, if_neg hnot] at hnode
          cases hnode
        obtain ⟨s', hnode', hevicted⟩ := evictNode_spec hps h hheap hpop.1 hpop.2
        rw [hnode'] at hnode
        obtain rfl := Option.some.inj hnode
        obtain ⟨live', hevicted', hfreed, hstop⟩ := ih hevicted.inv rfl hloop
        refine ⟨live', hevicted.trans hevicted', ?_, hstop⟩
        rw [hfreed, List.map_cons, List.append_assoc, List.singleton_append]
        congr 2
        exact List.map_congr_left fun y _ => (hevicted.fields y).2.1
      · cases hloop

private theorem exists_least {heap : Finset Nat} (policy : EvictionPolicy)
    (nodes : Nat → TreeNode σ)
    (hne : heap.Nonempty) :
    ∃ x ∈ heap, ∀ y ∈ heap, policy.before (nodes y) (nodes x) = false := by
  let rank : Nat → Int ×ₗ Int ×ₗ Nat := fun v => toLex ((policy.getPriority (nodes v)).1,
    toLex ((policy.getPriority (nodes v)).2, (nodes v).lastAccessTime))
  obtain ⟨x, hx, hleast⟩ := heap.exists_min_image rank hne
  refine ⟨x, hx, fun y hy => ?_⟩
  have hle := hleast y hy
  simp only [rank, Prod.Lex.toLex_le_toLex] at hle
  simp only [EvictionPolicy.before, Bool.or_eq_false_iff, Bool.and_eq_false_iff,
    decide_eq_false_iff_not]
  omega

theorem evictLoop_total (numTokens : Nat) (hps : 0 < c.pageSize) (h : Inv c e.cache locks live)
    (hheap : e.heap = e.cache.evictableLeaves) :
    ∃ victims e', evictLoop c numTokens victims e = some e' := by
  induction hn : live.card generalizing e live with
  | zero =>
      have hnone : e.heap = ∅ := by
        rw [hheap, Finset.eq_empty_iff_forall_notMem]
        intro v hv
        have hlive := ((h.book.leaves v).mp hv).1
        rw [Finset.card_eq_zero.mp hn] at hlive
        exact absurd hlive (Finset.notMem_empty v)
      exact ⟨[], e, by rw [evictLoop, if_neg fun hmore => hmore.2 hnone]⟩
  | succ n ih =>
      by_cases hmore : e.numEvicted < numTokens ∧ e.heap ≠ ∅
      · obtain ⟨x, hx, hleast⟩ := exists_least c.evictionPolicy e.cache.nodes
          (Finset.nonempty_iff_ne_empty.mpr hmore.2)
        obtain ⟨s', hnode, hevicted⟩ := evictNode_spec hps h hheap hx hleast
        have hxlive := (hevicted.unlocked x List.mem_cons_self).1
        obtain ⟨victims, e', hloop⟩ := ih
          (e := ⟨s'.evictableLeaves, e.freed ++ [(e.cache.nodes x).value], s'⟩) hevicted.inv rfl
          (by rw [Finset.card_erase_of_mem hxlive, hn, Nat.add_sub_cancel])
        exact ⟨x :: victims, e', by rw [evictLoop, if_pos hmore.1, hnode]; exact hloop⟩
      · exact ⟨[], e, by rw [evictLoop, if_neg hmore]⟩

theorem evict_spec {numTokens : Nat} {freed : List (List σ)} (hps : 0 < c.pageSize)
    (hon : c.disable = false) (h : Inv c s locks live)
    (hevict : evict c numTokens victims s = some (freed, s')) :
    ∃ live', EvictedAt c locks s live victims s' live' ∧
      freed = victims.map fun x => (s.nodes x).value := by
  simp only [evict, hon, Bool.false_eq_true, if_false, Option.map_eq_some_iff, Prod.mk.injEq]
    at hevict
  obtain ⟨e', hloop, rfl, rfl⟩ := hevict
  obtain ⟨live', hevicted, hfreed, _⟩ := evictLoop_spec hps h rfl hloop
  exact ⟨live', hevicted, hfreed⟩

end Evict

/-- A call of the cache. `evict` carries the nodes it pops. -/
inductive Call (σ : Type) where
  | matchPrefix (key : RadixKey) (now : Nat)
  | insert (key : RadixKey) (value : List σ) (priority : Int) (chunked : Bool) (now : Nat)
  | incLockRef (node : Nat)
  | decLockRef (node : Nat)
  | evict (numTokens : Nat) (victims : List Nat)

def InSubtree (s : RadixCache σ) (v w : Nat) : Prop :=
  Relation.ReflTransGen (fun u w => ∃ a, (s.nodes u).children.lookup a = some w) v w

def InTree (s : RadixCache σ) (v : Nat) : Prop := s.InSubtree s.rootNode v

namespace Call

/-- The cache behind a call. -/
def exec (c : CacheParams) (s : RadixCache σ) : Call σ → Option (RadixCache σ)
  | matchPrefix key now => (s.matchPrefix c key now).map Prod.snd
  | insert key value priority chunked now =>
      (s.insert c key value priority chunked now).map Prod.snd
  | incLockRef node => (s.incLockRef c node).map Prod.snd
  | decLockRef node => (s.decLockRef c node).map Prod.snd
  | evict numTokens victims => (s.evict c numTokens victims).map Prod.snd

/-- What the callers see to: a slot for each unit of an inserted key, locks on nodes of the
tree, and a lock is given back once. -/
def Fits (c : CacheParams) (s : RadixCache σ) (locks : List Nat) : Call σ → Prop
  | insert key value _ _ _ => (alignedKey c key).len ≤ value.length
  | incLockRef node => s.InTree node
  | decLockRef node => node ∈ locks
  | matchPrefix _ _ => True
  | evict _ _ => True

def held (locks : List Nat) : Call σ → List Nat
  | incLockRef node => node :: locks
  | decLockRef node => locks.erase node
  | _ => locks

/-- The content behind a call, page by page. -/
noncomputable def content (c : CacheParams) (s : RadixCache σ)
    (A : PrefixMap ChildKey (List σ)) : Call σ → PrefixMap ChildKey (List σ)
  | insert key value _ _ _ =>
      A.insert ((alignedKey c key).syms c.pageSize)
        (pages c.pageSize (value.take (alignedKey c key).len))
  | evict _ victims => A.remove fun p => ∃ x ∈ victims, ∃ i, Reads (view c s) s.rootNode p x i
  | _ => A

end Call

/-- The states that calls lead to, with the locks that are held and the content. -/
inductive Run (c : CacheParams) : RadixCache σ → List Nat → PrefixMap ChildKey (List σ) → Prop where
  | new (now : Nat) : Run c (new now) [] .empty
  | call {s s' : RadixCache σ} {locks : List Nat} {A : PrefixMap ChildKey (List σ)} (k : Call σ)
      (h : Run c s locks A) (hfits : k.Fits c s locks) (hexec : k.exec c s = some s') :
      Run c s' (k.held locks) (k.content c s A)

section Run

variable {A : PrefixMap ChildKey (List σ)} {k : Call σ}

theorem Inv.inTree_iff (h : Inv c s locks live) {v : Nat} :
    s.InTree v ↔ v = s.rootNode ∨ v ∈ live :=
  h.book.wf.below_root_iff

theorem inv_new (c : CacheParams) (now : Nat) : Inv c (new now : RadixCache σ) [] ∅ := by
  refine ⟨⟨⟨?_, ?_, ?_, ?_, ?_⟩, ?_, ?_, ?_, ?_, rfl, rfl, rfl, ?_⟩, ?_⟩
  all_goals simp [new, view, TreeNode.new]

theorem holds_new (c : CacheParams) (now : Nat) :
    Holds (view c (new now : RadixCache σ)) 0 .empty := by
  intro p b
  refine iff_of_false ?_ (by simp [PrefixMap.empty])
  rintro ⟨v, i, hr, _⟩
  cases hr with
  | here hchild => simp [view, new, TreeNode.new] at hchild
  | step hchild => simp [view, new, TreeNode.new] at hchild

/-- An insertion stores what the map gets. Where both have a value it is the same one,
since a tree stores one value under a word. -/
theorem InsertedAt.holds {key : RadixKey} {value : List σ} {bs : List (List σ)}
    (h : InsertedAt c locks s live key value bs s' live') (hvalue : value.length = key.len)
    (hA : Holds (view c s) s.rootNode A) :
    Holds (view c s') s'.rootNode
      (A.insert (key.syms c.pageSize) (pages c.pageSize value)) := by
  have hwf := h.inv.book.wf
  rw [h.rootNode] at hwf ⊢
  intro p b
  rw [PrefixMap.insert_eq_some_iff, h.entry, hA]
  constructor
  · rintro (hb | ⟨i, hi, rfl, hget⟩)
    · exact .inl hb
    · cases hold : A ((key.syms c.pageSize).take (i + 1)) with
      | none =>
          have hlt := (List.getElem?_eq_some_iff.mp hget).1
          rw [length_pages, hvalue, ← RadixKey.length_syms] at hlt
          exact .inr ⟨rfl, i, hlt, rfl, hget⟩
      | some b' =>
          have hnew := (h.entry _ b).mpr (.inr ⟨i, hi, rfl, hget⟩)
          have hkept := (h.entry _ b').mpr (.inl ((hA _ b').mpr hold))
          exact .inl (congrArg some (hwf.entry_unique hkept hnew))
  · rintro (hb | ⟨hnone, i, hi, rfl, hget⟩)
    · exact .inl hb
    · refine .inr ⟨i, ?_, rfl, hget⟩
      by_contra hlt
      have hentry := h.longest.entry i _ (List.getElem?_eq_getElem (Nat.lt_of_not_le hlt))
      rw [List.nil_append, hA, hnone] at hentry
      cases hentry

theorem Keeps.holds (h : Keeps c s s' live live') (hA : Holds (view c s) s.rootNode A) :
    Holds (view c s') s'.rootNode A := by
  intro p b
  rw [h.rootNode, h.entry, hA]

theorem EvictedAt.holds {victims : List Nat} (h : EvictedAt c locks s live victims s' live')
    (hwf : Wf (view c s) s.rootNode live) (hA : Holds (view c s) s.rootNode A) :
    Holds (view c s') s'.rootNode
      (A.remove fun p => ∃ x ∈ victims, ∃ i, Reads (view c s) s.rootNode p x i) := by
  intro p b
  rw [h.rootNode, h.entry_iff hwf, hA, PrefixMap.remove_eq_some_iff]
  refine and_congr_right fun _ => ?_
  push Not
  rfl

theorem Inv.call (hps : 0 < c.pageSize) (hon : c.disable = false) (h : Inv c s locks live)
    (hA : Holds (view c s) s.rootNode A) (hfits : k.Fits c s locks) (hexec : k.exec c s = some s') :
    ∃ live', Inv c s' (k.held locks) live' ∧ Holds (view c s') s'.rootNode (k.content c s A) := by
  cases k with
  | matchPrefix key now =>
      obtain ⟨r, s₁, live', bs, hmatch, hr⟩ := matchPrefix_spec key now hps hon h
      obtain rfl : s₁ = s' := by simpa [Call.exec, hmatch] using hexec
      exact ⟨live', hr.inv, hr.keeps.holds hA⟩
  | insert key value priority chunked now =>
      obtain ⟨s₁, live', bs, hinsert, hr⟩ :=
        insert_spec value priority chunked now hps hon h hfits
      obtain rfl : s₁ = s' := by simpa [Call.exec, hinsert] using hexec
      exact ⟨live', hr.inv, hr.holds (List.length_take_of_le hfits) hA⟩
  | incLockRef node =>
      obtain ⟨_, s₁, hinc, hshape, hinv, _⟩ := incLockRef_spec hon h (h.inTree_iff.mp hfits)
      obtain rfl : s₁ = s' := by simpa [Call.exec, hinc] using hexec
      exact ⟨live, hinv, (hshape.keeps live).holds hA⟩
  | decLockRef node =>
      obtain ⟨_, s₁, hdec, hshape, hinv, _⟩ := decLockRef_spec hon h hfits
      obtain rfl : s₁ = s' := by simpa [Call.exec, hdec] using hexec
      exact ⟨live, hinv, (hshape.keeps live).holds hA⟩
  | evict numTokens victims =>
      simp only [Call.exec, Option.map_eq_some_iff] at hexec
      obtain ⟨⟨freed, s₁⟩, hevict, rfl⟩ := hexec
      obtain ⟨live', hr, _⟩ := evict_spec hps hon h hevict
      exact ⟨live', hr.inv, hr.holds h.book.wf hA⟩

theorem Inv.call_disabled (hoff : c.disable = true) (h : Inv c s locks ∅)
    (hfits : k.Fits c s locks) (hexec : k.exec c s = some s') : Inv c s' (k.held locks) ∅ := by
  have hsame : s' = s := by
    cases k <;> simp [Call.exec, matchPrefix, insert, incLockRef, decLockRef, evict, hoff] at hexec
    case evict => exact hexec.2.symm
    all_goals exact hexec.symm
  rw [hsame]
  refine ⟨h.book.congr_held fun v hv => absurd hv (Finset.notMem_empty v), fun w hw => ?_⟩
  cases k with
  | incLockRef node =>
      rcases List.mem_cons.mp hw with rfl | hw
      · exact h.inTree_iff.mp hfits
      · exact h.held w hw
  | decLockRef node => exact h.held w (List.mem_of_mem_erase hw)
  | matchPrefix | insert | evict => exact h.held w hw

theorem Run.inv (hps : 0 < c.pageSize) (h : Run c s locks A) :
    ∃ live, Inv c s locks live ∧ (c.disable = false → Holds (view c s) s.rootNode A) ∧
      (c.disable = true → live = ∅) := by
  induction h with
  | new now => exact ⟨∅, inv_new c now, fun _ => holds_new c now, fun _ => rfl⟩
  | call k _ hfits hexec ih =>
      obtain ⟨live, hinv, hholds, hempty⟩ := ih
      cases hoff : c.disable with
      | false =>
          obtain ⟨live', hinv', hholds'⟩ := hinv.call hps hoff (hholds hoff) hfits hexec
          exact ⟨live', hinv', fun _ => hholds', nofun⟩
      | true =>
          rw [hempty hoff] at hinv
          exact ⟨∅, hinv.call_disabled hoff hfits hexec, nofun, fun _ => rfl⟩

/-- The call returns; `evict` does for the nodes that its heap pops. -/
def Call.Returns (c : CacheParams) (s : RadixCache σ) : Call σ → Prop
  | evict numTokens _ => ∃ victims, ((evict numTokens victims).exec c s).isSome
  | k => (k.exec c s).isSome

theorem Inv.returns (hps : 0 < c.pageSize) (h : Inv c s locks live) (hfits : k.Fits c s locks) :
    k.Returns c s := by
  cases hon : c.disable with
  | true =>
      cases k with
      | evict =>
          refine ⟨[], ?_⟩
          simp [Call.exec, evict, hon]
      | _ =>
          simp [Call.Returns, Call.exec, matchPrefix, insert, incLockRef, decLockRef, hon]
  | false =>
      cases k with
      | matchPrefix key now =>
          obtain ⟨r, s', _, _, hmatch, _⟩ := matchPrefix_spec key now hps hon h
          simp [Call.Returns, Call.exec, hmatch]
      | insert key value priority chunked now =>
          obtain ⟨s', _, _, hinsert, _⟩ :=
            insert_spec value priority chunked now hps hon h hfits
          simp [Call.Returns, Call.exec, hinsert]
      | incLockRef node =>
          obtain ⟨_, s', hinc, _⟩ := incLockRef_spec hon h (h.inTree_iff.mp hfits)
          simp [Call.Returns, Call.exec, hinc]
      | decLockRef node =>
          obtain ⟨_, s', hdec, _⟩ := decLockRef_spec hon h hfits
          simp [Call.Returns, Call.exec, hdec]
      | evict numTokens _ =>
          obtain ⟨victims, e, hloop⟩ := evictLoop_total numTokens hps h
            (e := ⟨s.evictableLeaves, [], s⟩) rfl
          exact ⟨victims, by simp [Call.exec, evict, hon, hloop]⟩

open Classical in
/-- The nodes of the tree besides the root, among all nodes ever made. -/
noncomputable def treeNodes (s : RadixCache σ) : Finset Nat :=
  {v ∈ Finset.range s.counter | v ≠ s.rootNode ∧ s.InTree v}

open Classical in
/-- The bookkeeping of a cache on which `locks` are held is exact. -/
structure Exact (c : CacheParams) (s : RadixCache σ) (locks : List Nat) : Prop where
  made : ∀ v, s.InTree v → v < s.counter
  lockRef : ∀ v ∈ s.treeNodes, (s.nodes v).lockRef = locks.countP fun w => s.InSubtree v w
  evictableSize : s.evictableSize =
    ∑ v ∈ s.treeNodes with (s.nodes v).lockRef = 0, ((s.nodes v).key.len : Int)
  protectedSize : s.protectedSize =
    ∑ v ∈ s.treeNodes with 0 < (s.nodes v).lockRef, ((s.nodes v).key.len : Int)
  evictableLeaves : ∀ v, v ∈ s.evictableLeaves ↔
    v ∈ s.treeNodes ∧ (s.nodes v).lockRef = 0 ∧ (s.nodes v).children = []
  child : ∀ u a v, s.InTree u → (s.nodes u).children.lookup a = some v →
    a = (s.nodes v).key.childKey c.pageSize ∧ (s.nodes v).parent = some u
  lengths : ∀ v ∈ s.treeNodes, (s.nodes v).key.len = (s.nodes v).value.length

theorem Inv.treeNodes_eq (h : Inv c s locks live) : s.treeNodes = live := by
  ext v
  simp only [treeNodes, Finset.mem_filter, Finset.mem_range, h.inTree_iff]
  constructor
  · rintro ⟨_, hne, hv⟩
    exact hv.resolve_left hne
  · intro hv
    exact ⟨h.book.fresh v (.inr hv), fun heq => h.book.wf.root_notMem (heq ▸ hv), .inr hv⟩

theorem Inv.exact (hps : 0 < c.pageSize) (h : Inv c s locks live) : s.Exact c locks := by
  refine ⟨?_, ?_, ?_, ?_, ?_, ?_, ?_⟩
  · intro v hv
    exact h.book.fresh v (h.inTree_iff.mp hv)
  · intro v hv
    rw [h.treeNodes_eq] at hv
    rw [h.book.lock v hv, lockCount]
    congr 1
    refine List.countP_congr fun w hw => ?_
    simp only [decide_eq_true_eq]
    exact h.book.wf.under_iff_below hv (h.held w hw)
  · rw [h.treeNodes_eq, Finset.sum_filter]
    exact h.book.evictable
  · rw [h.treeNodes_eq, Finset.sum_filter]
    exact h.book.locked
  · rw [h.treeNodes_eq]
    exact h.book.leaves
  · intro u a v hu hchild
    obtain ⟨hv, hparent, _⟩ := h.book.wf.child u a v (h.inTree_iff.mp hu) hchild
    obtain ⟨u', _, hparent', hlookup⟩ := h.book.parent_lookup hps hv
    obtain rfl : u = u' := Option.some.inj (hparent.symm.trans hparent')
    refine ⟨?_, hparent⟩
    have hhead := (h.book.wf.child u a v (h.inTree_iff.mp hu) hchild).2.2
    have hhead' := (h.book.wf.child u _ v (h.inTree_iff.mp hu) hlookup).2.2
    exact Option.some.inj (hhead.symm.trans hhead')
  · intro v hv
    rw [h.treeNodes_eq] at hv
    exact (h.book.values v hv).symm

/-- In every state that the calls of the scheduler lead to, sizes and locks are exact for the locks
that are held, and every call that fits that state returns. -/
theorem run_exact (hps : 0 < c.pageSize) (h : Run c s locks A) :
    s.Exact c locks ∧ ∀ k : Call σ, k.Fits c s locks → k.Returns c s := by
  obtain ⟨live, hinv, _⟩ := h.inv hps
  exact ⟨hinv.exact hps, fun k hfits => hinv.returns hps hfits⟩

/-- A search splits the only leaf, and the front half is locked. -/
theorem run_exact_split : ∃ (s : RadixCache Nat) (A : PrefixMap ChildKey (List Nat)),
    Run ⟨false, 1, false, .lru⟩ s [2] A ∧ s.evictableSize = 1 ∧ s.protectedSize = 2 ∧
      s.Exact ⟨false, 1, false, .lru⟩ [2] := by
  have h₁ := Run.call (.insert ⟨[1, 2, 3], none, false⟩ [10, 11, 12] 0 false 1)
    (Run.new (c := ⟨false, 1, false, .lru⟩) 0) (Nat.le_refl 3) rfl
  have h₂ := h₁.call (.matchPrefix ⟨[1, 2, 4], none, false⟩ 2) trivial rfl
  have h₃ := h₂.call (.incLockRef 2) (.single ⟨(none, [.token 1]), by decide⟩) rfl
  exact ⟨_, _, h₃, by decide, by decide, (run_exact (by decide) h₃).1⟩

end Run

end RadixCache

end SpecDecode.MemCache
