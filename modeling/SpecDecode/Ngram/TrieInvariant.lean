import SpecDecode.Ngram.Trie
import Mathlib.Algebra.Order.Ring.Int
import Mathlib.Data.List.Perm.Basic
import Mathlib.Data.List.Induction
import Mathlib.Data.List.Perm.Subperm

/-!
# The structural invariant of the trie

`Inv` says that the pool is split into the root, the nodes of `global_lru_` and the
free nodes, that the child maps, parents and sibling lists describe one tree on
the first two, and that `global_lru_` lists a parent before its children. Every
primitive step of `insert` and `squeeze` keeps it.
-/

namespace SpecDecode.Ngram

open Function

theorem lookup_eq_some_of_nodup {entries : List (Int × Nat)} {token : Int} {v : Nat}
    (hkeys : (entries.map Prod.fst).Nodup) :
    entries.lookup token = some v ↔ (token, v) ∈ entries := by
  induction entries with
  | nil => simp
  | cons e entries ih =>
      obtain ⟨token', v'⟩ := e
      rw [List.map_cons, List.nodup_cons] at hkeys
      rw [List.lookup_cons, List.mem_cons]
      by_cases htoken : token = token'
      · subst htoken
        have hnot : (token, v) ∉ entries := fun hmem =>
          hkeys.1 (List.mem_map.mpr ⟨_, hmem, rfl⟩)
        simp [hnot, eq_comm]
      · have hne : (token == token') = false := by simpa using htoken
        simp [hne, htoken, ih hkeys.2]

namespace Trie

section Order

variable {nodes nodes' : Nat → TrieNode} {a b x : Nat} {xs : List Nat}

theorem less_iff : less nodes a b = true ↔
    (nodes b).freq < (nodes a).freq ∨ (nodes b).freq = (nodes a).freq ∧
      ((nodes a).token < (nodes b).token ∨ (nodes a).token = (nodes b).token ∧ a < b) := by
  simp [less]

theorem less_or_less (nodes : Nat → TrieNode) (h : a ≠ b) :
    less nodes a b = true ∨ less nodes b a = true := by
  rw [less_iff, less_iff]
  omega

theorem less_trans {d : Nat} (hab : less nodes a b = true) (hbd : less nodes b d = true) :
    less nodes a d = true := by
  rw [less_iff] at *
  omega

@[simp] theorem less_irrefl : less nodes a a = false := by
  rw [Bool.eq_false_iff]
  intro h
  rw [less_iff] at h
  omega

private theorem less_congr
    (ha : (nodes' a).freq = (nodes a).freq ∧ (nodes' a).token = (nodes a).token)
    (hb : (nodes' b).freq = (nodes b).freq ∧ (nodes' b).token = (nodes b).token) :
    less nodes' a b = less nodes a b := by
  simp only [less, ha, hb]

theorem pairwise_less_congr
    (h : ∀ y ∈ xs, (nodes' y).freq = (nodes y).freq ∧ (nodes' y).token = (nodes y).token)
    (hxs : xs.Pairwise fun a b => less nodes a b = true) :
    xs.Pairwise fun a b => less nodes' a b = true :=
  hxs.imp_of_mem fun ha hb hab => by rwa [less_congr (h _ ha) (h _ hb)]

theorem insertSorted_perm (x : Nat) (xs : List Nat) : (insertSorted nodes x xs).Perm (x :: xs) := by
  induction xs with
  | nil => exact List.Perm.refl _
  | cons y ys ih =>
      unfold insertSorted
      split
      · exact List.Perm.refl _
      · exact (ih.cons y).trans (List.Perm.swap x y ys)

theorem insertSorted_pairwise (hx : x ∉ xs) (hxs : xs.Pairwise fun a b => less nodes a b = true) :
    (insertSorted nodes x xs).Pairwise fun a b => less nodes a b = true := by
  induction xs with
  | nil => exact List.pairwise_singleton _ _
  | cons y ys ih =>
      rw [List.mem_cons, not_or] at hx
      obtain ⟨hy, hys⟩ := List.pairwise_cons.mp hxs
      unfold insertSorted
      split
      · next h =>
          refine List.pairwise_cons.mpr ⟨?_, hxs⟩
          intro z hz
          rcases List.mem_cons.mp hz with rfl | hz
          · exact h
          · exact less_trans h (hy z hz)
      · next h =>
          refine List.pairwise_cons.mpr ⟨?_, ih hx.2 hys⟩
          intro z hz
          rcases List.mem_cons.mp ((insertSorted_perm x ys).mem_iff.mp hz) with rfl | hz
          · exact (less_or_less nodes hx.1).resolve_left h
          · exact hy z hz

theorem eraseSorted_eq (hxs : xs.Nodup) : eraseSorted nodes x xs = xs.erase x := by
  rw [hxs.erase_eq_filter, eraseSorted]
  refine List.filter_congr fun y _ => ?_
  by_cases h : y = x
  · subst h
    simp [less_irrefl]
  · have hor : (less nodes x y || less nodes y x) = true := by
      rw [Bool.or_eq_true]
      exact less_or_less nodes (Ne.symm h)
    rw [hor]
    simpa using h

end Order

/-- The root or a node of `global_lru_`. -/
def Live (t : Trie) (u : Nat) : Prop := u = t.root ∨ u ∈ t.globalLru

def freeNodes (t : Trie) : List Nat := (List.range t.freeNodeCount).map t.nodePool

def childNodes (t : Trie) (u : Nat) : List Nat := (t.nodes u).child.map Prod.snd

def childFreq (t : Trie) (u : Nat) : Nat := ((t.childNodes u).map fun v => (t.nodes v).freq).sum

structure NodeOk (t : Trie) (u : Nat) : Prop where
  keys : ((t.nodes u).child.map Prod.fst).Nodup
  child : ∀ e ∈ (t.nodes u).child,
    e.2 ∈ t.globalLru ∧ (t.nodes e.2).parent = u ∧ (t.nodes e.2).token = e.1
  lru : (t.nodes u).lru.Perm (t.childNodes u)
  sorted : (t.nodes u).sortedChildren.Perm (t.childNodes u)
  ordered : (t.nodes u).sortedChildren.Pairwise fun a b => less t.nodes a b = true

structure Inv (c : TrieConfig) (t : Trie) : Prop where
  pool : (t.root :: (t.globalLru ++ t.freeNodes)).Perm (List.range c.capacity)
  node : ∀ u, t.Live u → NodeOk t u
  parent : ∀ v ∈ t.globalLru, t.Live (t.nodes v).parent ∧ (t.nodes v).parent ≠ v ∧
    ((t.nodes v).token, v) ∈ (t.nodes (t.nodes v).parent).child
  order : t.globalLru.Pairwise fun a b => (t.nodes a).parent ≠ b
  freq : ∀ u ∈ t.globalLru, t.childFreq u ≤ (t.nodes u).freq

section Pool

variable {c : TrieConfig} {t : Trie}

theorem Inv.nodup (h : Inv c t) : (t.root :: (t.globalLru ++ t.freeNodes)).Nodup :=
  h.pool.nodup_iff.mpr List.nodup_range

theorem Inv.lru_nodup (h : Inv c t) : t.globalLru.Nodup :=
  (List.nodup_append.mp (List.nodup_cons.mp h.nodup).2).1

theorem Inv.root_notMem (h : Inv c t) : t.root ∉ t.globalLru := fun hmem =>
  (List.nodup_cons.mp h.nodup).1 (List.mem_append_left _ hmem)

theorem Inv.count (h : Inv c t) : 1 + t.globalLru.length + t.freeNodeCount = c.capacity := by
  have := h.pool.length_eq
  simp [freeNodes] at this
  omega

variable {u : Nat}

theorem Inv.free_not_live (h : Inv c t) (hu : u ∈ t.freeNodes) : ¬ t.Live u := by
  rintro (rfl | hmem)
  · exact (List.nodup_cons.mp h.nodup).1 (List.mem_append_right _ hu)
  · exact (List.nodup_append.mp (List.nodup_cons.mp h.nodup).2).2.2 u hmem u hu rfl

theorem NodeOk.of_leaf (hchild : (t.nodes u).child = []) (hlru : (t.nodes u).lru = [])
    (hsorted : (t.nodes u).sortedChildren = []) : NodeOk t u := by
  refine ⟨?_, ?_, ?_, ?_, ?_⟩ <;> simp [hchild, hlru, hsorted, childNodes]

theorem NodeOk.childNodes_nodup (h : NodeOk t u) : (t.childNodes u).Nodup := by
  have hkeys := h.keys
  unfold childNodes
  rw [List.nodup_iff_pairwise_ne, List.pairwise_map] at hkeys ⊢
  refine hkeys.imp_of_mem fun {e f} he hf hne heq => hne ?_
  rw [← (h.child e he).2.2, ← (h.child f hf).2.2, heq]

theorem NodeOk.mem_childNodes {v : Nat} (h : NodeOk t u) :
    v ∈ t.childNodes u ↔ ((t.nodes v).token, v) ∈ (t.nodes u).child := by
  constructor
  · intro hv
    obtain ⟨e, he, rfl⟩ := List.mem_map.mp hv
    rw [(h.child e he).2.2]
    exact he
  · intro hv
    exact List.mem_map.mpr ⟨_, hv, rfl⟩

theorem NodeOk.findChild_eq_some {v : Nat} {token : Int} (h : NodeOk t u) :
    t.findChild u token = some v ↔ (token, v) ∈ (t.nodes u).child :=
  lookup_eq_some_of_nodup h.keys

theorem NodeOk.findChild_eq_none {token : Int} :
    t.findChild u token = none ↔ token ∉ (t.nodes u).child.map Prod.fst := by
  unfold findChild
  simp only [List.lookup_eq_none_iff, List.mem_map, not_exists, not_and, bne_iff_ne, ne_eq]
  exact ⟨fun h e he heq => h e he heq.symm, fun h e he heq => h e he heq.symm⟩

end Pool

theorem sum_map_bump {xs : List Nat} {x : Nat} {f g : Nat → Nat} (hxs : xs.Nodup) (hx : x ∈ xs)
    (hbump : g x = f x + 1) (hsame : ∀ y ∈ xs, y ≠ x → g y = f y) :
    (xs.map g).sum = (xs.map f).sum + 1 := by
  induction xs with
  | nil => simp at hx
  | cons y ys ih =>
      obtain ⟨hy, hys⟩ := List.nodup_cons.mp hxs
      rw [List.map_cons, List.map_cons, List.sum_cons, List.sum_cons]
      rcases List.mem_cons.mp hx with rfl | hx
      · have hrest : ys.map g = ys.map f := List.map_congr_left fun z hz =>
          hsame z (List.mem_cons_of_mem _ hz) fun heq => hy (heq ▸ hz)
        rw [hrest, hbump]
        omega
      · rw [ih hys hx fun z hz => hsame z (List.mem_cons_of_mem _ hz),
          hsame y (List.mem_cons_self ..) fun heq => hy (heq ▸ hx)]
        omega

section AddChild

variable {c : TrieConfig} {t : Trie} {cursor : Nat} {token : Int}

def nextFree (t : Trie) : Nat := t.nodePool (t.freeNodeCount - 1)

theorem freeNodes_eq (hfree : 0 < t.freeNodeCount) :
    t.freeNodes = (List.range (t.freeNodeCount - 1)).map t.nodePool ++ [t.nextFree] := by
  obtain ⟨k, hk⟩ : ∃ k, t.freeNodeCount = k + 1 := ⟨t.freeNodeCount - 1, by omega⟩
  simp [freeNodes, nextFree, hk, List.range_succ]

theorem nextFree_mem (hfree : 0 < t.freeNodeCount) : t.nextFree ∈ t.freeNodes := by
  rw [freeNodes_eq hfree]
  simp

def newChild (t : Trie) (cursor : Nat) (token : Int) : TrieNode :=
  { TrieNode.new (t.nodes t.nextFree).version with token := token, parent := cursor, freq := 1 }

theorem addChild_eq (hne : cursor ≠ t.nextFree) :
    t.addChild cursor token =
      (t.nextFree, { t with
        freeNodeCount := t.freeNodeCount - 1
        globalLru := t.globalLru ++ [t.nextFree]
        nodes := update (update t.nodes t.nextFree (t.newChild cursor token)) cursor
          { t.nodes cursor with
            child := (token, t.nextFree) :: (t.nodes cursor).child
            lru := t.nextFree :: (t.nodes cursor).lru
            sortedChildren := insertSorted
              (update t.nodes t.nextFree (t.newChild cursor token)) t.nextFree
              (t.nodes cursor).sortedChildren } }) := by
  have hget : t.getNode = (t.nextFree, { t with
      freeNodeCount := t.freeNodeCount - 1
      nodes := update t.nodes t.nextFree (.new (t.nodes t.nextFree).version) }) := rfl
  simp only [addChild, hget, update_self, update_idem, newChild,
    update_of_ne hne]

/-- What `addChild` leaves at each node; the fields that order and link an old node
stay. -/
structure AddedChild (t t' : Trie) (cursor : Nat) (token : Int) : Prop where
  root : t'.root = t.root
  epoch : t'.trieEpoch = t.trieEpoch
  lru : t'.globalLru = t.globalLru ++ [t.nextFree]
  free : t'.freeNodeCount = t.freeNodeCount - 1
  pool : t'.nodePool = t.nodePool
  fresh : t'.nodes t.nextFree = t.newChild cursor token
  child : (t'.nodes cursor).child = (t.nodes cursor).child.cons (token, t.nextFree)
  childLru : (t'.nodes cursor).lru = (t.nodes cursor).lru.cons t.nextFree
  sorted : ∃ nodes : Nat → TrieNode, (t'.nodes cursor).sortedChildren =
      insertSorted nodes t.nextFree (t.nodes cursor).sortedChildren ∧
    ∀ u, (nodes u).freq = (t'.nodes u).freq ∧ (nodes u).token = (t'.nodes u).token
  other : ∀ u, u ≠ t.nextFree → u ≠ cursor → t'.nodes u = t.nodes u
  fields : ∀ u, u ≠ t.nextFree → (t'.nodes u).freq = (t.nodes u).freq ∧
    (t'.nodes u).token = (t.nodes u).token ∧ (t'.nodes u).parent = (t.nodes u).parent ∧
    (t'.nodes u).version = (t.nodes u).version

theorem addChild_spec (hne : cursor ≠ t.nextFree) :
    (t.addChild cursor token).1 = t.nextFree ∧
      AddedChild t (t.addChild cursor token).2 cursor token := by
  rw [addChild_eq hne]
  refine ⟨rfl, ⟨rfl, rfl, rfl, rfl, rfl, ?_, ?_, ?_, ?_, ?_, ?_⟩⟩
  · simp [update_of_ne hne.symm]
  · simp
  · simp
  · refine ⟨update t.nodes t.nextFree (t.newChild cursor token), by simp, fun u => ?_⟩
    by_cases hu : u = cursor
    · subst hu
      simp [update_of_ne hne]
    · simp [update_of_ne hu]
  · intro u hu huc
    simp [update_of_ne hu, update_of_ne huc]
  · intro u hu
    by_cases huc : u = cursor
    · subst huc
      simp
    · simp [update_of_ne hu, update_of_ne huc]

namespace AddedChild

variable {t' : Trie}

variable {u : Nat}

theorem live (ha : AddedChild t t' cursor token) : t'.Live u ↔ t.Live u ∨ u = t.nextFree := by
  simp only [Live, ha.root, ha.lru, List.mem_append, List.mem_singleton]
  exact or_assoc.symm

theorem child_mem (ha : AddedChild t t' cursor token) (hu : u ≠ t.nextFree)
    {e : Int × Nat} : e ∈ (t'.nodes u).child ↔
      e ∈ (t.nodes u).child ∨ u = cursor ∧ e = (token, t.nextFree) := by
  by_cases huc : u = cursor
  · subst huc
    rw [ha.child, List.mem_cons]
    simp [or_comm]
  · rw [ha.other u hu huc]
    simp [huc]

theorem childFreq_new (ha : AddedChild t t' cursor token) : t'.childFreq t.nextFree = 0 := by
  simp [childFreq, childNodes, ha.fresh, newChild, TrieNode.new]

variable (h : Inv c t) (hfree : 0 < t.freeNodeCount)

include h hfree

private theorem nextFree_not_live : ¬ t.Live t.nextFree := h.free_not_live (nextFree_mem hfree)

theorem ne_nextFree (hu : t.Live u) : u ≠ t.nextFree := fun heq =>
  nextFree_not_live h hfree (heq ▸ hu)

variable (hlive : t.Live cursor) (hnew : t.findChild cursor token = none)

include hlive hnew

theorem nodeOk (ha : AddedChild t t' cursor token) (hu : t'.Live u) : NodeOk t' u := by
  have hchild : ∀ e ∈ (t.nodes u).child, t.Live u → e.2 ∈ t'.globalLru ∧
      (t'.nodes e.2).parent = u ∧ (t'.nodes e.2).token = e.1 := by
    intro e he hu
    obtain ⟨hmem, hparent, htoken⟩ := (h.node u hu).child e he
    obtain ⟨_, htoken', hparent', _⟩ := ha.fields e.2 (ne_nextFree h hfree (.inr hmem))
    exact ⟨by rw [ha.lru]; exact List.mem_append_left _ hmem, hparent'.trans hparent,
      htoken'.trans htoken⟩
  have hkept : ∀ y ∈ (t.nodes u).sortedChildren, t.Live u →
      (t'.nodes y).freq = (t.nodes y).freq ∧ (t'.nodes y).token = (t.nodes y).token := by
    intro y hy hu
    obtain ⟨e, he, rfl⟩ := List.mem_map.mp ((h.node u hu).sorted.mem_iff.mp hy)
    have hf := ha.fields e.2 (ne_nextFree h hfree (.inr ((h.node u hu).child e he).1))
    exact ⟨hf.1, hf.2.1⟩
  rcases ha.live.mp hu with hold | rfl
  · have hok := h.node u hold
    by_cases huc : u = cursor
    · subst huc
      have hchildNodes : t'.childNodes u = t.nextFree :: t.childNodes u := by
        simp only [childNodes, ha.child]
        rfl
      have hfresh : t.nextFree ∉ (t.nodes u).sortedChildren := fun hmem => by
        obtain ⟨e, he, heq⟩ := List.mem_map.mp (hok.sorted.mem_iff.mp hmem)
        exact ne_nextFree h hfree (.inr (hok.child e he).1) heq
      obtain ⟨nodes, hsorted, hnodes⟩ := ha.sorted
      refine ⟨?_, ?_, ?_, ?_, ?_⟩
      · rw [ha.child]
        exact List.nodup_cons.mpr ⟨NodeOk.findChild_eq_none.mp hnew, hok.keys⟩
      · intro e he
        rcases (ha.child_mem (ne_nextFree h hfree hold)).mp he with he | ⟨_, rfl⟩
        · exact hchild e he hold
        · refine ⟨by rw [ha.lru]; simp, ?_, ?_⟩ <;> rw [ha.fresh] <;> rfl
      · rw [ha.childLru, hchildNodes]
        exact hok.lru.cons _
      · rw [hsorted, hchildNodes]
        exact (insertSorted_perm _ _).trans (hok.sorted.cons _)
      · rw [hsorted]
        have hpair := insertSorted_pairwise hfresh
          (pairwise_less_congr (fun y hy => ⟨(hnodes y).1.trans (hkept y hy hold).1,
            (hnodes y).2.trans (hkept y hy hold).2⟩) hok.ordered)
        exact pairwise_less_congr (fun y _ => ⟨(hnodes y).1.symm, (hnodes y).2.symm⟩) hpair
    · have hsame := ha.other u (ne_nextFree h hfree hold) huc
      refine ⟨by rw [hsame]; exact hok.keys, fun e he => hchild e (hsame ▸ he) hold, ?_, ?_, ?_⟩
      · rw [childNodes, hsame]
        exact hok.lru
      · rw [childNodes, hsame]
        exact hok.sorted
      · rw [hsame]
        exact pairwise_less_congr (fun y hy => hkept y hy hold) hok.ordered
  · apply NodeOk.of_leaf <;> rw [ha.fresh] <;> rfl

omit hlive hnew

theorem childFreq_eq (ha : AddedChild t t' cursor token) (hu : t.Live u) :
    t'.childFreq u = t.childFreq u + if u = cursor then 1 else 0 := by
  have hkept : (t.childNodes u).map (fun v => (t'.nodes v).freq) =
      (t.childNodes u).map fun v => (t.nodes v).freq := by
    refine List.map_congr_left fun v hv => ?_
    obtain ⟨e, he, rfl⟩ := List.mem_map.mp hv
    exact (ha.fields e.2 (ne_nextFree h hfree (.inr ((h.node u hu).child e he).1))).1
  by_cases huc : u = cursor
  · subst huc
    have hchildNodes : t'.childNodes u = t.nextFree :: t.childNodes u := by
      simp only [childNodes, ha.child]
      rfl
    rw [childFreq, hchildNodes, List.map_cons, List.sum_cons, hkept, ha.fresh, if_pos rfl,
      Nat.add_comm]
    rfl
  · rw [if_neg huc, Nat.add_zero, childFreq, childNodes,
      ha.other u (ne_nextFree h hfree hu) huc]
    exact congrArg List.sum hkept

include hlive hnew

/-- A new child keeps the invariant when the cursor's count leaves room for it. -/
theorem inv (ha : AddedChild t t' cursor token)
    (hroom : cursor = t.root ∨ t.childFreq cursor + 1 ≤ (t.nodes cursor).freq) : Inv c t' where
  pool := by
    have hpool := h.pool
    rw [freeNodes_eq hfree] at hpool
    refine List.Perm.trans ?_ hpool
    simp only [ha.root, ha.lru, freeNodes, ha.free, ha.pool, List.append_assoc]
    exact ((List.perm_append_comm).append_left _).cons _
  node u hu := nodeOk h hfree hlive hnew ha hu
  parent v hv := by
    rw [ha.lru, List.mem_append, List.mem_singleton] at hv
    rcases hv with hv | rfl
    · obtain ⟨hp, hne, hentry⟩ := h.parent v hv
      obtain ⟨_, htoken, hparent, _⟩ := ha.fields v (ne_nextFree h hfree (.inr hv))
      rw [htoken, hparent]
      exact ⟨ha.live.mpr (.inl hp), hne,
        (ha.child_mem (ne_nextFree h hfree hp)).mpr (.inl hentry)⟩
    · have hparent : (t'.nodes t.nextFree).parent = cursor := by rw [ha.fresh]; rfl
      have htoken : (t'.nodes t.nextFree).token = token := by rw [ha.fresh]; rfl
      rw [hparent, htoken]
      exact ⟨ha.live.mpr (.inl hlive), ne_nextFree h hfree hlive,
        (ha.child_mem (ne_nextFree h hfree hlive)).mpr (.inr ⟨rfl, rfl⟩)⟩
  order := by
    rw [ha.lru, List.pairwise_append]
    refine ⟨h.order.imp_of_mem fun {a b} hmem _ hab => ?_, List.pairwise_singleton _ _, ?_⟩
    · rwa [(ha.fields a (ne_nextFree h hfree (.inr hmem))).2.2.1]
    · intro v hv n hn
      rw [List.mem_singleton.mp hn, (ha.fields v (ne_nextFree h hfree (.inr hv))).2.2.1]
      exact ne_nextFree h hfree (h.parent v hv).1
  freq u hu := by
    rw [ha.lru, List.mem_append, List.mem_singleton] at hu
    rcases hu with hu | rfl
    · rw [childFreq_eq h hfree ha (.inr hu), (ha.fields u (ne_nextFree h hfree (.inr hu))).1]
      split
      · next heq =>
          subst heq
          rcases hroom with rfl | hroom
          · exact absurd hu h.root_notMem
          · exact hroom
      · exact h.freq u hu
    · rw [childFreq_new ha]
      exact Nat.zero_le _

end AddedChild

end AddChild

section TouchChild

variable {c : TrieConfig} {t : Trie} {cursor node : Nat}

structure Touched (t t' : Trie) (cursor node : Nat) : Prop where
  root : t'.root = t.root
  epoch : t'.trieEpoch = t.trieEpoch
  lru : t'.globalLru = t.globalLru
  free : t'.freeNodeCount = t.freeNodeCount
  pool : t'.nodePool = t.nodePool
  fields : ∀ u, (t'.nodes u).child = (t.nodes u).child ∧ (t'.nodes u).token = (t.nodes u).token ∧
    (t'.nodes u).parent = (t.nodes u).parent ∧ (t'.nodes u).version = (t.nodes u).version
  freq : ∀ u, (t'.nodes u).freq = (t.nodes u).freq + if u = node then 1 else 0
  orders : ∀ u, u ≠ cursor → (t'.nodes u).lru = (t.nodes u).lru ∧
    (t'.nodes u).sortedChildren = (t.nodes u).sortedChildren
  childLru : (t'.nodes cursor).lru = node :: (t.nodes cursor).lru.erase node
  sorted : ∃ nodes : Nat → TrieNode, (t'.nodes cursor).sortedChildren =
      insertSorted nodes node (eraseSorted t.nodes node (t.nodes cursor).sortedChildren) ∧
    ∀ u, (nodes u).freq = (t'.nodes u).freq ∧ (nodes u).token = (t'.nodes u).token

theorem touchChild_spec (hne : cursor ≠ node) :
    Touched t (t.touchChild cursor node) cursor node := by
  have hcursor : update t.nodes node { t.nodes node with freq := (t.nodes node).freq + 1 }
      cursor = t.nodes cursor := update_of_ne hne _ _
  refine ⟨rfl, rfl, rfl, rfl, rfl, ?_, ?_, ?_, ?_, ?_⟩
  · intro u
    by_cases huc : u = cursor
    · subst huc
      simp [touchChild, hcursor]
    · by_cases hun : u = node
      · subst hun
        simp [touchChild, update_of_ne huc]
      · simp [touchChild, update_of_ne huc, update_of_ne hun]
  · intro u
    by_cases huc : u = cursor
    · subst huc
      simp [touchChild, hne]
    · by_cases hun : u = node
      · subst hun
        simp [touchChild, update_of_ne huc]
      · simp [touchChild, update_of_ne huc, hun]
  · intro u huc
    by_cases hun : u = node
    · subst hun
      simp [touchChild, update_of_ne huc]
    · simp [touchChild, update_of_ne huc, update_of_ne hun]
  · simp [touchChild, hcursor]
  · refine ⟨update t.nodes node { t.nodes node with freq := (t.nodes node).freq + 1 },
      by simp [touchChild], fun u => ?_⟩
    by_cases huc : u = cursor
    · subst huc
      simp [touchChild]
    · simp [touchChild, update_of_ne huc]

namespace Touched

variable {t' : Trie}

theorem live (ha : Touched t t' cursor node) {u : Nat} : t'.Live u ↔ t.Live u := by
  rw [Live, ha.root, ha.lru]
  rfl

theorem childNodes_eq (ha : Touched t t' cursor node) (u : Nat) :
    t'.childNodes u = t.childNodes u := by
  rw [childNodes, (ha.fields u).1]
  rfl

variable (h : Inv c t) (hlive : t.Live cursor) (hnode : node ∈ t.childNodes cursor)

include h hlive hnode

theorem notMem_childNodes {u : Nat} (hu : t.Live u) (huc : u ≠ cursor) : node ∉ t.childNodes u := by
  intro hmem
  obtain ⟨e, he, rfl⟩ := List.mem_map.mp hnode
  obtain ⟨f, hf, heq⟩ := List.mem_map.mp hmem
  have hparent := ((h.node u hu).child f hf).2.1
  rw [heq, ((h.node cursor hlive).child e he).2.1] at hparent
  exact huc hparent.symm

theorem nodeOk (ha : Touched t t' cursor node) {u : Nat} (hu : t'.Live u) : NodeOk t' u := by
  have hold := ha.live.mp hu
  have hok := h.node u hold
  refine ⟨by rw [(ha.fields u).1]; exact hok.keys, ?_, ?_, ?_, ?_⟩
  · intro e he
    rw [(ha.fields u).1] at he
    rw [ha.lru, (ha.fields e.2).2.1, (ha.fields e.2).2.2.1]
    exact hok.child e he
  · rw [ha.childNodes_eq]
    by_cases huc : u = cursor
    · subst huc
      rw [ha.childLru]
      exact (List.perm_cons_erase (hok.lru.mem_iff.mpr hnode)).symm.trans hok.lru
    · rw [(ha.orders u huc).1]
      exact hok.lru
  · rw [ha.childNodes_eq]
    by_cases huc : u = cursor
    · subst huc
      obtain ⟨nodes, hsorted, _⟩ := ha.sorted
      have hnodup := hok.sorted.nodup_iff.mpr hok.childNodes_nodup
      rw [hsorted, eraseSorted_eq hnodup]
      exact ((insertSorted_perm _ _).trans
        (List.perm_cons_erase (hok.sorted.mem_iff.mpr hnode)).symm).trans hok.sorted
    · rw [(ha.orders u huc).2]
      exact hok.sorted
  · by_cases huc : u = cursor
    · subst huc
      obtain ⟨nodes, hsorted, hnodes⟩ := ha.sorted
      have hnodup := hok.sorted.nodup_iff.mpr hok.childNodes_nodup
      rw [hsorted, eraseSorted_eq hnodup]
      have hkept : ∀ y ∈ (t.nodes u).sortedChildren.erase node,
          (nodes y).freq = (t.nodes y).freq ∧ (nodes y).token = (t.nodes y).token := by
        intro y hy
        have hne : y ≠ node := fun heq => List.Nodup.not_mem_erase hnodup (heq ▸ hy)
        rw [(hnodes y).1, (hnodes y).2, ha.freq, (ha.fields y).2.1, if_neg hne]
        exact ⟨rfl, rfl⟩
      have hpair := insertSorted_pairwise (List.Nodup.not_mem_erase hnodup)
        (pairwise_less_congr hkept (hok.ordered.sublist List.erase_sublist))
      exact pairwise_less_congr (fun y _ => ⟨(hnodes y).1.symm, (hnodes y).2.symm⟩) hpair
    · rw [(ha.orders u huc).2]
      refine pairwise_less_congr (fun y hy => ?_) hok.ordered
      have hne : y ≠ node := fun heq => notMem_childNodes h hlive hnode hold huc
        (heq ▸ hok.sorted.mem_iff.mp hy)
      rw [ha.freq, (ha.fields y).2.1, if_neg hne]
      exact ⟨rfl, rfl⟩

theorem childFreq_eq (ha : Touched t t' cursor node) {u : Nat} (hu : t.Live u) :
    t'.childFreq u = t.childFreq u + if u = cursor then 1 else 0 := by
  rw [childFreq, ha.childNodes_eq]
  by_cases huc : u = cursor
  · subst huc
    rw [if_pos rfl]
    exact sum_map_bump (h.node u hu).childNodes_nodup hnode (by rw [ha.freq, if_pos rfl])
      fun y _ hy => by rw [ha.freq, if_neg hy, Nat.add_zero]
  · rw [if_neg huc, Nat.add_zero, childFreq]
    refine congrArg List.sum (List.map_congr_left fun y hy => ?_)
    have hne : y ≠ node := fun heq => notMem_childNodes h hlive hnode hu huc (heq ▸ hy)
    rw [ha.freq, if_neg hne, Nat.add_zero]

/-- Counting a child keeps the invariant when the cursor's count leaves room for it. -/
theorem inv (ha : Touched t t' cursor node)
    (hroom : cursor = t.root ∨ t.childFreq cursor + 1 ≤ (t.nodes cursor).freq)
    (hne : cursor ≠ node) : Inv c t' where
  pool := by
    rw [ha.root, ha.lru, freeNodes, ha.free, ha.pool]
    exact h.pool
  node u hu := nodeOk h hlive hnode ha hu
  parent v hv := by
    rw [ha.lru] at hv
    rw [(ha.fields v).2.1, (ha.fields v).2.2.1, (ha.fields _).1]
    exact ⟨ha.live.mpr (h.parent v hv).1, (h.parent v hv).2⟩
  order := by
    rw [ha.lru]
    exact h.order.imp fun hab => by rwa [(ha.fields _).2.2.1]
  freq u hu := by
    rw [ha.lru] at hu
    have hroot := h.root_notMem
    have hle := h.freq u hu
    rw [childFreq_eq h hlive hnode ha (.inr hu), ha.freq]
    by_cases huc : u = cursor
    · subst huc
      rw [if_pos rfl, if_neg hne]
      rcases hroom with rfl | hroom
      · exact absurd hu hroot
      · exact hroom
    · rw [if_neg huc]
      omega

end Touched

end TouchChild

/-- `Spells t v path`: the child maps lead from the root to `v` along `path`. -/
inductive Spells (t : Trie) : Nat → List Int → Prop where
  | root : Spells t t.root []
  | child {u v : Nat} {path : List Int} {token : Int} (h : Spells t u path)
      (hchild : (token, v) ∈ (t.nodes u).child) : Spells t v (path ++ [token])

section Spells

variable {c : TrieConfig} {t t' : Trie}

variable {v : Nat}

theorem Spells.live (h : Inv c t) {path : List Int} (hs : t.Spells v path) : t.Live v := by
  induction hs with
  | root => exact .inl rfl
  | child _ hchild ih => exact .inr ((h.node _ ih).child _ hchild).1

/-- Where every child of a live node stays a child, paths stay paths. -/
theorem Spells.mono (h : Inv c t) (hroot : t'.root = t.root)
    (hchild : ∀ u, t.Live u → ∀ e ∈ (t.nodes u).child, e ∈ (t'.nodes u).child)
    {path : List Int} (hs : t.Spells v path) : t'.Spells v path := by
  induction hs with
  | root =>
      rw [← hroot]
      exact .root
  | child hu hmem ih => exact .child ih (hchild _ (hu.live h) _ hmem)

theorem Spells.unique (h : Inv c t) {p q : List Int} (hp : t.Spells v p)
    (hq : t.Spells v q) : p = q := by
  induction hp generalizing q with
  | root =>
      generalize hr : t.root = r at hq
      cases hq with
      | root => rfl
      | child hu hchild =>
          exact absurd ((h.node _ (hu.live h)).child _ hchild).1 (hr ▸ h.root_notMem)
  | @child u v p token hu hchild ih =>
      have hv := (h.node _ (hu.live h)).child _ hchild
      cases hq with
      | root => exact absurd hv.1 h.root_notMem
      | @child u' _ p' token' hu' hchild' =>
          have hv' := (h.node _ (hu'.live h)).child _ hchild'
          obtain rfl : u = u' := hv.2.1.symm.trans hv'.2.1
          obtain rfl : token = token' := hv.2.2.symm.trans hv'.2.2
          rw [ih hu']

theorem Spells.node_unique (h : Inv c t) {u : Nat} {p : List Int} (hu : t.Spells u p)
    (hv : t.Spells v p) : u = v := by
  induction hu generalizing v with
  | root =>
      generalize hp : ([] : List Int) = p at hv
      cases hv with
      | root => rfl
      | child => simp at hp
  | @child u' u p token hu hchild ih =>
      generalize hq : p ++ [token] = q at hv
      cases hv with
      | root => simp at hq
      | @child v' _ p' token' hv' hchild' =>
          obtain rfl : p = p' := List.append_inj_left' hq rfl
          obtain rfl : token = token' := by simpa using hq
          obtain rfl := ih hv'
          have hok := h.node _ (hu.live h)
          exact Option.some.inj ((hok.findChild_eq_some.mpr hchild).symm.trans
            (hok.findChild_eq_some.mpr hchild'))

theorem Spells.parent (h : Inv c t) {p : List Int} {token : Int}
    (hv : t.Spells v (p ++ [token])) : t.Spells (t.nodes v).parent p := by
  generalize hq : p ++ [token] = q at hv
  cases hv with
  | root => simp at hq
  | @child u _ p' token' hu hchild =>
      obtain rfl : p = p' := List.append_inj_left' hq rfl
      rw [((h.node _ (hu.live h)).child _ hchild).2.1]
      exact hu

/-- Every live node is spelled: the order of `global_lru_` leads back to the root. -/
theorem Inv.exists_spells (h : Inv c t) {u : Nat} (hu : t.Live u) : ∃ p, t.Spells u p := by
  rcases hu with rfl | hu
  · exact ⟨[], .root⟩
  · have key : ∀ front back, t.globalLru = front ++ back → ∀ v ∈ front, ∃ p, t.Spells v p := by
      intro front
      induction front using List.reverseRecOn with
      | nil => simp
      | append_singleton front w ih =>
          intro back heq v hv
          rw [List.append_assoc] at heq
          rcases List.mem_append.mp hv with hv | hv
          · exact ih _ heq v hv
          · rw [List.mem_singleton.mp hv]
            have hw : w ∈ t.globalLru := by
              rw [heq]
              simp
            obtain ⟨hlive, hne, hentry⟩ := h.parent w hw
            -- The parent is the root or stands in front of `w`.
            have hparent : ∃ p, t.Spells (t.nodes w).parent p := by
              rcases hlive with hroot | hmem
              · rw [hroot]
                exact ⟨[], .root⟩
              · have horder := h.order
                rw [heq, List.pairwise_append, List.singleton_append, List.pairwise_cons] at horder
                rw [heq, List.mem_append, List.singleton_append, List.mem_cons] at hmem
                rcases hmem with hmem | hmem | hmem
                · exact ih _ heq _ hmem
                · exact absurd hmem hne
                · exact absurd rfl (horder.2.1.1 _ hmem)
            obtain ⟨p, hp⟩ := hparent
            exact ⟨_, .child hp hentry⟩
    exact key t.globalLru [] (by simp) u hu

end Spells

/-- What happens to a trie between two resets: versions only grow and a node keeps
its path as long as it keeps its version. -/
structure Evolves (t t' : Trie) : Prop where
  root : t'.root = t.root
  epoch : t'.trieEpoch = t.trieEpoch
  version : ∀ u, (t.nodes u).version ≤ (t'.nodes u).version
  path : ∀ u p, t.Spells u p → (t'.nodes u).version = (t.nodes u).version → t'.Spells u p

theorem Evolves.refl (t : Trie) : Evolves t t :=
  ⟨rfl, rfl, fun _ => Nat.le_refl _, fun _ _ h _ => h⟩

theorem Evolves.trans {t t' t'' : Trie} (h : Evolves t t') (h' : Evolves t' t'') :
    Evolves t t'' where
  root := h'.root.trans h.root
  epoch := h'.epoch.trans h.epoch
  version u := Nat.le_trans (h.version u) (h'.version u)
  path u p hp hv := by
    have hle := h.version u
    have hle' := h'.version u
    exact h'.path u p (h.path u p hp (by omega)) (by omega)

end Trie

end SpecDecode.Ngram
