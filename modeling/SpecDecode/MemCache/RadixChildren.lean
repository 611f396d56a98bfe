import SpecDecode.Lib.WeightedOrder
import SpecDecode.MemCache.RadixRun

/-!
# The children of a node

`children` is a dictionary: no key occurs twice, along every run. Its values are the children
of the node in the order of their insertion, and with them the nodes form a ranked tree.
-/

namespace SpecDecode.MemCache

variable {σ : Type}

def DictLike (children : List (ChildKey × Nat)) : Prop := (children.map Prod.fst).Nodup

theorem dictLike_nil : DictLike [] := List.nodup_nil

theorem dictLike_singleton (key : ChildKey) (node : Nat) : DictLike [(key, node)] :=
  List.nodup_singleton key

theorem map_fst_setChild (key : ChildKey) (node : Nat) (children : List (ChildKey × Nat)) :
    (setChild key node children).map Prod.fst =
      if key ∈ children.map Prod.fst then children.map Prod.fst
      else children.map Prod.fst ++ [key] := by
  induction children with
  | nil => rfl
  | cons entry rest ih =>
      obtain ⟨key', node'⟩ := entry
      rw [setChild]
      by_cases hkey : key' = key
      · subst hkey
        simp
      · rw [if_neg hkey, List.map_cons, ih, List.map_cons]
        have hne : key ≠ key' := fun heq => hkey heq.symm
        by_cases hmem : key ∈ rest.map Prod.fst
        · rw [if_pos hmem, if_pos (List.mem_cons_of_mem _ hmem)]
        · rw [if_neg hmem, if_neg (by simpa [hne] using hmem)]
          rfl

variable {children : List (ChildKey × Nat)}

theorem DictLike.setChild (h : DictLike children)
    (key : ChildKey) (node : Nat) : DictLike (setChild key node children) := by
  rw [DictLike, map_fst_setChild]
  split
  · exact h
  · next hmem =>
      refine List.nodup_append.mpr ⟨h, List.nodup_singleton key, ?_⟩
      rintro a ha b hb rfl
      exact hmem (List.mem_singleton.mp hb ▸ ha)

theorem DictLike.popChild (h : DictLike children)
    (key : ChildKey) : DictLike (popChild key children) :=
  List.Nodup.sublist (List.Sublist.map _ List.filter_sublist) h

theorem DictLike.mem_iff (h : DictLike children) {key : ChildKey} {node : Nat} :
    (key, node) ∈ children ↔ children.lookup key = some node := by
  induction children with
  | nil => simp
  | cons entry rest ih =>
      obtain ⟨key', node'⟩ := entry
      obtain ⟨hnot, hrest⟩ := List.nodup_cons.mp (show (key' :: rest.map Prod.fst).Nodup from h)
      rw [List.mem_cons, List.lookup_cons]
      by_cases hkey : key = key'
      · subst hkey
        have hmem : (key, node) ∉ rest := fun hin =>
          hnot (List.mem_map_of_mem (f := Prod.fst) hin)
        simp [hmem, eq_comm]
      · have hne : (key == key') = false := beq_eq_false_iff_ne.mpr hkey
        rw [hne, ih hrest]
        simp [hkey]

namespace RadixCache

variable {c : CacheParams} {s s' : RadixCache σ}

def childNodes (s : RadixCache σ) (v : Nat) : List Nat := (s.nodes v).children.map Prod.snd

def Dicts (nodes : Nat → TreeNode σ) : Prop := ∀ v, DictLike (nodes v).children

variable {nodes : Nat → TreeNode σ}

theorem Dicts.update (h : Dicts nodes) {v : Nat} {n : TreeNode σ} (hn : DictLike n.children) :
    Dicts (Function.update nodes v n) := by
  intro w
  by_cases hw : w = v
  · subst hw
    rwa [Function.update_self]
  · rw [Function.update_of_ne hw]
    exact h w

theorem Dicts.updateNode (h : Dicts s.nodes) {v : Nat} {f : TreeNode σ → TreeNode σ}
    (hf : ∀ n, DictLike n.children → DictLike (f n).children) : Dicts (s.updateNode v f).nodes :=
  h.update (hf _ (h v))

theorem Dicts.updateLeafStatus (h : Dicts s.nodes) (v : Nat) :
    Dicts (s.updateLeafStatus v).nodes := by
  unfold RadixCache.updateLeafStatus
  split <;> exact h

theorem Dicts.splitNode (h : Dicts s.nodes) (child splitLen now : Nat) :
    Dicts (s.splitNode c child splitLen now).2.nodes := by
  unfold RadixCache.splitNode
  simp only
  cases hparent : (s.nodes child).parent with
  | none =>
      refine Dicts.updateNode ?_ fun _ hn => hn
      exact h.update (dictLike_singleton _ _)
  | some parent =>
      refine Dicts.updateNode ?_ fun _ hn => DictLike.setChild hn _ _
      refine Dicts.updateNode ?_ fun _ hn => hn
      exact h.update (dictLike_singleton _ _)

variable {now : Nat} {priority : Int} {chunked : Bool}

theorem Dicts.matchLoop {fuel node : Nat} {key : RadixKey} {r : MatchResult σ}
    (h : Dicts s.nodes) (hloop : matchLoop c now fuel node key s = some (r, s')) :
    Dicts s'.nodes := by
  induction fuel generalizing node key r s with
  | zero => cases hloop
  | succ fuel ih =>
      rw [RadixCache.matchLoop] at hloop
      split at hloop
      · cases hlookup : (s.nodes node).children.lookup (key.childKey c.pageSize) with
        | none =>
            rw [hlookup] at hloop
            cases hloop
            exact h
        | some child =>
            have htouch : Dicts (s.updateNode child fun n =>
              { n with lastAccessTime := now }).nodes := h.updateNode fun _ hn => hn
            simp only [hlookup] at hloop
            split at hloop
            · cases hloop
              exact htouch.splitNode _ _ _
            · obtain ⟨⟨r', s₁⟩, hrest, heq⟩ := Option.map_eq_some_iff.mp hloop
              cases heq
              exact ih htouch hrest
      · cases hloop
        exact h

theorem Dicts.matchPrefix {key : RadixKey} {r : MatchResult σ} (h : Dicts s.nodes)
    (hmatch : matchPrefix c key now s = some (r, s')) : Dicts s'.nodes := by
  unfold RadixCache.matchPrefix at hmatch
  simp only at hmatch
  split at hmatch
  · cases hmatch
    exact h
  · split at hmatch
    · cases hmatch
      exact h
    · refine Dicts.matchLoop ?_ hmatch
      exact h.updateNode fun _ hn => hn

@[simp] theorem incHitCount_children (chunked : Bool) (n : TreeNode σ) :
    (incHitCount chunked n).children = n.children := by
  cases chunked <;> rfl

theorem Dicts.insertLoop {fuel : Nat} {p p' : InsertPoint σ}
    (h : Dicts p.cache.nodes) (hloop : insertLoop c priority chunked now fuel p = some p') :
    Dicts p'.cache.nodes := by
  induction fuel generalizing p with
  | zero => cases hloop
  | succ fuel ih =>
      obtain ⟨total, node, key, value, s⟩ := p
      rw [RadixCache.insertLoop] at hloop
      split at hloop
      · cases hlookup : (s.nodes node).children.lookup (key.childKey c.pageSize) with
        | none =>
            rw [hlookup] at hloop
            cases hloop
            exact h
        | some child =>
            have htouch : Dicts (s.updateNode child fun n =>
              { n with lastAccessTime := now }).nodes := Dicts.updateNode h fun _ hn => hn
            simp only [hlookup] at hloop
            refine ih ?_ hloop
            split
            · have hsplit := htouch.splitNode (c := c) child
                (((s.updateNode child fun n => { n with lastAccessTime := now }).nodes
                  child).key.matchLen key c.pageSize) now
              exact hsplit.updateNode fun n hn => (incHitCount_children chunked _).symm ▸ hn
            · exact htouch.updateNode fun n hn => (incHitCount_children chunked _).symm ▸ hn
      · cases hloop
        exact h

theorem Dicts.insertLeaf {p : InsertPoint σ}
    (h : Dicts p.cache.nodes) : Dicts (insertLeaf c priority chunked now p).nodes := by
  unfold RadixCache.insertLeaf
  split
  · refine Dicts.updateLeafStatus (Dicts.updateLeafStatus ?_ _) _
    have hnew : Dicts (Function.update p.cache.nodes p.cache.counter (incHitCount chunked
        { (TreeNode.new priority now : TreeNode σ) with
          parent := some p.node
          key := p.key
          value := p.value })) := h.update (by rw [incHitCount_children]; exact dictLike_nil)
    exact hnew.update ((hnew p.node).setChild _ _)
  · exact h

theorem Dicts.insert {key : RadixKey} {value : List σ} {n : Nat} (h : Dicts s.nodes)
    (hinsert : insert c key value priority chunked now s = some (n, s')) : Dicts s'.nodes := by
  unfold RadixCache.insert insertHelper at hinsert
  have htouch : Dicts (s.updateNode s.rootNode fun n =>
    { n with lastAccessTime := now, priority := max n.priority priority }).nodes :=
    h.updateNode fun _ hn => hn
  split at hinsert
  · cases hinsert
    exact h
  · simp only at hinsert
    split at hinsert
    · cases hinsert
      exact htouch
    · obtain ⟨p, hloop, heq⟩ := Option.map_eq_some_iff.mp hinsert
      cases heq
      exact (Dicts.insertLoop htouch hloop).insertLeaf

theorem Dicts.lockNode (h : Dicts s.nodes) (border d : Int) (node : Nat) :
    Dicts (lockNode border d node s).2.nodes := by
  unfold RadixCache.lockNode
  simp only
  refine Dicts.updateLeafStatus (Dicts.updateNode ?_ ?_) _
  · exact h
  · exact fun _ hn => hn

theorem Dicts.lockLoop {border d delta delta' : Int} {fuel node : Nat} (h : Dicts s.nodes)
    (hloop : lockLoop border d fuel node delta s = some (delta', s')) : Dicts s'.nodes := by
  induction fuel generalizing node delta s with
  | zero => cases hloop
  | succ fuel ih =>
      rw [RadixCache.lockLoop] at hloop
      split at hloop
      · cases hloop
        exact h
      · cases hparent : (s.nodes node).parent with
        | none => simp [hparent] at hloop
        | some parent =>
            simp only [hparent] at hloop
            exact ih (h.lockNode border d node) hloop

theorem Dicts.deleteLeaf {node : Nat} (h : Dicts s.nodes)
    (hdelete : deleteLeaf c node s = some s') : Dicts s'.nodes := by
  unfold RadixCache.deleteLeaf at hdelete
  cases hparent : (s.nodes node).parent with
  | none => simp [hparent] at hdelete
  | some parent =>
      simp only [hparent] at hdelete
      split at hdelete
      · cases hdelete
        exact Dicts.updateLeafStatus (h.update ((h parent).popChild _)) _
      · cases hdelete

theorem Dicts.evictLoop {numTokens : Nat} {victims : List Nat} {e e' : EvictState σ}
    (h : Dicts e.cache.nodes) (hloop : evictLoop c numTokens victims e = some e') :
    Dicts e'.cache.nodes := by
  induction victims generalizing e with
  | nil =>
      rw [RadixCache.evictLoop] at hloop
      split at hloop
      · cases hloop
      · cases hloop
        exact h
  | cons x victims ih =>
      rw [RadixCache.evictLoop] at hloop
      split at hloop
      · obtain ⟨e₁, hnode, hloop⟩ := Option.bind_eq_some_iff.mp hloop
        refine ih ?_ hloop
        unfold evictNode at hnode
        simp only at hnode
        split at hnode
        · obtain ⟨s₁, hdelete, hnode⟩ := Option.bind_eq_some_iff.mp hnode
          obtain ⟨parent, _, heq⟩ := Option.map_eq_some_iff.mp hnode
          cases heq
          exact h.deleteLeaf hdelete
        · cases hnode
      · cases hloop

theorem Dicts.call {k : Call σ} (h : Dicts s.nodes) (hexec : k.exec c s = some s') :
    Dicts s'.nodes := by
  cases k with
  | matchPrefix key now =>
      obtain ⟨⟨r, s₁⟩, hmatch, heq⟩ := Option.map_eq_some_iff.mp hexec
      exact heq ▸ h.matchPrefix hmatch
  | insert key value priority chunked now =>
      obtain ⟨⟨n, s₁⟩, hinsert, heq⟩ := Option.map_eq_some_iff.mp hexec
      exact heq ▸ h.insert hinsert
  | incLockRef node =>
      obtain ⟨⟨delta, s₁⟩, hinc, heq⟩ := Option.map_eq_some_iff.mp hexec
      rw [incLockRef] at hinc
      split at hinc
      · cases hinc
        exact heq ▸ h
      · exact heq ▸ h.lockLoop hinc
  | decLockRef node =>
      obtain ⟨⟨delta, s₁⟩, hdec, heq⟩ := Option.map_eq_some_iff.mp hexec
      rw [decLockRef] at hdec
      split at hdec
      · cases hdec
        exact heq ▸ h
      · exact heq ▸ h.lockLoop hdec
  | evict numTokens victims =>
      obtain ⟨⟨freed, s₁⟩, hevict, heq⟩ := Option.map_eq_some_iff.mp hexec
      rw [evict] at hevict
      split at hevict
      · split at hevict
        · cases hevict
          exact heq ▸ h
        · cases hevict
      · obtain ⟨e, hloop, he⟩ := Option.map_eq_some_iff.mp hevict
        cases he
        exact heq ▸ Dicts.evictLoop h hloop

theorem Run.dicts {locks : List Nat} {A : PrefixMap ChildKey (List σ)} (h : Run c s locks A) :
    Dicts s.nodes := by
  induction h with
  | new now => exact fun _ => dictLike_nil
  | call k _ _ hexec ih => exact ih.call hexec

open RadixTree WeightedOrder

variable {locks : List Nat} {live : Finset Nat} {v w : Nat}

theorem mem_childNodes (h : Dicts s.nodes) :
    w ∈ s.childNodes v ↔ ∃ a, (s.nodes v).children.lookup a = some w := by
  rw [childNodes, List.mem_map]
  constructor
  · rintro ⟨⟨a, w⟩, hmem, rfl⟩
    exact ⟨a, (h v).mem_iff.mp hmem⟩
  · rintro ⟨a, hlookup⟩
    exact ⟨(a, w), (h v).mem_iff.mpr hlookup, rfl⟩

theorem below_childNodes (h : Dicts s.nodes) : WeightedOrder.Below s.childNodes v w ↔
    s.InSubtree v w := by
  have heq : (fun u w => w ∈ s.childNodes u) =
      fun u w => ∃ a, (s.nodes u).children.lookup a = some w := by
    funext u w
    exact propext (mem_childNodes h)
  rw [WeightedOrder.Below, InSubtree, heq]

open Classical in
/-- How far a node is from the end of the numbering: the deeper, the less. -/
noncomputable def height (c : CacheParams) (s : RadixCache σ) (v : Nat) : Nat :=
  if h : ∃ l, RadixTree.Chain (view c s) s.rootNode v l then s.counter - h.choose.length else 0

theorem height_of_chain {l : List Nat} (hl : RadixTree.Chain (view c s) s.rootNode v l) :
    s.height c v = s.counter - l.length := by
  have hex : ∃ l, RadixTree.Chain (view c s) s.rootNode v l := ⟨l, hl⟩
  rw [height, dif_pos hex, hex.choose_spec.unique hl]

theorem height_lt_fuel : s.height c v < s.counter + 1 := by
  rw [height]
  split <;> omega

theorem Inv.ranked (h : Inv c s locks live) (hd : Dicts s.nodes) :
    Ranked s.childNodes s.InTree (s.height c) := by
  have hchild : ∀ {v w}, s.InTree v → w ∈ s.childNodes v →
      ∃ a, (v = s.rootNode ∨ v ∈ live) ∧ (view c s v).child a = some w ∧ w ∈ live ∧
        (s.nodes w).parent = some v ∧ (view c s w).label.head? = some a := by
    intro v w hv hw
    obtain ⟨a, ha⟩ := (mem_childNodes hd).mp hw
    have hmem := h.inTree_iff.mp hv
    obtain ⟨hlive, hparent, hhead⟩ := h.book.wf.child v a w hmem ha
    exact ⟨a, hmem, ha, hlive, hparent, hhead⟩
  refine ⟨fun hv hw => ?_, fun {v w} hv hw => ?_, fun {v} hv => ?_, fun {u v w} hu hv hwu hwv => ?_⟩
  · obtain ⟨a, _, _, hlive, _⟩ := hchild hv hw
    exact h.inTree_iff.mpr (.inr hlive)
  · obtain ⟨a, hmem, _, hlive, hparent, _⟩ := hchild hv hw
    obtain ⟨l, hl⟩ := h.book.wf.exists_chain hmem
    have hne : w ≠ s.rootNode := fun heq => h.book.wf.root_notMem (heq ▸ hlive)
    have hl' : RadixTree.Chain (view c s) s.rootNode w (w :: l) := .node hne hparent hl
    have hlen := h.book.paged.chain_length hl' (.inr hlive)
    rw [height_of_chain hl, height_of_chain hl', List.length_cons]
    rw [List.length_cons] at hlen
    omega
  · refine List.Nodup.map_on ?_ (List.Nodup.of_map _ (hd v))
    rintro ⟨a, w⟩ hw ⟨b, w'⟩ hw' rfl
    obtain ⟨_, _, hhead⟩ := h.book.wf.child v a w (h.inTree_iff.mp hv) ((hd v).mem_iff.mp hw)
    obtain ⟨_, _, hhead'⟩ := h.book.wf.child v b w (h.inTree_iff.mp hv) ((hd v).mem_iff.mp hw')
    rw [hhead] at hhead'
    rw [Option.some.inj hhead']
  · obtain ⟨_, _, _, _, hparent, _⟩ := hchild hu hwu
    obtain ⟨_, _, _, _, hparent', _⟩ := hchild hv hwv
    exact Option.some.inj (hparent.symm.trans hparent')

end RadixCache

end SpecDecode.MemCache
