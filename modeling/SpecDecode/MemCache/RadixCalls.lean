import SpecDecode.MemCache.RadixInvariant

/-!
# Calls of the radix cache

The loops of `match_prefix`, `insert` and the lock operations over the primitive steps.
`Inv` holds after every call, with the lock counts of the locks that are held, and every
loop ends. A search keeps what the tree stores; an insertion adds the pages that are
missing.
-/

namespace SpecDecode.MemCache

open Function RadixTree

namespace RadixCache

variable {σ : Type} {c : CacheParams} {s s' : RadixCache σ} {live live' : Finset Nat}
variable {locks : List Nat}

open Classical in
/-- The number of held locks whose node lies in the subtree of `v`. -/
noncomputable def lockCount (c : CacheParams) (s : RadixCache σ) (locks : List Nat) (v : Nat) :
    Nat :=
  locks.countP fun w => Under (view c s) s.rootNode v w

structure Inv (c : CacheParams) (s : RadixCache σ) (locks : List Nat) (live : Finset Nat) :
    Prop where
  book : Book c s (s.lockCount c locks) live
  held : ∀ w ∈ locks, w = s.rootNode ∨ w ∈ live

structure Keeps (c : CacheParams) (s s' : RadixCache σ) (live live' : Finset Nat) : Prop where
  rootNode : s'.rootNode = s.rootNode
  live_subset : live ⊆ live'
  entry : ∀ p b, Entry (view c s') s.rootNode p b ↔ Entry (view c s) s.rootNode p b
  spells : ∀ v p, Spells (view c s) s.rootNode v p → Spells (view c s') s.rootNode v p
  slots : s'.slots live' = s.slots live

theorem Keeps.trans {s'' : RadixCache σ} {live'' : Finset Nat} (h : Keeps c s s' live live')
    (h' : Keeps c s' s'' live' live'') : Keeps c s s'' live live'' where
  rootNode := h'.rootNode.trans h.rootNode
  live_subset := h.live_subset.trans h'.live_subset
  entry p b := by
    have hentry := h'.entry p b
    rw [h.rootNode] at hentry
    exact hentry.trans (h.entry p b)
  spells v p hp := by
    have hspells := h'.spells v p
    rw [h.rootNode] at hspells
    exact hspells (h.spells v p hp)
  slots := h'.slots.trans h.slots

theorem SameShape.keeps (h : SameShape s s') (live : Finset Nat) : Keeps c s s' live live where
  rootNode := h.rootNode
  live_subset := Finset.Subset.refl _
  entry p b := by rw [h.view_eq]
  spells v p hp := by rwa [h.view_eq]
  slots := h.slots_eq live

theorem Book.congr_held {held held' : Nat → Nat} (h : Book c s held live)
    (heq : ∀ v ∈ live, held' v = held v) : Book c s held' live :=
  { h with lock := fun v hv => by rw [heq v hv, h.lock v hv] }

theorem lockCount_congr {v v' : Nat} (hunder : ∀ w ∈ locks,
    Under (view c s') s'.rootNode v' w ↔ Under (view c s) s.rootNode v w) :
    s'.lockCount c locks v' = s.lockCount c locks v := by
  classical
  refine List.countP_congr fun w hw => ?_
  simpa using hunder w hw

theorem Inv.sameTree (h : Inv c s locks live) (hs : SameTree s s') : Inv c s' locks live where
  book := (h.book.sameTree hs).congr_held fun v _ => lockCount_congr fun w _ => by
    rw [hs.view_eq, hs.rootNode]
  held w hw := by
    rw [hs.rootNode]
    exact h.held w hw

section Split

variable {child n now : Nat}

theorem Inv.splitNode (hps : 0 < c.pageSize) (h : Inv c s locks live) (hchild : child ∈ live)
    (hn : 0 < n) (hlt : n < ((s.nodes child).key.syms c.pageSize).length) (now : Nat) :
    (s.splitNode c child (n * c.pageSize) now).1 = s.counter ∧
      Inv c (s.splitNode c child (n * c.pageSize) now).2 locks (Insert.insert s.counter live) ∧
      Keeps c s (s.splitNode c child (n * c.pageSize) now).2 live (Insert.insert s.counter live) ∧
      ((s.splitNode c child (n * c.pageSize) now).2.nodes s.counter).value =
        (s.nodes child).value.take (n * c.pageSize) ∧
      ∀ u a q, Spells (view c s) s.rootNode u q → (view c s u).child a = some child →
        Spells (view c (s.splitNode c child (n * c.pageSize) now).2) s.rootNode s.counter
          (q ++ ((s.nodes child).key.syms c.pageSize).take n) := by
  obtain ⟨u, hu, hparent, hedge⟩ := h.book.parent_lookup hps hchild
  have hfresh := h.book.counter_fresh
  have huc : u ≠ child := fun heq => h.book.wf.parent_ne hchild (heq ▸ hparent)
  have hunew : u ≠ s.counter := Nat.ne_of_lt (h.book.fresh _ hu)
  have hcnew : child ≠ s.counter := Nat.ne_of_lt (h.book.fresh _ (.inr hchild))
  obtain ⟨hnew, hs⟩ := splitNode_at hparent huc hunew hcnew (n * c.pageSize)
  generalize s.splitNode c child (n * c.pageSize) now = r at hnew hs ⊢
  have hsplit := hs.split hps h.book hchild hn hlt hu hedge
  have hbook := hs.book hps h.book hchild hn hlt hu hedge
  refine ⟨hnew, ⟨hbook.congr_held ?_, ?_⟩, ?_, hs.newValue, ?_⟩
  · intro v hv
    have hunder : ∀ v w, w ∈ locks → (Under (view c r.2) s.rootNode v w ↔
        Under (view c s) s.rootNode v w ∨ v = s.counter ∧ Under (view c s) s.rootNode child w) :=
      fun v w hw => hsplit.under_iff h.book.wf (h.held w hw)
    rcases Finset.mem_insert.mp hv with rfl | hv
    · rw [update_self]
      refine lockCount_congr fun w hw => ?_
      rw [hs.rootNode, hunder s.counter w hw]
      have hnot : ¬ Under (view c s) s.rootNode s.counter w := by
        rintro ⟨l, hl, hmem⟩
        exact hfresh.2 (h.book.wf.chain_live hl (h.held w hw) _ hmem)
      simp [hnot]
    · have hne : v ≠ s.counter := fun heq => hfresh.2 (heq ▸ hv)
      rw [update_of_ne hne]
      refine lockCount_congr fun w hw => ?_
      rw [hs.rootNode, hunder v w hw]
      simp [hne]
  · intro w hw
    rw [hs.rootNode]
    exact (h.held w hw).imp_right Finset.mem_insert_of_mem
  · refine ⟨hs.rootNode, Finset.subset_insert _ _, fun p b => hsplit.entry_iff h.book.wf,
      fun v p hp => hsplit.spells h.book.wf hp, hs.slots_eq h.book hchild⟩
  · intro u' a q hq hchild'
    have hparent' := (h.book.wf.child _ _ _ (h.book.wf.spells_live hq) hchild').2.1
    obtain rfl : u = u' := Option.some.inj (hparent.symm.trans hparent')
    exact hsplit.spells_new h.book.wf hq

end Split

section Search

variable {node child fuel : Nat} {key : RadixKey} {q : List ChildKey}

theorem Book.child_step {held : Nat → Nat} (hps : 0 < c.pageSize) (h : Book c s held live)
    (hnode : node = s.rootNode ∨ node ∈ live) (hkey : key.Aligned c.pageSize) (hpos : 0 < key.len)
    (hlookup : (s.nodes node).children.lookup (key.childKey c.pageSize) = some child) :
    child ∈ live ∧ (key.syms c.pageSize).head? = some (key.childKey c.pageSize) ∧
      0 < commonPrefixLen ((s.nodes child).key.syms c.pageSize) (key.syms c.pageSize) ∧
      (s.nodes child).key.matchLen key c.pageSize =
        commonPrefixLen ((s.nodes child).key.syms c.pageSize) (key.syms c.pageSize) *
          c.pageSize :=
  h.paged.child_step hps hnode hkey hpos hlookup

theorem Book.flatten_vals {held : Nat → Nat} (h : Book c s held live) {v : Nat} (hv : v ∈ live) :
    ((view c s v).vals).flatten = (s.nodes v).value := by
  refine flatten_pages ?_
  rw [h.values v hv]
  exact h.aligned v hv

theorem Book.flatten_take_vals {held : Nat → Nat} (h : Book c s held live) {v n : Nat}
    (hv : v ∈ live) (hn : n ≤ ((s.nodes v).key.syms c.pageSize).length) :
    ((view c s v).vals.take n).flatten = (s.nodes v).value.take (n * c.pageSize) :=
  h.paged.flatten_take_vals hv hn

theorem RadixKey.rest_spec {ps n : Nat} (hkey : key.Aligned ps) (hps : 0 < ps) (hn : 0 < n)
    (hle : n ≤ (key.syms ps).length) :
    (key.slice (n * ps) key.len).Aligned ps ∧
      (key.slice (n * ps) key.len).len = key.len - n * ps ∧ 0 < n * ps ∧ n * ps ≤ key.len := by
  have hlen : (key.slice (n * ps) key.len).len = key.len - n * ps := by
    rw [RadixKey.len_slice, Nat.min_self]
  have hmul := Nat.mul_le_mul_right ps hle
  rw [hkey.len_eq] at hmul
  refine ⟨?_, hlen, Nat.mul_pos hn hps, hmul⟩
  rw [RadixKey.Aligned, hlen]
  exact Nat.dvd_sub hkey (Nat.dvd_mul_left _ _)

/-- What one step of a search gives: it has read `n` more pages, whose values are `bs`. -/
structure Advanced (c : CacheParams) (locks : List Nat) (s : RadixCache σ) (live : Finset Nat)
    (q : List ChildKey) (key : RadixKey) (n : Nat) (bs : List (List σ)) (r : Nat × RadixCache σ)
    (live' : Finset Nat) : Prop where
  pos : 0 < n
  le : n ≤ (key.syms c.pageSize).length
  inv : Inv c r.2 locks live'
  keeps : Keeps c s r.2 live live'
  spells : Spells (view c r.2) s.rootNode r.1 (q ++ (key.syms c.pageSize).take n)
  length : bs.length = n
  entry : ∀ i b, bs[i]? = some b →
    Entry (view c s) s.rootNode (q ++ (key.syms c.pageSize).take (i + 1)) b
  values : (r.2.nodes r.1).value = bs.flatten

/-- One step of a search: go to the child, or to a new node in front of it. -/
theorem Inv.advance {s₁ : RadixCache σ} (hps : 0 < c.pageSize) (h : Inv c s locks live)
    (htouch : SameTree s s₁) (hq : Spells (view c s) s.rootNode node q)
    (hkey : key.Aligned c.pageSize) (hpos : 0 < key.len)
    (hlookup : (s.nodes node).children.lookup (key.childKey c.pageSize) = some child) (now : Nat) :
    ∃ n bs live', (s₁.nodes child).key.matchLen key c.pageSize = n * c.pageSize ∧
      Advanced c locks s live q key n bs
        (if n * c.pageSize < (s₁.nodes child).key.len then
          s₁.splitNode c child (n * c.pageSize) now else (child, s₁)) live' ∧
      (n * c.pageSize < (s₁.nodes child).key.len →
        Longest (view c s) s.rootNode q (key.syms c.pageSize) bs) := by
  have hnode := h.book.wf.spells_live hq
  have hedge : (view c s node).child (key.childKey c.pageSize) = some child := hlookup
  obtain ⟨hchild, hhead, hcommon, hmatch⟩ := h.book.child_step hps hnode hkey hpos hlookup
  have hlen := (h.book.aligned child hchild).len_eq
  have hle := commonPrefixLen_le ((s.nodes child).key.syms c.pageSize) (key.syms c.pageSize)
  have htake := take_commonPrefixLen ((s.nodes child).key.syms c.pageSize) (key.syms c.pageSize)
  have hinside : commonPrefixLen ((s.nodes child).key.syms c.pageSize) (key.syms c.pageSize) <
      ((s.nodes child).key.syms c.pageSize).length → Longest (view c s) s.rootNode q
        (key.syms c.pageSize) ((view c s child).vals.take (commonPrefixLen
          ((s.nodes child).key.syms c.pageSize) (key.syms c.pageSize))) := fun hlt =>
    .of_inside h.book.wf hq hedge hhead hlt
  generalize commonPrefixLen ((s.nodes child).key.syms c.pageSize) (key.syms c.pageSize) = n at *
  have hbs : ((view c s child).vals.take n).length = n := by
    rw [List.length_take, h.book.wf.vals child hchild]
    exact Nat.min_eq_left hle.1
  have hentry := Longest.entry_child h.book.wf hq hedge htake
  have hflat := h.book.flatten_take_vals hchild hle.1
  have h₁ := h.sameTree htouch
  rw [(htouch.nodes child).2.2.1]
  by_cases hlt : n * c.pageSize < (s.nodes child).key.len
  · have hlt' : n < ((s.nodes child).key.syms c.pageSize).length := by
      rw [← hlen] at hlt
      exact Nat.lt_of_mul_lt_mul_right hlt
    obtain ⟨hnew, hinv, hkeeps, hvalue, hspells⟩ :=
      h₁.splitNode hps hchild hcommon (by rw [(htouch.nodes child).2.2.1]; exact hlt') now
    refine ⟨n, _, Insert.insert s₁.counter live, hmatch, ?_, fun _ => hinside hlt'⟩
    rw [if_pos hlt]
    refine ⟨hcommon, hle.2, hinv, (htouch.keeps live).trans hkeeps, ?_, hbs, hentry, ?_⟩
    · have hspells := hspells node _ q (by rw [htouch.view_eq, htouch.rootNode]; exact hq)
        (by rw [htouch.view_eq]; exact hedge)
      rw [htouch.rootNode, (htouch.nodes child).2.2.1, htake] at hspells
      rw [hnew]
      exact hspells
    · rw [hnew, hvalue, (htouch.nodes child).2.2.2, hflat]
  · have hall : n = ((s.nodes child).key.syms c.pageSize).length := by
      apply Nat.le_antisymm hle.1
      apply Nat.le_of_mul_le_mul_right _ hps
      omega
    refine ⟨n, (view c s child).vals.take n, live, hmatch, ?_, fun hlt' => absurd hlt' hlt⟩
    rw [if_neg hlt]
    refine ⟨hcommon, hle.2, h₁, htouch.keeps live, ?_, hbs, hentry, ?_⟩
    · rw [htouch.view_eq, ← htake, hall, List.take_length]
      exact .child hq hedge
    · rw [hflat, hall, hlen, (htouch.nodes child).2.2.2,
        List.take_of_length_le (Nat.le_of_eq (h.book.values child hchild))]

/-- Nothing is stored any further where a search stops. -/
theorem Inv.longest_nil (hps : 0 < c.pageSize) (h : Inv c s locks live)
    (hq : Spells (view c s) s.rootNode node q) (hkey : key.Aligned c.pageSize)
    (hstop : 0 < key.len → (s.nodes node).children.lookup (key.childKey c.pageSize) = none) :
    Longest (view c s) s.rootNode q (key.syms c.pageSize) [] :=
  h.book.paged.longest_nil hps hq hkey hstop

theorem SameTree.touch (s : RadixCache σ) (node now : Nat) :
    SameTree s (s.updateNode node fun n => { n with lastAccessTime := now }) :=
  .updateNode s node (fun _ => ⟨rfl, rfl, rfl, rfl⟩) fun _ => rfl

/-- What a search returns: the values `bs` of the longest stored prefix and the node
whose path spells it. -/
structure MatchedAt (c : CacheParams) (locks : List Nat) (s : RadixCache σ) (live : Finset Nat)
    (q : List ChildKey) (key : RadixKey) (bs : List (List σ)) (r : MatchResult σ)
    (s' : RadixCache σ) (live' : Finset Nat) : Prop where
  inv : Inv c s' locks live'
  keeps : Keeps c s s' live live'
  longest : Longest (view c s) s.rootNode q (key.syms c.pageSize) bs
  values : r.deviceIndices = bs.flatten
  spells : Spells (view c s') s.rootNode r.lastDeviceNode
    (q ++ (key.syms c.pageSize).take bs.length)

theorem matchLoop_spec (now : Nat) (hps : 0 < c.pageSize) (h : Inv c s locks live)
    (hq : Spells (view c s) s.rootNode node q) (hkey : key.Aligned c.pageSize)
    (hfuel : key.len < fuel) :
    ∃ r s' live' bs, matchLoop c now fuel node key s = some (r, s') ∧
      MatchedAt c locks s live q key bs r s' live' := by
  induction fuel generalizing s live node key q with
  | zero => omega
  | succ fuel ih =>
      have hstay : (0 < key.len → (s.nodes node).children.lookup (key.childKey c.pageSize) = none) →
          MatchedAt c locks s live q key [] ⟨[], node⟩ s live := fun hstop =>
        ⟨h, (SameTree.refl s).keeps live, h.longest_nil hps hq hkey hstop, rfl, by simpa using hq⟩
      rw [matchLoop]
      split
      · next hpos =>
          cases hlookup : (s.nodes node).children.lookup (key.childKey c.pageSize) with
          | none => exact ⟨_, _, _, _, rfl, hstay fun _ => hlookup⟩
          | some child =>
              have htouch := SameTree.touch s child now
              simp only
              generalize s.updateNode child _ = s₁ at htouch ⊢
              obtain ⟨n, bs, live', hmatch, ha, hinside⟩ :=
                h.advance hps htouch hq hkey hpos hlookup now
              rw [hmatch]
              by_cases hlt : n * c.pageSize < (s₁.nodes child).key.len
              · rw [if_pos hlt] at ha ⊢
                refine ⟨_, _, live', bs, rfl, ha.inv, ha.keeps, hinside hlt, ha.values, ?_⟩
                rw [ha.length]
                exact ha.spells
              · rw [if_neg hlt] at ha ⊢
                obtain ⟨haligned, hlen, hmul, _⟩ := RadixKey.rest_spec hkey hps ha.pos ha.le
                have hspells : Spells (view c s₁) s₁.rootNode child
                    (q ++ (key.syms c.pageSize).take n) := by
                  rw [htouch.rootNode]
                  exact ha.spells
                obtain ⟨r, s₂, live₂, bs', hloop, hr⟩ := ih ha.inv hspells haligned (by omega)
                have hlongest := hr.longest
                have hlast := hr.spells
                rw [htouch.rootNode, RadixKey.syms_drop] at hlongest hlast
                rw [htouch.view_eq] at hlongest
                refine ⟨_, s₂, live₂, bs ++ bs', by rw [hloop]; rfl, hr.inv,
                  ha.keeps.trans hr.keeps, ?_, ?_, ?_⟩
                · exact .append (by rw [ha.length]; exact ha.le) ha.entry
                    (by rw [ha.length]; exact hlongest)
                · change (s₁.nodes child).value ++ r.deviceIndices = _
                  rw [hr.values, List.flatten_append, ← ha.values]
                · rw [List.length_append, ha.length, List.take_add, ← List.append_assoc]
                  exact hlast
      · next hpos => exact ⟨_, _, _, _, rfl, hstay fun hpos' => absurd hpos' hpos⟩

theorem SameTree.bump (s : RadixCache σ) (node : Nat) (priority : Int) (chunked : Bool) :
    SameTree s (s.updateNode node fun n =>
      incHitCount chunked { n with priority := max n.priority priority }) := by
  refine .updateNode s node (fun n => ?_) fun n => ?_
  · unfold incHitCount
    split <;> exact ⟨rfl, rfl, rfl, rfl⟩
  · unfold incHitCount
    split <;> rfl

structure InsertAt (c : CacheParams) (locks : List Nat) (s : RadixCache σ) (live : Finset Nat)
    (q : List ChildKey) (total : Nat) (key : RadixKey) (value : List σ) (bs : List (List σ))
    (p : InsertPoint σ) (live' : Finset Nat) : Prop where
  inv : Inv c p.cache locks live'
  keeps : Keeps c s p.cache live live'
  longest : Longest (view c s) s.rootNode q (key.syms c.pageSize) bs
  total : p.totalPrefixLength = total + bs.length * c.pageSize
  spells : Spells (view c p.cache) s.rootNode p.node (q ++ (key.syms c.pageSize).take bs.length)
  aligned : p.key.Aligned c.pageSize
  syms : p.key.syms c.pageSize = (key.syms c.pageSize).drop bs.length
  value : p.value = value.drop (bs.length * c.pageSize)
  free : 0 < p.key.len →
    (p.cache.nodes p.node).children.lookup (p.key.childKey c.pageSize) = none

theorem insertLoop_spec (priority : Int) (chunked : Bool) (now total : Nat) (value : List σ)
    (hps : 0 < c.pageSize) (h : Inv c s locks live)
    (hq : Spells (view c s) s.rootNode node q) (hkey : key.Aligned c.pageSize)
    (hfuel : key.len + 1 < fuel) :
    ∃ p live' bs, insertLoop c priority chunked now fuel ⟨total, node, key, value, s⟩ = some p ∧
      InsertAt c locks s live q total key value bs p live' := by
  induction fuel generalizing s live node key q total value with
  | zero => omega
  | succ fuel ih =>
      have hstay : (0 < key.len → (s.nodes node).children.lookup (key.childKey c.pageSize) = none) →
          InsertAt c locks s live q total key value [] ⟨total, node, key, value, s⟩ live :=
            fun hstop =>
        ⟨h, (SameTree.refl s).keeps live,
          h.longest_nil hps hq hkey hstop, by simp, by simpa using hq, hkey, rfl, by simp, hstop⟩
      rw [insertLoop]
      split
      · next hpos =>
          cases hlookup : (s.nodes node).children.lookup (key.childKey c.pageSize) with
          | none => exact ⟨_, _, _, rfl, hstay fun _ => hlookup⟩
          | some child =>
              have htouch := SameTree.touch s child now
              simp only
              generalize s.updateNode child _ = s₁ at htouch ⊢
              obtain ⟨n, bs, live', hmatch, ha, _⟩ := h.advance hps htouch hq hkey hpos hlookup now
              rw [hmatch]
              generalize (if n * c.pageSize < (s₁.nodes child).key.len then
                s₁.splitNode c child (n * c.pageSize) now else (child, s₁)) = r at ha ⊢
              obtain ⟨haligned, hlen, hmul, _⟩ := RadixKey.rest_spec hkey hps ha.pos ha.le
              have hbump := SameTree.bump r.2 r.1 priority chunked
              have hroot := hbump.rootNode.trans ha.keeps.rootNode
              have hspells : Spells (view c (r.2.updateNode r.1 fun n =>
                  incHitCount chunked { n with priority := max n.priority priority }))
                  (r.2.updateNode r.1 fun n =>
                    incHitCount chunked { n with priority := max n.priority priority }).rootNode r.1
                  (q ++ (key.syms c.pageSize).take n) := by
                rw [hroot, hbump.view_eq]
                exact ha.spells
              obtain ⟨p, live₂, bs', hloop, hp⟩ :=
                ih (total + n * c.pageSize) (value.drop (n * c.pageSize)) (ha.inv.sameTree hbump)
                  hspells haligned (by omega)
              have hkeeps := ha.keeps.trans (hbump.keeps live')
              refine ⟨p, live₂, bs ++ bs', hloop, hp.inv, hkeeps.trans hp.keeps, ?_, ?_, ?_,
                hp.aligned, ?_, ?_, hp.free⟩
              · have hlongest := hp.longest
                rw [hroot, RadixKey.syms_drop] at hlongest
                refine .append (by rw [ha.length]; exact ha.le) ha.entry ?_
                rw [ha.length]
                exact hlongest.congr hkeeps.entry
              · rw [hp.total, List.length_append, ha.length, Nat.add_mul, Nat.add_assoc]
              · have hlast := hp.spells
                rw [hroot, RadixKey.syms_drop] at hlast
                rw [List.length_append, ha.length, List.take_add, ← List.append_assoc]
                exact hlast
              · rw [hp.syms, RadixKey.syms_drop, List.drop_drop, List.length_append, ha.length]
              · rw [hp.value, List.drop_drop, List.length_append, ha.length, Nat.add_mul]
      · next hpos => exact ⟨_, _, _, rfl, hstay fun hpos' => absurd hpos' hpos⟩

end Search

section Calls

variable {key : RadixKey} {now : Nat}

/-- A key as the cache uses it: in the bigram view if that is on, and rounded down to
whole pages. -/
def alignedKey (c : CacheParams) (key : RadixKey) : RadixKey :=
  ((key.maybeToBigramView c.isEagle ([] : List Nat)).1).pageAligned c.pageSize

theorem maybeToBigramView_fst {τ υ : Type} (key : RadixKey) (isEagle : Bool) (value : List τ)
    (value' : List υ) :
    (key.maybeToBigramView isEagle value).1 = (key.maybeToBigramView isEagle value').1 := by
  unfold RadixKey.maybeToBigramView
  split <;> rfl

/-- The values are cut off behind the whole pages of a key, with or without the bigram view. -/
theorem take_maybeToBigramView {τ υ : Type} (key : RadixKey) (isEagle : Bool) (value : List τ)
    (value' : List υ) (ps : Nat) :
    (key.maybeToBigramView isEagle value).2.take
        ((key.maybeToBigramView isEagle value').1.pageAligned ps).len =
      value.take ((key.maybeToBigramView isEagle value').1.pageAligned ps).len := by
  unfold RadixKey.maybeToBigramView
  split
  · have hle : (RadixKey.pageAligned { key with isBigram := true } ps).len ≤
        RadixKey.len { key with isBigram := true } := by
      rw [RadixKey.len_pageAligned]
      exact Nat.div_mul_le_self _ _
    rw [List.take_take, Nat.min_eq_left hle]
  · rfl

theorem matchPrefix_spec (key : RadixKey) (now : Nat) (hps : 0 < c.pageSize)
    (hon : c.disable = false) (h : Inv c s locks live) :
    ∃ r s' live' bs, matchPrefix c key now s = some (r, s') ∧
      MatchedAt c locks s live [] (alignedKey c key) bs r s' live' := by
  have haligned : (alignedKey c key).Aligned c.pageSize := RadixKey.aligned_pageAligned _ _
  have hview : (key.maybeToBigramView c.isEagle ([] : List σ)).1 =
      (key.maybeToBigramView c.isEagle ([] : List Nat)).1 := maybeToBigramView_fst _ _ _ _
  have hempty : (alignedKey c key).len = 0 →
      MatchedAt c locks s live [] (alignedKey c key) [] ⟨[], s.rootNode⟩ s live := fun hzero =>
    ⟨h, (SameTree.refl s).keeps live, h.longest_nil hps .root haligned fun hpos => by omega, rfl,
      by simpa using Spells.root⟩
  unfold matchPrefix
  simp only [hon, hview, Bool.false_or, decide_eq_true_eq]
  split
  · next hzero =>
      refine ⟨_, _, _, _, rfl, hempty ?_⟩
      rw [alignedKey, RadixKey.len_pageAligned, hzero, Nat.zero_div, Nat.zero_mul]
  · split
    · next hzero => exact ⟨_, _, _, _, rfl, hempty hzero⟩
    · have htouch := SameTree.touch s s.rootNode now
      generalize s.updateNode s.rootNode _ = s₁ at htouch ⊢
      have hroot : Spells (view c s₁) s₁.rootNode s.rootNode [] := by
        rw [htouch.rootNode]
        exact .root
      obtain ⟨r, s', live', bs, hloop, hr⟩ := matchLoop_spec now hps (h.sameTree htouch)
        hroot haligned (Nat.lt_succ_self _)
      refine ⟨r, s', live', bs, hloop, hr.inv, (htouch.keeps live).trans hr.keeps, ?_,
        hr.values, ?_⟩
      · rw [← htouch.rootNode]
        exact hr.longest.congr fun p b => by rw [htouch.view_eq]
      · rw [← htouch.rootNode]
        exact hr.spells

/-- What `insert` does: the pages behind the longest stored prefix become a new leaf. -/
structure InsertedAt (c : CacheParams) (locks : List Nat) (s : RadixCache σ) (live : Finset Nat)
    (key : RadixKey) (value : List σ) (bs : List (List σ)) (s' : RadixCache σ)
    (live' : Finset Nat) : Prop where
  inv : Inv c s' locks live'
  rootNode : s'.rootNode = s.rootNode
  live_subset : live ⊆ live'
  longest : Longest (view c s) s.rootNode [] (key.syms c.pageSize) bs
  entry : ∀ p b, Entry (view c s') s.rootNode p b ↔ Entry (view c s) s.rootNode p b ∨
    ∃ i, bs.length ≤ i ∧ p = (key.syms c.pageSize).take (i + 1) ∧
      (pages c.pageSize value)[i]? = some b
  spells : ∀ v p, Spells (view c s) s.rootNode v p → Spells (view c s') s.rootNode v p
  slots : s'.slots live' = s.slots live + (value.drop (bs.length * c.pageSize) : List σ)

theorem Inv.leafAt (hps : 0 < c.pageSize) (h : Inv c s locks live) {u : Nat} {value : List σ}
    (hu : u = s.rootNode ∨ u ∈ live) (hkey : 0 < key.len) (haligned : key.Aligned c.pageSize)
    (hvalue : value.length = key.len)
    (hfree : (s.nodes u).children.lookup (key.childKey c.pageSize) = none)
    (hs : LeafAt c s s' u key value) : Inv c s' locks (Insert.insert s.counter live) := by
  have hadd := hs.addLeaf hps h.book hu hkey haligned hvalue hfree
  have hbook := hs.book hps h.book hu hkey haligned hvalue hfree
  have hfresh := h.book.counter_fresh
  refine ⟨hbook.congr_held fun v hv => ?_, fun w hw => ?_⟩
  · have hsame : s'.lockCount c locks v = s.lockCount c locks v := lockCount_congr fun w hw => by
      rw [hs.rootNode]
      exact hadd.under_iff h.book.wf (h.held w hw)
    rw [hsame]
    rcases Finset.mem_insert.mp hv with rfl | hv
    · rw [update_self, lockCount, List.countP_eq_zero]
      intro w hw hunder
      simp only [decide_eq_true_eq] at hunder
      obtain ⟨l, hl, hmem⟩ := hunder
      exact hfresh.2 (h.book.wf.chain_live hl (h.held w hw) _ hmem)
    · have hne : v ≠ s.counter := fun heq => hfresh.2 (heq ▸ hv)
      rw [update_of_ne hne]
  · rw [hs.rootNode]
    exact (h.held w hw).imp_right Finset.mem_insert_of_mem

theorem insertHelper_spec {value : List σ} {priority : Int} {chunked : Bool}
    (hps : 0 < c.pageSize) (h : Inv c s locks live) (hkey : key.Aligned c.pageSize)
    (hvalue : value.length = key.len) :
    ∃ s' live' bs, insertHelper c key value priority chunked now s =
        some (bs.length * c.pageSize, s') ∧
      InsertedAt c locks s live key value bs s' live' := by
  have htouch : SameTree s (s.updateNode s.rootNode fun n =>
      { n with lastAccessTime := now, priority := max n.priority priority }) :=
    .updateNode s _ (fun _ => ⟨rfl, rfl, rfl, rfl⟩) fun _ => rfl
  unfold insertHelper
  simp only
  generalize s.updateNode s.rootNode _ = s₁ at htouch ⊢
  have h₁ := h.sameTree htouch
  have hroot : Spells (view c s₁) s₁.rootNode s₁.rootNode [] := .root
  split
  · next hzero =>
      have hnil : value = [] := List.length_eq_zero_iff.mp (hvalue.trans hzero)
      refine ⟨s₁, live, [], by simp, h₁, htouch.rootNode, Finset.Subset.refl _, ?_, ?_, ?_, ?_⟩
      · exact h.longest_nil hps .root hkey fun hpos => by omega
      · intro p b
        rw [htouch.view_eq]
        simp [hnil, pages]
      · intro v p hp
        rwa [htouch.view_eq]
      · rw [htouch.slots_eq]
        simp [hnil]
  · obtain ⟨p, live', bs, hloop, hp⟩ := insertLoop_spec priority chunked now 0 value hps h₁
      hroot hkey (Nat.lt_succ_self _)
    have hkeeps := (htouch.keeps live).trans hp.keeps
    have hlongest : Longest (view c s) s.rootNode [] (key.syms c.pageSize) bs := by
      rw [← htouch.rootNode]
      exact hp.longest.congr fun p b => by rw [htouch.view_eq]
    have hspells := hp.spells
    rw [htouch.rootNode, List.nil_append, ← hkeeps.rootNode] at hspells
    have hlen : p.key.len = key.len - bs.length * c.pageSize := by
      rw [← hp.aligned.len_eq, hp.syms, List.length_drop, Nat.sub_mul, hkey.len_eq]
    have hvlen : p.value.length = p.key.len := by
      rw [hp.value, List.length_drop, hvalue, hlen]
    rw [hloop, Option.map_some, hp.total, Nat.zero_add]
    by_cases hrest : 0 < p.key.len
    · have hu := hp.inv.book.wf.spells_live hspells
      have hleaf : LeafAt c p.cache (insertLeaf c priority chunked now p) p.node p.key p.value :=
        insertLeaf_at c priority chunked now p.totalPrefixLength
          (Nat.ne_of_lt (hp.inv.book.fresh _ hu)) hrest
      have hadd := hleaf.addLeaf hps hp.inv.book hu hrest hp.aligned hvlen (hp.free hrest)
      refine ⟨_, _, bs, rfl, hp.inv.leafAt hps hu hrest hp.aligned hvlen (hp.free hrest) hleaf,
        hleaf.rootNode.trans hkeeps.rootNode,
        hkeeps.live_subset.trans (Finset.subset_insert _ _), hlongest, ?_, ?_, ?_⟩
      · intro w b
        have hentry := hadd.entry_iff hp.inv.book.wf hspells (p := w) (b := b)
        rw [hkeeps.rootNode] at hentry
        rw [hentry, hkeeps.entry, hp.syms, hp.value, pages_drop]
        refine or_congr_right ⟨?_, ?_⟩
        · rintro ⟨i, rfl, hget⟩
          rw [List.getElem?_drop] at hget
          exact ⟨bs.length + i, Nat.le_add_right _ _, by rw [← List.take_add, Nat.add_assoc], hget⟩
        · rintro ⟨i, hi, rfl, hget⟩
          refine ⟨i - bs.length, ?_, ?_⟩
          · rw [← List.take_add]
            congr 1
            omega
          · rw [List.getElem?_drop, Nat.add_sub_cancel' hi, hget]
      · intro v w hv
        have hspells := hadd.spells hp.inv.book.wf (v := v) (p := w)
        rw [hkeeps.rootNode] at hspells
        exact hspells (hkeeps.spells v w hv)
      · rw [hleaf.slots_eq hp.inv.book, hkeeps.slots, hp.value]
    · have hnone : insertLeaf c priority chunked now p = p.cache := by
        rw [insertLeaf, if_neg hrest]
      have hall : key.len ≤ bs.length * c.pageSize := by omega
      rw [hnone]
      refine ⟨_, live', bs, rfl, hp.inv, hkeeps.rootNode, hkeeps.live_subset, hlongest, ?_,
        hkeeps.spells, ?_⟩
      · intro w b
        rw [hkeeps.entry]
        refine ⟨.inl, fun hor => hor.resolve_right ?_⟩
        rintro ⟨i, hi, _, hget⟩
        have hlt := (List.getElem?_eq_some_iff.mp hget).1
        rw [length_pages, hvalue] at hlt
        have hle : key.len / c.pageSize ≤ bs.length :=
          Nat.div_le_of_le_mul (by rw [Nat.mul_comm]; exact hall)
        omega
      · rw [hkeeps.slots, List.drop_eq_nil_of_le (by omega)]
        simp

/-- `insert` ends and returns the length of the longest stored prefix. -/
theorem insert_spec (value : List σ) (priority : Int) (chunked : Bool) (now : Nat)
    (hps : 0 < c.pageSize) (hon : c.disable = false) (h : Inv c s locks live)
    (hvalue : (alignedKey c key).len ≤ value.length) :
    ∃ s' live' bs, insert c key value priority chunked now s = some (bs.length * c.pageSize, s') ∧
      InsertedAt c locks s live (alignedKey c key) (value.take (alignedKey c key).len) bs s'
        live' := by
  have hkey : ((key.maybeToBigramView c.isEagle value).1).pageAligned c.pageSize =
      alignedKey c key := by
    rw [alignedKey, maybeToBigramView_fst]
  have htake : (key.maybeToBigramView c.isEagle value).2.take (alignedKey c key).len =
      value.take (alignedKey c key).len := take_maybeToBigramView _ _ _ _ _
  unfold insert
  simp only [hon, Bool.false_eq_true, if_false, hkey, htake]
  exact insertHelper_spec hps h (RadixKey.aligned_pageAligned _ _)
    (by rw [List.length_take]; omega)

end Calls

section Locks

variable {held held' : Nat → Nat} {node fuel : Nat} {l : List Nat} {border d : Int}

/-- The lock count of a node of a chain goes from `m` to `m'`. -/
def Shift (border d : Int) (m m' : Nat) : Prop :=
  (m' : Int) = m + d ∧ ∀ len : Int, (if (m : Int) = border then d * len else 0) =
    (if m = 0 then len else 0) - if m' = 0 then len else 0

theorem shift_inc (m : Nat) : Shift 0 1 m (m + 1) := by
  refine ⟨by omega, fun len => ?_⟩
  rw [if_neg (Nat.succ_ne_zero m)]
  by_cases hm : m = 0 <;> simp [hm]

theorem shift_dec (m : Nat) : Shift 1 (-1) (m + 1) m := by
  refine ⟨by omega, fun len => ?_⟩
  rw [if_neg (Nat.succ_ne_zero m)]
  by_cases hm : m = 0 <;> simp [hm]

private theorem lockNode_evictableSize (border d : Int) (v : Nat) (s : RadixCache σ) :
    (lockNode border d v s).2.evictableSize = s.evictableSize - (lockNode border d v s).1 := by
  simp [lockNode, RadixCache.updateNode]

/-- The loop up to the root shifts the counts on the chain of the node. The chain is the
same in every round, since only lock counts change. -/
theorem lockLoop_spec (delta : Int) (h : Book c s held live)
    (hl : RadixTree.Chain (view c s) s.rootNode node l) (hlive : ∀ v ∈ l, v ∈ live)
    (hin : ∀ v ∈ l, Shift border d (held v) (held' v))
    (hout : ∀ v ∈ live, v ∉ l → held' v = held v) (hfuel : l.length < fuel) :
    ∃ delta' s', lockLoop border d fuel node delta s = some (delta', s') ∧ SameShape s s' ∧
      Book c s' held' live ∧ s'.evictableSize - s.evictableSize = delta' - delta := by
  induction l generalizing s held node delta fuel with
  | nil =>
      obtain ⟨fuel, rfl⟩ := Nat.exists_eq_succ_of_ne_zero (Nat.ne_of_gt hfuel)
      cases hl
      rw [lockLoop, if_pos rfl]
      refine ⟨delta, s, rfl, (SameTree.refl s).toSameShape, h.congr_held fun v hv => ?_, by omega⟩
      exact hout v hv (List.not_mem_nil)
  | cons v l ih =>
      obtain ⟨fuel, rfl⟩ := Nat.exists_eq_succ_of_ne_zero (Nat.ne_zero_of_lt hfuel)
      have hnodup := List.nodup_cons.mp hl.nodup
      cases hl with
      | @node _ u _ hv hparent hl =>
        have hshape := lockNode_shape border d v s
        have hbook := h.lockNode (hlive v List.mem_cons_self)
          (hin v List.mem_cons_self).1 (hin v List.mem_cons_self).2
        have hsize := lockNode_evictableSize border d v s
        have hparent : (s.nodes v).parent = some u := hparent
        simp only [lockLoop, if_neg hv, hparent]
        generalize RadixCache.lockNode border d v s = r at hshape hbook hsize ⊢
        rw [← hshape.view_eq (c := c), ← hshape.rootNode] at hl
        have hin' : ∀ w ∈ l, Shift border d (update held v (held' v) w) (held' w) := by
          intro w hw
          have hwv : w ≠ v := fun heq => hnodup.1 (heq ▸ hw)
          rw [update_of_ne hwv]
          exact hin w (List.mem_cons_of_mem _ hw)
        have hout' : ∀ w ∈ live, w ∉ l → held' w = update held v (held' v) w := by
          intro w hw hnot
          by_cases hwv : w = v
          · rw [hwv, update_self]
          · rw [update_of_ne hwv]
            exact hout w hw (by simp [hwv, hnot])
        obtain ⟨delta', s', hloop, hshape', hbook', hdelta⟩ := ih (delta - r.1) hbook hl
          (fun w hw => hlive w (List.mem_cons_of_mem _ hw)) hin' hout'
            (Nat.lt_of_succ_lt_succ hfuel)
        exact ⟨delta', s', hloop, hshape.trans hshape', hbook', by omega⟩

theorem lockCount_cons (hl : RadixTree.Chain (view c s) s.rootNode node l) (v : Nat) :
    s.lockCount c (node :: locks) v = s.lockCount c locks v + if v ∈ l then 1 else 0 := by
  classical
  rw [lockCount, List.countP_cons, lockCount]
  simp only [decide_eq_true_eq, hl.under_iff]

theorem lockCount_perm {locks' : List Nat} (hperm : locks.Perm locks') (v : Nat) :
    s.lockCount c locks v = s.lockCount c locks' v :=
  hperm.countP_eq _

/-- A shift of the counts on a chain that turns the locks `locks` into `locks'`. -/
theorem Inv.lockLoop {locks' : List Nat} (h : Inv c s locks live)
    (hl : RadixTree.Chain (view c s) s.rootNode node l) (hnode : node = s.rootNode ∨ node ∈ live)
    (hheld : ∀ w ∈ locks', w = s.rootNode ∨ w ∈ live)
    (hin : ∀ v ∈ l, Shift border d (s.lockCount c locks v) (s.lockCount c locks' v))
    (hout : ∀ v, v ∉ l → s.lockCount c locks' v = s.lockCount c locks v) :
    ∃ delta s', lockLoop border d (s.counter + 1) node 0 s = some (delta, s') ∧ SameShape s s' ∧
      Inv c s' locks' live ∧ s'.evictableSize = s.evictableSize + delta := by
  have hlive := h.book.wf.chain_live hl hnode
  obtain ⟨delta, s', hloop, hshape, hbook, hdelta⟩ := lockLoop_spec 0 h.book hl hlive hin
    (fun v _ => hout v) (Nat.lt_succ_of_le (h.book.paged.chain_length hl hnode))
  refine ⟨delta, s', hloop, hshape, ⟨hbook.congr_held fun v _ => ?_, ?_⟩, by omega⟩
  · exact lockCount_congr fun w _ => by rw [hshape.view_eq, hshape.rootNode]
  · rw [hshape.rootNode]
    exact hheld

theorem incLockRef_spec (hon : c.disable = false) (h : Inv c s locks live)
    (hnode : node = s.rootNode ∨ node ∈ live) :
    ∃ delta s', incLockRef c node s = some (delta, s') ∧ SameShape s s' ∧
      Inv c s' (node :: locks) live ∧ s'.evictableSize = s.evictableSize + delta := by
  obtain ⟨l, hl⟩ := h.book.wf.exists_chain hnode
  simp only [incLockRef, hon, Bool.false_eq_true, if_false]
  refine h.lockLoop hl hnode (fun w hw => ?_) (fun v hv => ?_) fun v hv => ?_
  · rcases List.mem_cons.mp hw with rfl | hw
    · exact hnode
    · exact h.held w hw
  · rw [lockCount_cons hl, if_pos hv]
    exact shift_inc _
  · rw [lockCount_cons hl, if_neg hv, Nat.add_zero]

theorem decLockRef_spec (hon : c.disable = false) (h : Inv c s locks live) (hnode : node ∈ locks) :
    ∃ delta s', decLockRef c node s = some (delta, s') ∧ SameShape s s' ∧
      Inv c s' (locks.erase node) live ∧ s'.evictableSize = s.evictableSize + delta := by
  obtain ⟨l, hl⟩ := h.book.wf.exists_chain (h.held node hnode)
  have hcount : ∀ v, s.lockCount c locks v =
      s.lockCount c (locks.erase node) v + if v ∈ l then 1 else 0 := fun v => by
    rw [lockCount_perm (List.perm_cons_erase hnode), lockCount_cons hl]
  simp only [decLockRef, hon, Bool.false_eq_true, if_false]
  refine h.lockLoop hl (h.held node hnode) (fun w hw => h.held w (List.mem_of_mem_erase hw))
    (fun v hv => ?_) fun v hv => ?_
  · rw [hcount, if_pos hv]
    exact shift_dec _
  · rw [hcount v, if_neg hv, Nat.add_zero]

end Locks

end RadixCache

end SpecDecode.MemCache
