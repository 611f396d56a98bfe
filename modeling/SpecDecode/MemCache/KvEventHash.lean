import SpecDecode.MemCache.KvEvents

/-!
# The hashes of the nodes

Each page of the tree is hashed behind the pages on the path to it, so the hash of a page is that
of a word. The hashes that a node carries are those of the words that end in it: a split divides
them with the key, and a new leaf goes on from its parent.
-/

namespace SpecDecode.MemCache

open Function RadixTree RadixCache

variable {σ H B : Type}

namespace BlockHash

variable (hash : BlockHash H B)

def chainEnd (prior : Option H) (pages : List (List KeyUnit)) : Option H :=
  pages.foldl (fun prior page => some (hash.hashPage page prior)) prior

def chain (w : List ChildKey) : List H := hash.hashPages none (w.map Prod.snd)

/-- The hash that names the block behind a word; there is none before the first page. -/
def blockHash (w : List ChildKey) : Option B :=
  (hash.chainEnd none (w.map Prod.snd)).map hash.toInt64

variable {hash} {prior : Option H} {p q : List (List KeyUnit)} {w : List ChildKey}

@[simp] theorem length_hashPages : (hash.hashPages prior p).length = p.length := by
  induction p generalizing prior with
  | nil => rfl
  | cons page p ih => rw [hashPages, List.length_cons, List.length_cons, ih]

@[simp] theorem length_chain : (hash.chain w).length = w.length := by
  rw [chain, length_hashPages, List.length_map]

theorem hashPages_append : hash.hashPages prior (p ++ q) =
    hash.hashPages prior p ++ hash.hashPages (hash.chainEnd prior p) q := by
  induction p generalizing prior with
  | nil => rfl
  | cons page p ih =>
      rw [List.cons_append, hashPages, hashPages, ih, List.cons_append]
      rfl

private theorem hashPages_take (n : Nat) :
    hash.hashPages prior (p.take n) = (hash.hashPages prior p).take n := by
  have happend : hash.hashPages prior (p.take n ++ p.drop n) = hash.hashPages prior (p.take n) ++
      hash.hashPages (hash.chainEnd prior (p.take n)) (p.drop n) := hashPages_append
  rw [List.take_append_drop] at happend
  by_cases hn : n ≤ p.length
  · have hlength : (hash.hashPages prior (p.take n)).length = n := by
      rw [length_hashPages, List.length_take, Nat.min_eq_left hn]
    rw [happend, List.take_left' hlength]
  · have hle := Nat.le_of_not_le hn
    rw [List.take_of_length_le hle, List.take_of_length_le (by rw [length_hashPages]; exact hle)]

theorem chain_take (n : Nat) : hash.chain (w.take n) = (hash.chain w).take n := by
  rw [chain, List.map_take, hashPages_take, chain]

theorem drop_chain_append (u : List ChildKey) : (hash.chain (w ++ u)).drop w.length =
    hash.hashPages (hash.chainEnd none (w.map Prod.snd)) (u.map Prod.snd) := by
  rw [chain, List.map_append, hashPages_append]
  exact List.drop_left' (by rw [length_hashPages, List.length_map])

theorem getLast?_hashPages (hp : p ≠ []) :
    (hash.hashPages prior p).getLast? = hash.chainEnd prior p := by
  obtain ⟨front, page, rfl⟩ := List.eq_nil_or_concat' p |>.resolve_left hp
  rw [hashPages_append, hashPages, hashPages, List.getLast?_concat, chainEnd, chainEnd,
    List.foldl_append]
  rfl

theorem getElem?_chain {i : Nat} (hi : i < w.length) :
    (hash.chain w)[i]? = hash.chainEnd none ((w.take (i + 1)).map Prod.snd) := by
  have hne : (w.take (i + 1)).map Prod.snd ≠ [] := by
    intro hnil
    have hlength := congrArg List.length hnil
    rw [List.length_map, List.length_take, List.length_nil] at hlength
    omega
  rw [← getLast?_hashPages hne, ← chain, chain_take, List.getLast?_eq_getElem?, List.length_take,
    length_chain, List.getElem?_take_of_lt (by omega)]
  congr 1
  omega

end BlockHash

theorem RadixKey.eventPages_eq {k : RadixKey} {ps : Nat} (hps : 0 < ps) (hk : k.Aligned ps) :
    k.eventPages ps = (k.syms ps).map Prod.snd := by
  obtain ⟨n, hn⟩ := hk
  have hpages : numPages ps k.len = k.units.length / ps := by
    rw [RadixKey.length_units, hn, Nat.mul_comm, numPages_mul hps, Nat.mul_div_cancel _ hps]
  rw [RadixKey.eventPages, RadixKey.syms, List.map_map, hpages]
  exact (List.map_id _).symm

namespace EventCache

variable {c : CacheParams} {hash : BlockHash H B} {e e' : EventCache σ H B}
variable {locks : List Nat} {live live' : Finset Nat}

/-- Every node carries the hashes of the words that end in it. -/
def Hashed (c : CacheParams) (hash : BlockHash H B) (e : EventCache σ H B) : Prop :=
  ∀ v w, Spells (view c e.cache) e.cache.rootNode v w → e.hashValue v =
    some ((hash.chain w).drop (w.length - ((e.cache.nodes v).key.syms c.pageSize).length))

theorem Hashed.sameShape (h : Hashed c hash e) (hshape : SameShape e.cache e'.cache)
    (hhash : e'.hashValue = e.hashValue) : Hashed c hash e' := by
  intro v w hw
  rw [hshape.view_eq, hshape.rootNode] at hw
  rw [hhash, (hshape.nodes v).2.2.1]
  exact h v w hw

theorem Hashed.splitNode {child n : Nat} (hps : 0 < c.pageSize) (h : Hashed c hash e)
    (hinv : Inv c e.cache locks live) (hchild : child ∈ live) (hn : 0 < n)
    (hlt : n < ((e.cache.nodes child).key.syms c.pageSize).length) (now : Nat) :
    Hashed c hash (e.splitNode c child (n * c.pageSize) now).2 := by
  obtain ⟨u, hu, hparent, hedge⟩ := hinv.book.parent_lookup hps hchild
  have huc : u ≠ child := fun heq => hinv.book.wf.parent_ne hchild (heq ▸ hparent)
  have hfresh := hinv.book.counter_fresh
  have hunew : u ≠ e.cache.counter := Nat.ne_of_lt (hinv.book.fresh _ hu)
  have hcnew : child ≠ e.cache.counter := Nat.ne_of_lt (hinv.book.fresh _ (.inr hchild))
  obtain ⟨hnew, hs⟩ : (e.cache.splitNode c child (n * c.pageSize) now).1 = e.cache.counter ∧
      SplitAt c e.cache (e.cache.splitNode c child (n * c.pageSize) now).2 u child
        (n * c.pageSize) := splitNode_at hparent huc hunew hcnew _
  obtain ⟨-, hinv', hkeeps, -, hspellsNew⟩ := hinv.splitNode hps hchild hn hlt now
  obtain ⟨q, hq⟩ := hinv.book.wf.exists_spells hu
  have hold : Spells (view c e.cache) e.cache.rootNode child
      (q ++ (e.cache.nodes child).key.syms c.pageSize) := .child hq hedge
  have hhash := h child _ hold
  rw [List.length_append, Nat.add_sub_cancel] at hhash
  have hpages : (if c.pageSize = 1 then n * c.pageSize else n * c.pageSize / c.pageSize) = n := by
    split
    · next hone => rw [hone, Nat.mul_one]
    · exact Nat.mul_div_cancel _ hps
  intro v w hw
  have hcache : (e.splitNode c child (n * c.pageSize) now).2.cache =
    (e.cache.splitNode c child (n * c.pageSize) now).2 := rfl
  have hvalue : (e.splitNode c child (n * c.pageSize) now).2.hashValue = update
      (update e.hashValue e.cache.counter ((e.hashValue child).map (·.take n))) child
      ((e.hashValue child).map (·.drop n)) := by
    rw [← hnew]
    simp only [EventCache.splitNode, splitNodeHashValue, hpages]
  rw [hcache] at hw ⊢
  rw [hvalue]
  have hroot := hs.rootNode
  generalize (e.cache.splitNode c child (n * c.pageSize) now).2 = s' at *
  rw [hroot] at hw
  have hwf' := hinv'.book.wf
  rw [hroot] at hwf'
  have hsame : ∀ v w', Spells (view c e.cache) e.cache.rootNode v w' →
      Spells (view c s') e.cache.rootNode v w → w' = w := fun v w' hw' hw =>
    hwf'.spells_unique (hkeeps.spells v w' hw') hw
  by_cases hvc : v = child
  · subst hvc
    obtain rfl := hsame v _ hold hw
    rw [update_self, hhash, hs.childKey, RadixKey.syms_drop, Option.map_some,
      List.length_append, List.length_drop, List.drop_drop]
    congr 2
    omega
  · rw [update_of_ne hvc]
    by_cases hvn : v = e.cache.counter
    · subst hvn
      have hwnew := hspellsNew u _ q hq hedge
      obtain rfl := hwf'.spells_unique hwnew hw
      rw [update_self, hhash, hs.newKey, RadixKey.syms_take, Option.map_some,
        List.length_append, Nat.add_sub_cancel, List.take_drop]
      congr 1
      rw [← BlockHash.chain_take, List.take_length_add_append]
    · have hlabel : (s'.nodes v).key = (e.cache.nodes v).key := by
        by_cases hvu : v = u
        · rw [hvu, hs.parentFields.2.1]
        · rw [hs.other v hvu hvn hvc]
      have hlive := (hwf'.spells_live hw).imp_right fun hmem =>
        (Finset.mem_insert.mp hmem).resolve_left hvn
      obtain ⟨w', hw'⟩ := hinv.book.wf.exists_spells hlive
      obtain rfl := hsame v w' hw' hw
      rw [update_of_ne hvn, hlabel]
      exact h v w' hw'

section Search

variable {node child fuel now : Nat} {key : RadixKey} {q : List ChildKey}

/-- `e.touch child now` has looked at a child. -/
def touch (e : EventCache σ H B) (child now : Nat) : EventCache σ H B :=
  e.updateNode child fun n => { n with lastAccessTime := now }

/-- The child, or a new node in front of it, as the loops go on. -/
def stepTo (c : CacheParams) (e : EventCache σ H B) (child prefixLen now : Nat) :
    Nat × EventCache σ H B :=
  if prefixLen < (e.cache.nodes child).key.len then e.splitNode c child prefixLen now
  else (child, e)

theorem Hashed.touch (h : Hashed c hash e) (child now : Nat) : Hashed c hash (e.touch child now) :=
  h.sameShape (SameTree.touch e.cache child now).toSameShape rfl

/-- One step of a search sends no events and goes where it goes without them. -/
theorem Hashed.stepTo (now : Nat) (hps : 0 < c.pageSize) (h : Hashed c hash e)
    (hinv : Inv c e.cache locks live)
    (hq : Spells (view c e.cache) e.cache.rootNode node q) (hkey : key.Aligned c.pageSize)
    (hpos : 0 < key.len)
    (hlookup : (e.cache.nodes node).children.lookup (key.childKey c.pageSize) = some child) :
    ∃ n live', 0 < n ∧ n ≤ (key.syms c.pageSize).length ∧
      ((e.touch child now).cache.nodes child).key.matchLen key c.pageSize = n * c.pageSize ∧
      Hashed c hash ((e.touch child now).stepTo c child (n * c.pageSize) now).2 ∧
      ((e.touch child now).stepTo c child (n * c.pageSize) now).2.kvEventQueue = e.kvEventQueue ∧
      Inv c ((e.touch child now).stepTo c child (n * c.pageSize) now).2.cache locks live' ∧
      Spells (view c ((e.touch child now).stepTo c child (n * c.pageSize) now).2.cache)
        ((e.touch child now).stepTo c child (n * c.pageSize) now).2.cache.rootNode
        ((e.touch child now).stepTo c child (n * c.pageSize) now).1
        (q ++ (key.syms c.pageSize).take n) := by
  obtain ⟨hchild, -, hcommon, hmatch⟩ :=
    hinv.book.child_step hps (hinv.book.wf.spells_live hq) hkey hpos hlookup
  have htouch : SameTree e.cache (e.touch child now).cache := SameTree.touch e.cache child now
  obtain ⟨n, bs, live', hlen, hadvanced, -⟩ := hinv.advance hps htouch hq hkey hpos hlookup now
  have hhashed := h.touch child now
  have hinv' := hinv.sameTree htouch
  have hfirst : (e.touch child now).stepTo c child (n * c.pageSize) now =
      if n * c.pageSize < ((e.touch child now).cache.nodes child).key.len then
        (e.touch child now).splitNode c child (n * c.pageSize) now
      else (child, e.touch child now) := rfl
  have hqueue : (e.touch child now).kvEventQueue = e.kvEventQueue := rfl
  refine ⟨n, live', hadvanced.pos, hadvanced.le, hlen, ?_⟩
  rw [hfirst]
  generalize e.touch child now = e₁ at *
  split
  · next hlt =>
      rw [if_pos hlt] at hadvanced
      have hlabel := (hinv'.book.aligned child hchild).len_eq
      rw [← hlabel] at hlt
      have hroot := hadvanced.keeps.rootNode
      refine ⟨hhashed.splitNode hps hinv' hchild hadvanced.pos
        (Nat.lt_of_mul_lt_mul_right hlt) now, hqueue, hadvanced.inv, ?_⟩
      have hspells := hadvanced.spells
      rw [← hroot] at hspells
      exact hspells
  · next hge =>
      rw [if_neg hge] at hadvanced
      have hroot := hadvanced.keeps.rootNode
      refine ⟨hhashed, hqueue, hadvanced.inv, ?_⟩
      have hspells := hadvanced.spells
      rw [← hroot] at hspells
      exact hspells

/-- The search of `_match_prefix_helper` goes as without events, and sends none. -/
theorem matchLoop_events {m : MatchResult σ} {s' : RadixCache σ} (hps : 0 < c.pageSize)
    (h : Hashed c hash e) (hinv : Inv c e.cache locks live)
    (hq : Spells (view c e.cache) e.cache.rootNode node q) (hkey : key.Aligned c.pageSize)
    (hloop : RadixCache.matchLoop c now fuel node key e.cache = some (m, s')) :
    ∃ e', e.matchLoop c now fuel node key = some (m, e') ∧ e'.cache = s' ∧
      e'.kvEventQueue = e.kvEventQueue ∧ Hashed c hash e' := by
  induction fuel generalizing e live node key m q with
  | zero => cases hloop
  | succ fuel ih =>
      rw [RadixCache.matchLoop] at hloop
      rw [EventCache.matchLoop]
      split at hloop
      · next hpos =>
          rw [if_pos hpos]
          cases hlookup : (e.cache.nodes node).children.lookup (key.childKey c.pageSize) with
          | none =>
              simp only [hlookup] at hloop ⊢
              obtain ⟨rfl, rfl⟩ := Prod.mk.inj (Option.some.inj hloop)
              exact ⟨e, rfl, rfl, rfl, h⟩
          | some child =>
              obtain ⟨n, live', hn, hle, hmatch, hhashed, hqueue, hinv', hspells⟩ :=
                h.stepTo now hps hinv hq hkey hpos hlookup
              have hcache : e.cache.updateNode child (fun n =>
                { n with lastAccessTime := now }) = (e.touch child now).cache := rfl
              have htouch : e.updateNode child (fun n =>
                { n with lastAccessTime := now }) = e.touch child now := rfl
              simp only [hlookup, hcache, htouch, hmatch] at hloop ⊢
              rw [EventCache.stepTo] at hhashed hqueue hinv' hspells
              split at hloop
              · next hlt =>
                  rw [if_pos hlt] at hhashed hqueue ⊢
                  obtain ⟨rfl, rfl⟩ := Prod.mk.inj (Option.some.inj hloop)
                  exact ⟨_, rfl, rfl, hqueue, hhashed⟩
              · next hge =>
                  rw [if_neg hge] at hhashed hqueue hinv' hspells ⊢
                  obtain ⟨⟨m', s₁⟩, hrest, heq⟩ := Option.map_eq_some_iff.mp hloop
                  obtain ⟨rfl, rfl⟩ := Prod.mk.inj heq
                  obtain ⟨haligned, -⟩ := RadixKey.rest_spec hkey hps hn hle
                  obtain ⟨e', hrun, hcache', hqueue', hhashed'⟩ :=
                    ih hhashed hinv' hspells haligned hrest
                  refine ⟨e', ?_, hcache', hqueue'.trans hqueue, hhashed'⟩
                  rw [hrun]
                  rfl
      · next hpos =>
          rw [if_neg hpos]
          obtain ⟨rfl, rfl⟩ := Prod.mk.inj (Option.some.inj hloop)
          exact ⟨e, rfl, rfl, rfl, h⟩

def EventPoint.toPoint (p : EventPoint σ H B) : InsertPoint σ :=
  ⟨p.totalPrefixLength, p.node, p.key, p.value, p.events.cache⟩

theorem insertLoop_events {priority : Int} {chunked : Bool} {total : Nat} {value : List σ}
    {p' : InsertPoint σ} (hps : 0 < c.pageSize) (h : Hashed c hash e)
    (hinv : Inv c e.cache locks live) (hq : Spells (view c e.cache) e.cache.rootNode node q)
    (hkey : key.Aligned c.pageSize)
    (hloop : RadixCache.insertLoop c priority chunked now fuel ⟨total, node, key, value, e.cache⟩ =
      some p') :
    ∃ p, insertLoop c priority chunked now fuel ⟨total, node, key, value, e⟩ = some p ∧
      p.toPoint = p' ∧ p.events.kvEventQueue = e.kvEventQueue ∧ Hashed c hash p.events := by
  induction fuel generalizing e live node key q total value with
  | zero => cases hloop
  | succ fuel ih =>
      rw [RadixCache.insertLoop] at hloop
      rw [EventCache.insertLoop]
      split at hloop
      · next hpos =>
          rw [if_pos hpos]
          cases hlookup : (e.cache.nodes node).children.lookup (key.childKey c.pageSize) with
          | none =>
              simp only [hlookup] at hloop ⊢
              obtain rfl := Option.some.inj hloop
              exact ⟨_, rfl, rfl, rfl, h⟩
          | some child =>
              obtain ⟨n, live', hn, hle, hmatch, hhashed, hqueue, hinv', hspells⟩ :=
                h.stepTo now hps hinv hq hkey hpos hlookup
              have hcache : e.cache.updateNode child (fun n =>
                { n with lastAccessTime := now }) = (e.touch child now).cache := rfl
              have htouch : e.updateNode child (fun n =>
                { n with lastAccessTime := now }) = e.touch child now := rfl
              simp only [hlookup, hcache, htouch, hmatch] at hloop ⊢
              have hstep : (if n * c.pageSize < ((e.touch child now).cache.nodes child).key.len then
                  (e.touch child now).splitNode c child (n * c.pageSize) now
                else (child, e.touch child now)) =
                  (e.touch child now).stepTo c child (n * c.pageSize) now := rfl
              have hbase : (if n * c.pageSize < ((e.touch child now).cache.nodes child).key.len then
                  (e.touch child now).cache.splitNode c child (n * c.pageSize) now
                else (child, (e.touch child now).cache)) =
                  (((e.touch child now).stepTo c child (n * c.pageSize) now).1,
                    ((e.touch child now).stepTo c child (n * c.pageSize) now).2.cache) := by
                rw [EventCache.stepTo]
                split <;> rfl
              rw [hbase] at hloop
              rw [hstep]
              generalize (e.touch child now).stepTo c child (n * c.pageSize) now = r at *
              obtain ⟨haligned, -⟩ := RadixKey.rest_spec hkey hps hn hle
              have hbump := SameTree.bump r.2.cache r.1 priority chunked
              have hspells' := hspells
              rw [← hbump.view_eq (c := c), ← hbump.rootNode] at hspells'
              obtain ⟨p, hrun, hpoint, hqueue', hhashed'⟩ := ih (e := r.2.updateNode r.1 fun n =>
                incHitCount chunked { n with priority := max n.priority priority })
                (hhashed.sameShape hbump.toSameShape rfl) (hinv'.sameTree hbump) hspells' haligned
                hloop
              exact ⟨p, hrun, hpoint, hqueue'.trans hqueue, hhashed'⟩
      · next hpos =>
          rw [if_neg hpos]
          obtain rfl := Option.some.inj hloop
          exact ⟨_, rfl, rfl, rfl, h⟩

end Search

theorem Hashed.lastHash {v : Nat} {w : List ChildKey} (h : Hashed c hash e)
    (hinv : Inv c e.cache locks live) (hw : Spells (view c e.cache) e.cache.rootNode v w) :
    (e.hashValue v).bind List.getLast? = hash.chainEnd none (w.map Prod.snd) := by
  rw [h v w hw, Option.bind_some]
  cases hw with
  | root =>
      rw [List.length_nil, Nat.zero_sub, List.drop_zero]
      rfl
  | @child u _ p a hu hchild =>
      obtain ⟨hlive, -, -⟩ := hinv.book.wf.child u a v (hinv.book.wf.spells_live hu) hchild
      have hlabel : (e.cache.nodes v).key.syms c.pageSize ≠ [] := hinv.book.wf.label_ne_nil hlive
      have hpos := List.length_pos_of_ne_nil hlabel
      change ((hash.chain (p ++ (e.cache.nodes v).key.syms c.pageSize)).drop _).getLast? =
        hash.chainEnd none ((p ++ (e.cache.nodes v).key.syms c.pageSize).map Prod.snd)
      have hne : (p ++ (e.cache.nodes v).key.syms c.pageSize).map Prod.snd ≠ [] := by
        simpa using fun _ => hlabel
      rw [List.getLast?_drop, if_neg, BlockHash.chain, BlockHash.getLast?_hashPages hne]
      rw [BlockHash.length_chain, not_le]
      change (p ++ (e.cache.nodes v).key.syms c.pageSize).length - _ < _
      rw [List.length_append]
      omega

section Leaf

variable {u : Nat} {key : RadixKey} {value : List σ} {q : List ChildKey} {s' : RadixCache σ}

theorem Hashed.addLeaf (hps : 0 < c.pageSize) (h : Hashed c hash e)
    (hinv : Inv c e.cache locks live)
    (hq : Spells (view c e.cache) e.cache.rootNode u q) (hpos : 0 < key.len)
    (haligned : key.Aligned c.pageSize) (hvalue : value.length = key.len)
    (hfree : (e.cache.nodes u).children.lookup (key.childKey c.pageSize) = none)
    (hs : LeafAt c e.cache s' u key value) (events : List (KvEvent B)) :
    Hashed c hash ⟨s', update e.hashValue e.cache.counter (some (hash.hashPages
      (hash.chainEnd none (q.map Prod.snd)) ((key.syms c.pageSize).map Prod.snd))), events⟩ := by
  have hu := hinv.book.wf.spells_live hq
  have hadd := hs.addLeaf hps hinv.book hu hpos haligned hvalue hfree
  have hwf' := hadd.wf hinv.book.wf
  intro v w hw
  simp only at hw ⊢
  rw [hs.rootNode] at hw
  by_cases hv : v = e.cache.counter
  · subst hv
    obtain rfl := hwf'.spells_unique (hadd.spells_new hinv.book.wf hq) hw
    rw [update_self, hs.new.2.2.1, List.length_append, Nat.add_sub_cancel,
      BlockHash.drop_chain_append]
  · have hlive := (hwf'.spells_live hw).imp_right fun hmem =>
      (Finset.mem_insert.mp hmem).resolve_left hv
    have hold := (hadd.spells_iff hinv.book.wf hlive).mp hw
    have hlabel : (s'.nodes v).key = (e.cache.nodes v).key := by
      by_cases hvu : v = u
      · rw [hvu, hs.parentFields.2.1]
      · rw [hs.other v hvu hv]
    rw [update_of_ne hv, hlabel]
    exact h v w hold

end Leaf

end EventCache

end SpecDecode.MemCache
