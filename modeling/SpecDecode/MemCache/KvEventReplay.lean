import SpecDecode.MemCache.KvEventHash
import SpecDecode.MemCache.RadixEvict

/-!
# Replaying the events

A router replays the events and so knows blocks. After every call it knows the blocks of the pages
in the tree, as long as no page is evicted of which the tokens are cached under another extra key
as well: the hash of a page does not depend on the extra key.
-/

namespace SpecDecode.MemCache

open Function RadixTree RadixCache

variable {σ H B : Type}

def KvEvent.apply (known : Set B) : KvEvent B → Set B
  | .blockStored blockHash _ _ => Insert.insert blockHash known
  | .blockRemoved blockHash => known \ {blockHash}
  | .allBlocksCleared => ∅

def replay (events : List (KvEvent B)) : Set B := events.foldl KvEvent.apply ∅

theorem replay_append (events more : List (KvEvent B)) :
    replay (events ++ more) = more.foldl KvEvent.apply (replay events) :=
  List.foldl_append

/-- Every block is stored behind the one before it on its path, and that one is known. -/
def Placed (hash : BlockHash H B) (events : List (KvEvent B)) : Prop :=
  ∀ i b parent tokens, events[i]? = some (.blockStored b parent tokens) →
    ∃ w a, hash.blockHash (w ++ [a]) = some b ∧ tokens = a.2 ∧ parent = hash.blockHash w ∧
      ∀ pb, parent = some pb → pb ∈ replay (events.take i)

theorem Placed.append {hash : BlockHash H B} {events more : List (KvEvent B)}
    (h : Placed hash events)
    (hmore : ∀ i b parent tokens, more[i]? = some (.blockStored b parent tokens) →
      ∃ w a, hash.blockHash (w ++ [a]) = some b ∧ tokens = a.2 ∧ parent = hash.blockHash w ∧
        ∀ pb, parent = some pb → pb ∈ replay (events ++ more.take i)) :
    Placed hash (events ++ more) := by
  intro i b parent tokens hi
  by_cases hlt : i < events.length
  · rw [List.getElem?_append_left hlt] at hi
    rw [List.take_append_of_le_length hlt.le]
    exact h i b parent tokens hi
  · rw [List.getElem?_append_right (not_lt.mp hlt)] at hi
    rw [List.take_append, List.take_of_length_le (not_lt.mp hlt)]
    exact hmore _ b parent tokens hi

namespace BlockHash

variable {hash : BlockHash H B} {prior : Option H} {events : List (KvEvent B)}
variable {w u : List ChildKey}

def stored (hash : BlockHash H B) : Option H → List (List KeyUnit) → List (KvEvent B)
  | _, [] => []
  | prior, page :: pages =>
      .blockStored (hash.toInt64 (hash.hashPage page prior)) (prior.map hash.toInt64) page ::
        stored hash (some (hash.hashPage page prior)) pages

theorem storeEvents_eq (pages : List (List KeyUnit)) :
    hash.storeEvents (prior.map hash.toInt64) pages (hash.hashPages prior pages) =
      some (hash.stored prior pages) := by
  induction pages generalizing prior with
  | nil => rfl
  | cons page pages ih =>
      have hrest : hash.storeEvents ((some (hash.hashPage page prior)).map hash.toInt64) pages
          (hash.hashPages (some (hash.hashPage page prior)) pages) =
          some (hash.stored (some (hash.hashPage page prior)) pages) := ih
      rw [Option.map_some] at hrest
      rw [hashPages, storeEvents, hrest]
      rfl

theorem removeEvents_eq {pages : List (List KeyUnit)} {hashes : List H}
    (h : hashes.length = pages.length) :
    hash.removeEvents pages hashes = some (hashes.map fun h => .blockRemoved (hash.toInt64 h)) := by
  induction pages generalizing hashes with
  | nil =>
      rw [List.length_eq_zero_iff.mp h]
      rfl
  | cons page pages ih =>
      obtain ⟨x, hashes, rfl⟩ := List.exists_cons_of_length_eq_add_one h
      rw [removeEvents, ih (Nat.succ.inj h)]
      rfl

theorem foldl_removed (hashes : List H) (known : Set B) :
    (hashes.map fun h => (.blockRemoved (hash.toInt64 h) : KvEvent B)).foldl KvEvent.apply known =
      known \ {b | ∃ h ∈ hashes, hash.toInt64 h = b} := by
  induction hashes generalizing known with
  | nil => simp
  | cons x hashes ih =>
      rw [List.map_cons, List.foldl_cons, ih]
      ext b
      simp only [KvEvent.apply, Set.mem_sdiff, Set.mem_singleton_iff, Set.mem_ofPred_eq,
        List.mem_cons, exists_eq_or_imp, not_or, and_assoc, eq_comm (a := b)]

structure CollisionFree (hash : BlockHash H B) : Prop where
  hashPage : ∀ page prior page' prior', hash.hashPage page prior = hash.hashPage page' prior' →
    page = page' ∧ prior = prior'
  toInt64 : Function.Injective hash.toInt64

theorem chainEnd_concat (p : List (List KeyUnit)) (page : List KeyUnit) :
    hash.chainEnd prior (p ++ [page]) = some (hash.hashPage page (hash.chainEnd prior p)) := by
  rw [chainEnd, List.foldl_append]
  rfl

theorem CollisionFree.chainEnd_inj (h : hash.CollisionFree) {p q : List (List KeyUnit)}
    (heq : hash.chainEnd none p = hash.chainEnd none q) : p = q := by
  induction p using List.reverseRecOn generalizing q with
  | nil =>
      obtain rfl | ⟨q, page, rfl⟩ := List.eq_nil_or_concat' q
      · rfl
      · rw [chainEnd_concat] at heq
        cases heq
  | append_singleton p page ih =>
      obtain rfl | ⟨q, page', rfl⟩ := List.eq_nil_or_concat' q
      · rw [chainEnd_concat] at heq
        cases heq
      · rw [chainEnd_concat, chainEnd_concat, Option.some.injEq] at heq
        obtain ⟨rfl, hprior⟩ := h.hashPage _ _ _ _ heq
        rw [ih hprior]

theorem CollisionFree.pages_eq (h : hash.CollisionFree) {w w' : List ChildKey}
    (heq : hash.blockHash w = hash.blockHash w') : w.map Prod.snd = w'.map Prod.snd :=
  h.chainEnd_inj (Option.map_injective h.toInt64 heq)

theorem blockHash_congr (hash : BlockHash H B) {w w' : List ChildKey}
    (h : w.map Prod.snd = w'.map Prod.snd) : hash.blockHash w = hash.blockHash w' := by
  rw [blockHash, blockHash, h]

theorem blockHash_concat (w : List ChildKey) (a : ChildKey) : hash.blockHash (w ++ [a]) =
    some (hash.toInt64 (hash.hashPage a.2 (hash.chainEnd none (w.map Prod.snd)))) := by
  rw [blockHash, List.map_append, List.map_singleton, chainEnd_concat, Option.map_some]

theorem exists_blockHash (hash : BlockHash H B) {w : List ChildKey} (hw : w ≠ []) :
    ∃ b, hash.blockHash w = some b := by
  obtain ⟨w, a, rfl⟩ := List.eq_nil_or_concat' w |>.resolve_left hw
  exact ⟨_, blockHash_concat w a⟩

/-- Storing the pages `u` behind `w` makes their blocks known and keeps every block placed. -/
theorem replay_stored (hplaced : Placed hash events)
    (hknown : ∀ b, hash.blockHash w = some b → b ∈ replay events) :
    let all := events ++ hash.stored (hash.chainEnd none (w.map Prod.snd)) (u.map Prod.snd)
    Placed hash all ∧ ∀ b, b ∈ replay all ↔ b ∈ replay events ∨
      ∃ i < u.length, hash.blockHash (w ++ u.take (i + 1)) = some b := by
  induction u generalizing w events with
  | nil => simpa [stored] using hplaced
  | cons a u ih =>
      have hblock : hash.blockHash (w ++ [a]) =
          some (hash.toInt64 (hash.hashPage a.2 (hash.chainEnd none (w.map Prod.snd)))) :=
        blockHash_concat w a
      have hend : hash.chainEnd none ((w ++ [a]).map Prod.snd) =
          some (hash.hashPage a.2 (hash.chainEnd none (w.map Prod.snd))) := by
        rw [List.map_append, List.map_singleton, chainEnd_concat]
      have hstep : hash.stored (hash.chainEnd none (w.map Prod.snd)) ((a :: u).map Prod.snd) =
          [.blockStored (hash.toInt64 (hash.hashPage a.2 (hash.chainEnd none (w.map Prod.snd))))
            (hash.blockHash w) a.2] ++
          hash.stored (hash.chainEnd none ((w ++ [a]).map Prod.snd)) (u.map Prod.snd) := by
        rw [hend]
        rfl
      generalize hash.toInt64 (hash.hashPage a.2 (hash.chainEnd none (w.map Prod.snd))) = b₀ at *
      have hplaced' : Placed hash (events ++ [.blockStored b₀ (hash.blockHash w) a.2]) := by
        apply hplaced.append
        rintro (_ | i) b parent tokens hi
        · simp only [List.getElem?_cons_zero, Option.some.injEq, KvEvent.blockStored.injEq] at hi
          obtain ⟨rfl, rfl, rfl⟩ := hi
          refine ⟨w, a, hblock, rfl, rfl, ?_⟩
          rw [List.take_zero, List.append_nil]
          exact hknown
        · cases hi
      have hreplay : ∀ b, b ∈ replay (events ++ [.blockStored b₀ (hash.blockHash w) a.2]) ↔
          b ∈ replay events ∨ b = b₀ := fun b => by
        rw [replay_append, List.foldl_cons, List.foldl_nil, KvEvent.apply, Set.mem_insert_iff,
          or_comm]
      obtain ⟨hall, hmem⟩ := ih hplaced' (w := w ++ [a]) fun b hb => by
        rw [hblock, Option.some.injEq] at hb
        exact (hreplay b).mpr (.inr hb.symm)
      simp only at hall hmem ⊢
      rw [hstep, ← List.append_assoc]
      refine ⟨hall, fun b => ?_⟩
      rw [hmem, hreplay, or_assoc]
      refine or_congr_right ⟨?_, ?_⟩
      · rintro (rfl | ⟨i, hi, hb⟩)
        · exact ⟨0, Nat.succ_pos _, by rw [List.take_succ_cons, List.take_zero]; exact hblock⟩
        · refine ⟨i + 1, Nat.succ_lt_succ hi, ?_⟩
          rw [List.take_succ_cons, ← List.singleton_append, ← List.append_assoc]
          exact hb
      · rintro ⟨i, hi, hb⟩
        rw [List.take_succ_cons, ← List.singleton_append, ← List.append_assoc] at hb
        cases i with
        | zero =>
            rw [List.take_zero, List.append_nil, hblock, Option.some.injEq] at hb
            exact .inl hb.symm
        | succ i => exact .inr ⟨i, Nat.lt_of_succ_lt_succ hi, hb⟩

end BlockHash

namespace EventCache

variable {c : CacheParams} {hash : BlockHash H B} {e e' : EventCache σ H B}
variable {locks : List Nat} {live : Finset Nat} {key : RadixKey} {value : List σ}
variable {s' : RadixCache σ} {now : Nat}

theorem Hashed.parentHash {u : Nat} {q : List ChildKey} (hps : 0 < c.pageSize)
    (h : Hashed c hash e) (hinv : Inv c e.cache locks live)
    (hq : Spells (view c e.cache) e.cache.rootNode u q) :
    ((e.hashValue u).bind fun hashes =>
        if 0 < (e.cache.nodes u).key.len then hashes.getLast? else none) =
      hash.chainEnd none (q.map Prod.snd) ∧
    (if u = e.cache.rootNode then none
      else (e.hashValue u).bind fun hashes => hashes.getLast?.map hash.toInt64) =
      hash.blockHash q := by
  have hlast := h.lastHash hinv hq
  have hroot : u = e.cache.rootNode → q = [] := fun heq => by
    subst heq
    exact hinv.book.wf.spells_unique hq .root
  have hkey : u ∈ live → 0 < (e.cache.nodes u).key.len := hinv.book.paged.key_pos hps
  have hmap : ((e.hashValue u).bind fun hashes => hashes.getLast?.map hash.toInt64) =
      hash.blockHash q := by
    rw [BlockHash.blockHash, ← hlast]
    cases e.hashValue u <;> rfl
  constructor
  · by_cases hlen : 0 < (e.cache.nodes u).key.len
    · simpa only [if_pos hlen] using hlast
    · have hq' := hroot ((hinv.book.wf.spells_live hq).resolve_right fun hu => hlen (hkey hu))
      subst hq'
      simp only [if_neg hlen]
      cases e.hashValue u <;> rfl
  · split
    · next heq =>
        rw [hroot heq]
        rfl
    · exact hmap

private theorem recordStoreEvent_eq {node : Nat} {prior : Option H} {pages : List (List KeyUnit)}
    (hpages : (e.cache.nodes node).key.eventPages c.pageSize = pages)
    (hnode : e.nodeHashValue c hash node = hash.hashPages prior pages)
    (hparent : ((e.cache.nodes node).parent.bind fun parent =>
      if parent = e.cache.rootNode then none
      else (e.hashValue parent).bind fun hashes => hashes.getLast?.map hash.toInt64) =
        prior.map hash.toInt64) :
    recordStoreEvent c hash node e = some { e with
      hashValue := update e.hashValue node (some (hash.hashPages prior pages))
      kvEventQueue := e.kvEventQueue ++ hash.stored prior pages } := by
  simp only [recordStoreEvent, hpages, hnode, hparent, BlockHash.storeEvents_eq, Option.map_some]

theorem insertLeaf_events {p : EventPoint σ H B} {q : List ChildKey} (priority : Int)
    (chunked : Bool) (now : Nat) (hps : 0 < c.pageSize) (h : Hashed c hash p.events)
    (hinv : Inv c p.events.cache locks live)
    (hq : Spells (view c p.events.cache) p.events.cache.rootNode p.node q)
    (haligned : p.key.Aligned c.pageSize) (hvalue : p.value.length = p.key.len)
    (hfree : 0 < p.key.len →
      (p.events.cache.nodes p.node).children.lookup (p.key.childKey c.pageSize) = none) :
    ∃ e', insertLeaf c hash priority chunked now p = some e' ∧
      e'.cache = RadixCache.insertLeaf c priority chunked now p.toPoint ∧
      e'.kvEventQueue = p.events.kvEventQueue ++ hash.stored
        (hash.chainEnd none (q.map Prod.snd)) ((p.key.syms c.pageSize).map Prod.snd) ∧
      Hashed c hash e' := by
  by_cases hpos : 0 < p.key.len
  · have hu := hinv.book.wf.spells_live hq
    have hne : p.node ≠ p.events.cache.counter := Nat.ne_of_lt (hinv.book.fresh _ hu)
    have hs : LeafAt c p.events.cache (RadixCache.insertLeaf c priority chunked now p.toPoint)
        p.node p.key p.value := insertLeaf_at c priority chunked now p.totalPrefixLength hne hpos
    have hparent := h.parentHash hps hinv hq
    have hpages := RadixKey.eventPages_eq hps haligned
    rw [insertLeaf, if_pos hpos]
    change ∃ e', recordStoreEvent c hash p.events.cache.counter ⟨RadixCache.insertLeaf c priority
      chunked now p.toPoint, update p.events.hashValue p.events.cache.counter none,
      p.events.kvEventQueue⟩ = some e' ∧ _
    generalize RadixCache.insertLeaf c priority chunked now p.toPoint = s₁ at hs ⊢
    have hcompute : computeNodeHashValues c hash ⟨s₁, update p.events.hashValue
        p.events.cache.counter none, p.events.kvEventQueue⟩ p.events.cache.counter =
        hash.hashPages (hash.chainEnd none (q.map Prod.snd))
          ((p.key.syms c.pageSize).map Prod.snd) := by
      simp only [computeNodeHashValues, hs.new.2.1, hs.new.2.2.1, Option.bind_some, hpages,
        update_of_ne hne, hs.parentFields.2.1, hparent.1]
    refine ⟨_, recordStoreEvent_eq ?_ ?_ ?_, rfl, rfl, ?_⟩
    · simp only [hs.new.2.2.1, hpages]
    · simp only [nodeHashValue, update_self, Option.getD_none, hcompute]
    · simp only [hs.new.2.1, Option.bind_some, hs.rootNode, update_of_ne hne]
      exact hparent.2
    · rw [update_idem]
      exact h.addLeaf hps hinv hq hpos haligned hvalue (hfree hpos) hs _
  · have hnil := RadixKey.syms_eq_nil (Nat.eq_zero_of_not_pos hpos) c.pageSize
    refine ⟨p.events, by rw [insertLeaf, if_neg hpos], ?_, ?_, h⟩
    · rw [RadixCache.insertLeaf, EventPoint.toPoint, if_neg hpos]
    · rw [hnil, List.map_nil, BlockHash.stored, List.append_nil]

def treeBlocks (c : CacheParams) (hash : BlockHash H B) (s : RadixCache σ) : Set B :=
  {b | ∃ w page, Entry (view c s) s.rootNode w page ∧ hash.blockHash w = some b}

/-- `e.enter priority now` has come to the root. -/
def enter (e : EventCache σ H B) (priority : Int) (now : Nat) : EventCache σ H B :=
  e.updateNode e.cache.rootNode fun n =>
    { n with lastAccessTime := now, priority := max n.priority priority }

structure Sends (c : CacheParams) (hash : BlockHash H B) (e : EventCache σ H B)
    (s' : RadixCache σ) (events : List (KvEvent B)) (e' : EventCache σ H B) : Prop where
  cache : e'.cache = s'
  queue : e'.kvEventQueue = e.kvEventQueue ++ events
  hashed : Hashed c hash e'

theorem matchPrefix_events {m : MatchResult σ} (hps : 0 < c.pageSize) (hon : c.disable = false)
    (h : Hashed c hash e) (hinv : Inv c e.cache locks live)
    (hmatch : RadixCache.matchPrefix c key now e.cache = some (m, s')) :
    ∃ e', e.matchPrefix c key now = some (m, e') ∧ Sends c hash e s' [] e' := by
  have hview : (key.maybeToBigramView c.isEagle ([] : List σ)).1.pageAligned c.pageSize =
      alignedKey c key := by
    rw [alignedKey, maybeToBigramView_fst]
  have hstay : Sends c hash e e.cache [] e := ⟨rfl, (List.append_nil _).symm, h⟩
  unfold RadixCache.matchPrefix at hmatch
  unfold EventCache.matchPrefix
  simp only [hon, Bool.false_or, decide_eq_true_eq, hview] at hmatch ⊢
  split at hmatch
  · next hzero =>
      obtain ⟨rfl, rfl⟩ := Prod.mk.inj (Option.some.inj hmatch)
      rw [if_pos hzero]
      exact ⟨e, rfl, hstay⟩
  · next hzero =>
      rw [if_neg hzero]
      split at hmatch
      · next hempty =>
          obtain ⟨rfl, rfl⟩ := Prod.mk.inj (Option.some.inj hmatch)
          rw [if_pos hempty]
          exact ⟨e, rfl, hstay⟩
      · next hempty =>
          rw [if_neg hempty]
          have htouch : SameTree e.cache (e.touch e.cache.rootNode now).cache :=
            SameTree.touch e.cache e.cache.rootNode now
          obtain ⟨e', hrun, hcache, hqueue, hhashed⟩ := matchLoop_events hps
            (h.touch e.cache.rootNode now) (hinv.sameTree htouch) .root
            (RadixKey.aligned_pageAligned _ _) hmatch
          exact ⟨e', hrun, hcache, by rw [hqueue, List.append_nil]; rfl, hhashed⟩

theorem insert_events {priority : Int} {chunked : Bool} {n : Nat} (hps : 0 < c.pageSize)
    (hon : c.disable = false) (h : Hashed c hash e) (hinv : Inv c e.cache locks live)
    (hvalue : (alignedKey c key).len ≤ value.length)
    (hinsert : RadixCache.insert c key value priority chunked now e.cache = some (n, s')) :
    ∃ e' bs, e.insert c hash key value priority chunked now = some (n, e') ∧
      Longest (view c e.cache) e.cache.rootNode [] ((alignedKey c key).syms c.pageSize) bs ∧
      Sends c hash e s' (hash.stored
        (hash.chainEnd none ((((alignedKey c key).syms c.pageSize).take bs.length).map Prod.snd))
        ((((alignedKey c key).syms c.pageSize).drop bs.length).map Prod.snd)) e' := by
  have haligned : (alignedKey c key).Aligned c.pageSize := RadixKey.aligned_pageAligned _ _
  have hkey : ((key.maybeToBigramView c.isEagle value).1).pageAligned c.pageSize =
      alignedKey c key := by
    rw [alignedKey, maybeToBigramView_fst]
  have htake : (key.maybeToBigramView c.isEagle value).2.take (alignedKey c key).len =
      value.take (alignedKey c key).len := take_maybeToBigramView _ _ _ _ _
  have hlength : (value.take (alignedKey c key).len).length = (alignedKey c key).len :=
    List.length_take_of_le hvalue
  unfold RadixCache.insert RadixCache.insertHelper at hinsert
  unfold EventCache.insert EventCache.insertHelper
  simp only [hon, Bool.false_eq_true, if_false, hkey, htake] at hinsert ⊢
  generalize alignedKey c key = key' at *
  generalize value.take key'.len = value' at *
  have htouch : SameTree e.cache (e.enter priority now).cache :=
    SameTree.updateNode e.cache e.cache.rootNode
      (f := fun n => { n with lastAccessTime := now, priority := max n.priority priority })
      (fun _ => ⟨rfl, rfl, rfl, rfl⟩) fun _ => rfl
  have hhashed : Hashed c hash (e.enter priority now) := h.sameShape htouch.toSameShape rfl
  have hqueue : (e.enter priority now).kvEventQueue = e.kvEventQueue := rfl
  change (if key'.len = 0 then some (0, (e.enter priority now).cache) else
    ((RadixCache.insertLoop c priority chunked now (key'.len + 2) ⟨0, e.cache.rootNode, key',
      value', (e.enter priority now).cache⟩).map fun p =>
      (p.totalPrefixLength, RadixCache.insertLeaf c priority chunked now p))) =
    some (n, s') at hinsert
  change ∃ e' bs, (if key'.len = 0 then some (0, e.enter priority now) else
    (insertLoop c priority chunked now (key'.len + 2) ⟨0, e.cache.rootNode, key', value',
      e.enter priority now⟩).bind fun p =>
      (insertLeaf c hash priority chunked now p).map fun e => (p.totalPrefixLength, e)) =
    some (n, e') ∧ _
  generalize e.enter priority now = e₁ at *
  split at hinsert
  · next hzero =>
      obtain ⟨rfl, rfl⟩ := Prod.mk.inj (Option.some.inj hinsert)
      rw [if_pos hzero, RadixKey.syms_eq_nil hzero]
      refine ⟨e₁, [], rfl, ⟨Nat.le_refl _, by simp, fun hlt => absurd hlt (Nat.lt_irrefl _)⟩, rfl,
        ?_, hhashed⟩
      rw [hqueue]
      exact (List.append_nil _).symm
  · next hzero =>
      have hinv' := hinv.sameTree htouch
      have hroot : Spells (view c e₁.cache) e₁.cache.rootNode e.cache.rootNode [] := by
        rw [htouch.rootNode]
        exact .root
      obtain ⟨p', hloop, heq⟩ := Option.map_eq_some_iff.mp hinsert
      obtain ⟨rfl, rfl⟩ := Prod.mk.inj heq
      obtain ⟨p, hrun, hpoint, hqueue', hhashed'⟩ :=
        insertLoop_events hps hhashed hinv' hroot haligned hloop
      obtain ⟨p₂, live', bs, hloop', hp⟩ := insertLoop_spec priority chunked now 0 value' hps hinv'
        hroot haligned (Nat.lt_succ_self _)
      obtain rfl : p' = p₂ := Option.some.inj (hloop.symm.trans hloop')
      subst hpoint
      have hsyms : p.key.syms c.pageSize = (key'.syms c.pageSize).drop bs.length := hp.syms
      have haligned' : p.key.Aligned c.pageSize := hp.aligned
      have hrest : p.value = value'.drop (bs.length * c.pageSize) := hp.value
      have hlen : p.key.len = key'.len - bs.length * c.pageSize := by
        rw [← haligned'.len_eq, hsyms, List.length_drop, Nat.sub_mul, haligned.len_eq]
      have hvlen : p.value.length = p.key.len := by
        rw [hrest, List.length_drop, hlength, hlen]
      have hspells := hp.spells
      rw [List.nil_append, ← hp.keeps.rootNode] at hspells
      obtain ⟨e', hleaf, hcache, hevents, hhashed''⟩ := insertLeaf_events priority chunked now hps
        hhashed' hp.inv hspells haligned' hvlen hp.free
      rw [if_neg hzero, hrun, Option.bind_some, hleaf, Option.map_some]
      refine ⟨e', bs, rfl, ?_, hcache, ?_, hhashed''⟩
      · rw [← htouch.rootNode]
        exact hp.longest.congr fun w b => by rw [htouch.view_eq]
      · rw [hevents, hqueue', hqueue, hsyms]

def nodeBlocks (c : CacheParams) (hash : BlockHash H B) (s : RadixCache σ) (x : Nat) : Set B :=
  {b | ∃ w i, Reads (view c s) s.rootNode w x i ∧ hash.blockHash w = some b}

theorem Hashed.nodeBlocks {x : Nat} (hps : 0 < c.pageSize) (h : Hashed c hash e)
    (hinv : Inv c e.cache locks live) (hx : x ∈ live) :
    ∃ hashes, e.hashValue x = some hashes ∧
      hashes.length = ((e.cache.nodes x).key.eventPages c.pageSize).length ∧
      {b | ∃ a ∈ hashes, hash.toInt64 a = b} = nodeBlocks c hash e.cache x := by
  have hwf := hinv.book.wf
  obtain ⟨w, hw⟩ := hwf.exists_spells (.inr hx)
  obtain ⟨-, -, u, a, q, hu, hchild, hword⟩ :=
    hwf.reads_iff_spells.mp ((hwf.spells_iff_reads hx).mp hw)
  have hlabel : (view c e.cache x).label = (e.cache.nodes x).key.syms c.pageSize := rfl
  rw [hlabel, List.take_length] at hword
  subst hword
  have hhash := h x _ hw
  rw [List.length_append, Nat.add_sub_cancel] at hhash
  refine ⟨_, hhash, ?_, ?_⟩
  · rw [RadixKey.eventPages_eq hps (hinv.book.aligned x hx), List.length_map, List.length_drop,
      BlockHash.length_chain, List.length_append, Nat.add_sub_cancel_left]
  · have hblock : ∀ i < ((e.cache.nodes x).key.syms c.pageSize).length,
        hash.blockHash (q ++ ((e.cache.nodes x).key.syms c.pageSize).take (i + 1)) =
          ((hash.chain (q ++ (e.cache.nodes x).key.syms c.pageSize))[q.length + i]?).map
            hash.toInt64 := fun i hi => by
      rw [BlockHash.blockHash, BlockHash.getElem?_chain (by rw [List.length_append]; omega),
        Nat.add_assoc, List.take_length_add_append]
    ext b
    constructor
    · rintro ⟨y, hy, rfl⟩
      obtain ⟨i, hi⟩ := List.mem_iff_getElem?.mp hy
      rw [List.getElem?_drop] at hi
      have hlt := (List.getElem?_eq_some_iff.mp hi).1
      rw [BlockHash.length_chain, List.length_append] at hlt
      refine ⟨_, i + 1, hwf.reads_iff_spells.mpr
        ⟨Nat.succ_pos i, Nat.lt_of_add_lt_add_left hlt, u, a, q, hu, hchild, rfl⟩, ?_⟩
      rw [hlabel, hblock i (Nat.lt_of_add_lt_add_left hlt), hi]
      rfl
    · rintro ⟨p, i, hread, hb⟩
      obtain ⟨hpos, hle, u', a', q', hu', hchild', rfl⟩ := hwf.reads_iff_spells.mp hread
      have hsame := hwf.spells_unique hw (.child hu' hchild')
      obtain rfl : q = q' := List.append_cancel_right hsame
      obtain ⟨j, rfl⟩ : ∃ j, i = j + 1 := ⟨i - 1, by omega⟩
      rw [hlabel] at hb hle
      rw [hblock j hle] at hb
      obtain ⟨y, hy, rfl⟩ := Option.map_eq_some_iff.mp hb
      rw [← List.getElem?_drop] at hy
      exact ⟨y, List.mem_of_getElem? hy, rfl⟩

variable {victims : List Nat} {live' : Finset Nat} {events : List (KvEvent B)} {numTokens : Nat}

theorem Hashed.evicted (h : Hashed c hash e)
    (hinv : Inv c e.cache locks live) (hs : EvictedAt c locks e.cache live victims s' live')
    (hcache : e'.cache = s') (hhash : e'.hashValue = e.hashValue) : Hashed c hash e' := by
  subst hcache
  intro v w hw
  have hwf := hinv.book.wf
  have hwf' := hs.inv.book.wf
  rw [hhash, (hs.fields v).1]
  apply h
  obtain hroot | hv := hwf'.spells_live hw
  · subst hroot
    obtain rfl := hwf'.spells_unique hw .root
    rw [hs.rootNode]
    exact .root
  · have hread := (hwf'.spells_iff_reads hv).mp hw
    have hlabel : (view c e'.cache v).label = (view c e.cache v).label := by
      simp only [view, (hs.fields v).1]
    rw [hs.rootNode, hs.reads, hlabel] at hread
    exact (hwf.spells_iff_reads ((hs.live_eq v).mp hv).1).mpr hread.1

def EventEvict.toState (s : EventEvict σ H B) : EvictState σ := ⟨s.heap, s.freed, s.events.cache⟩

structure Removes (gone : Set B) (events : List (KvEvent B)) : Prop where
  removed : ∀ event ∈ events, ∃ b, event = .blockRemoved b
  known : ∀ known : Set B, events.foldl KvEvent.apply known = known \ gone

theorem Removes.nil : Removes (∅ : Set B) [] where
  removed event hevent := absurd hevent List.not_mem_nil
  known known := by rw [List.foldl_nil, Set.sdiff_empty]

theorem Removes.append {gone more : Set B} {events' : List (KvEvent B)}
    (h : Removes gone events) (h' : Removes more events') :
    Removes (gone ∪ more) (events ++ events') where
  removed event hevent := (List.mem_append.mp hevent).elim (h.removed event) (h'.removed event)
  known known := by rw [List.foldl_append, h.known, h'.known, Set.sdiff_sdiff]

theorem evictNode_events {x : Nat} {s : EventEvict σ H B} {r : EvictState σ} (hps : 0 < c.pageSize)
    (h : Hashed c hash s.events) (hinv : Inv c s.events.cache locks live)
    (hheap : s.heap = s.events.cache.evictableLeaves)
    (hnode : RadixCache.evictNode c x s.toState = some r) :
    ∃ s₁ events, evictNode c hash x s = some s₁ ∧ s₁.toState = r ∧
      Sends c hash s.events r.cache events s₁.events ∧
      Removes (EventCache.nodeBlocks c hash s.events.cache x) events := by
  obtain ⟨hmem, hleast⟩ := evictNode_pop hnode
  have hx : x ∈ live := ((hinv.book.leaves x).mp (hheap ▸ hmem)).1
  obtain ⟨s₁, hrun, hs⟩ := evictNode_spec (e := s.toState) hps hinv hheap hmem hleast
  obtain rfl := Option.some.inj (hnode.symm.trans hrun)
  obtain ⟨hashes, hvalue, hlength, hblocks⟩ := h.nodeBlocks hps hinv hx
  have hstored : nodeHashValue c hash { s.events with cache := s₁ } x = hashes := by
    simp only [nodeHashValue, hvalue, Option.getD_some]
  have hpages : (s₁.nodes x).key.eventPages c.pageSize =
      (s.events.cache.nodes x).key.eventPages c.pageSize := congrArg (·.eventPages c.pageSize)
    (hs.fields x).1
  have hsame : update s.events.hashValue x (some hashes) = s.events.hashValue := by
    rw [← hvalue, update_eq_self]
  have hrecord : recordRemoveEvent c hash x { s.events with cache := s₁ } = some { s.events with
      cache := s₁
      kvEventQueue := s.events.kvEventQueue ++
        hashes.map fun a => .blockRemoved (hash.toInt64 a) } := by
    simp only [recordRemoveEvent, hstored, hpages, BlockHash.removeEvents_eq hlength,
      Option.map_some, hsame]
  refine ⟨⟨s₁.evictableLeaves, s.freed ++ [(s.events.cache.nodes x).value], { s.events with
    cache := s₁
    kvEventQueue := s.events.kvEventQueue ++ hashes.map fun a => .blockRemoved (hash.toInt64 a) }⟩,
    _, ?_, rfl, ⟨rfl, rfl, h.evicted hinv hs rfl rfl⟩, ?_, ?_⟩
  · change (RadixCache.evictNode c x s.toState).bind _ = _
    rw [hnode, Option.bind_some]
    change (recordRemoveEvent c hash x { s.events with cache := s₁ }).map _ = _
    rw [hrecord]
    rfl
  · intro event hevent
    obtain ⟨a, -, rfl⟩ := List.mem_map.mp hevent
    exact ⟨_, rfl⟩
  · intro known
    rw [BlockHash.foldl_removed, hblocks]

theorem evictLoop_events {s : EventEvict σ H B}
    {r : EvictState σ} (hps : 0 < c.pageSize) (h : Hashed c hash s.events)
    (hinv : Inv c s.events.cache locks live) (hheap : s.heap = s.events.cache.evictableLeaves)
    (hloop : RadixCache.evictLoop c numTokens victims s.toState = some r) :
    ∃ s₁ events, evictLoop c hash numTokens victims s = some s₁ ∧ s₁.toState = r ∧
      Sends c hash s.events r.cache events s₁.events ∧
      Removes {b | ∃ x ∈ victims, b ∈ EventCache.nodeBlocks c hash s.events.cache x} events := by
  induction victims generalizing s live with
  | nil =>
      rw [RadixCache.evictLoop] at hloop
      split at hloop
      · cases hloop
      · next hstop =>
          obtain rfl := Option.some.inj hloop
          refine ⟨s, [], ?_, rfl, ⟨rfl, (List.append_nil _).symm, h⟩, ?_⟩
          · rw [evictLoop, if_neg]
            exact hstop
          · convert Removes.nil (B := B) using 1
            simp
  | cons x victims ih =>
      rw [RadixCache.evictLoop] at hloop
      split at hloop
      · next hmore =>
          obtain ⟨r₁, hnode, hrest⟩ := Option.bind_eq_some_iff.mp hloop
          obtain ⟨s₁, events, hrun, rfl, hsends, hremoves⟩ :=
            evictNode_events hps h hinv hheap hnode
          obtain ⟨hmem, hleast⟩ := evictNode_pop hnode
          obtain ⟨s₂, hrun', hs⟩ := evictNode_spec (e := s.toState) hps hinv hheap hmem hleast
          have hstate := Option.some.inj (hnode.symm.trans hrun')
          have hcache : s₁.events.cache = s₂ := congrArg EvictState.cache hstate
          have hheap' : s₁.heap = s₁.events.cache.evictableLeaves :=
            (congrArg EvictState.heap hstate).trans (by rw [hcache])
          have hs : EvictedAt c locks s.events.cache live [x] s₁.events.cache (live.erase x) :=
            hcache ▸ hs
          obtain ⟨s₃, events', hrun₃, hstate₃, hsends', hremoves'⟩ :=
            ih hsends.hashed hs.inv hheap' hrest
          obtain ⟨live', hs', -⟩ := evictLoop_spec (e := s₁.toState) hps hs.inv hheap' hrest
          refine ⟨s₃, events ++ events', ?_, hstate₃, ⟨hsends'.cache, ?_, hsends'.hashed⟩, ?_⟩
          · have hmore : (s.freed.map List.length).sum < numTokens := hmore
            rw [evictLoop, if_pos hmore, hrun, Option.bind_some, hrun₃]
          · rw [hsends'.queue, hsends.queue, List.append_assoc]
          · convert hremoves.append hremoves' using 1
            have hkept : ∀ y ∈ victims, EventCache.nodeBlocks c hash s₁.events.cache y =
                EventCache.nodeBlocks c hash s.events.cache y := by
              intro y hy
              have hne : y ∉ [x] := by
                rw [List.mem_singleton]
                exact Finset.ne_of_mem_erase (hs'.unlocked y hy).1
              ext b
              simp only [EventCache.nodeBlocks, Set.mem_ofPred_eq, hs.rootNode, hs.reads, hne,
                not_false_eq_true, and_true]
            ext b
            simp only [Set.mem_ofPred_eq, Set.mem_union, List.mem_cons, exists_eq_or_imp]
            exact or_congr_right (exists_congr fun y =>
              and_congr_right fun hy => by rw [hkept y hy])
      · cases hloop

theorem evict_events {freed : List (List σ)}
    (hps : 0 < c.pageSize) (hon : c.disable = false) (h : Hashed c hash e)
    (hinv : Inv c e.cache locks live)
    (hevict : RadixCache.evict c numTokens victims e.cache = some (freed, s')) :
    ∃ e' events, e.evict c hash numTokens victims = some (freed, e') ∧
      Sends c hash e s' events e' ∧
      Removes {b | ∃ x ∈ victims, b ∈ EventCache.nodeBlocks c hash e.cache x} events := by
  simp only [RadixCache.evict, hon, Bool.false_eq_true, if_false, Option.map_eq_some_iff,
    Prod.mk.injEq] at hevict
  obtain ⟨r, hloop, rfl, rfl⟩ := hevict
  obtain ⟨s₁, events, hrun, rfl, hsends, hremoves⟩ :=
    evictLoop_events (s := ⟨e.cache.evictableLeaves, [], e⟩) hps h hinv rfl hloop
  refine ⟨s₁.events, events, ?_, hsends, hremoves⟩
  simp only [EventCache.evict, hon, Bool.false_eq_true, if_false, hrun, Option.map_some]
  rfl

/-- No victim of an eviction shares its tokens with a page that stays, under another extra
key. -/
def Unshared (c : CacheParams) (s : RadixCache σ) : Call σ → Prop
  | .evict _ victims => ∀ x ∈ victims, ∀ w i, Reads (view c s) s.rootNode w x i →
      ∀ w' page, Entry (view c s) s.rootNode w' page → w'.map Prod.snd = w.map Prod.snd →
        ∃ y ∈ victims, ∃ j, Reads (view c s) s.rootNode w' y j
  | _ => True

/-- The hash does not collide on the pages in the tree. -/
def TellsApart (c : CacheParams) (hash : BlockHash H B) (s : RadixCache σ) : Prop :=
  ∀ w w' page page', Entry (view c s) s.rootNode w page → Entry (view c s) s.rootNode w' page' →
    hash.blockHash w = hash.blockHash w' → w.map Prod.snd = w'.map Prod.snd

/-- The states that calls lead to whose evictions are unshared, with the locks that are held
and the content. -/
inductive EventRun (c : CacheParams) (hash : BlockHash H B) :
    EventCache σ H B → List Nat → PrefixMap ChildKey (List σ) → Prop where
  | new (now : Nat) : EventRun c hash (new now) [] .empty
  | call {e e' : EventCache σ H B} {locks : List Nat} {A : PrefixMap ChildKey (List σ)}
      (k : Call σ) (h : EventRun c hash e locks A) (hfits : k.Fits c e.cache locks)
      (hapart : TellsApart c hash e.cache) (hunshared : Unshared c e.cache k)
      (hexec : e.exec c hash k = some e') :
      EventRun c hash e' (k.held locks) (k.content c e.cache A)

theorem evictLoop_toState {s s₁ : EventEvict σ H B}
    (hloop : evictLoop c hash numTokens victims s = some s₁) :
    RadixCache.evictLoop c numTokens victims s.toState = some s₁.toState := by
  induction victims generalizing s with
  | nil =>
      rw [evictLoop] at hloop
      split at hloop
      · cases hloop
      · next hstop =>
          obtain rfl := Option.some.inj hloop
          rw [RadixCache.evictLoop, if_neg]
          exact hstop
  | cons x victims ih =>
      rw [evictLoop] at hloop
      split at hloop
      · next hmore =>
          obtain ⟨s₂, hnode, hrest⟩ := Option.bind_eq_some_iff.mp hloop
          obtain ⟨r, hrun, hrecord⟩ := Option.bind_eq_some_iff.mp hnode
          obtain ⟨e₁, hevents, rfl⟩ := Option.map_eq_some_iff.mp hrecord
          obtain ⟨events, -, rfl⟩ := Option.map_eq_some_iff.mp hevents
          have hmore : s.toState.numEvicted < numTokens := hmore
          have hrun : RadixCache.evictNode c x s.toState = some r := hrun
          rw [RadixCache.evictLoop, if_pos hmore, hrun, Option.bind_some]
          exact ih hrest
      · cases hloop

/-- The words of the tree are known by their blocks. -/
def Replays (c : CacheParams) (hash : BlockHash H B) (e : EventCache σ H B) : Prop :=
  replay e.kvEventQueue = treeBlocks c hash e.cache

theorem tellsApart_of_collisionFree (c : CacheParams) (h : hash.CollisionFree) (s : RadixCache σ) :
    TellsApart c hash s :=
  fun _ _ _ _ _ _ heq => h.pages_eq heq

theorem treeBlocks_congr {s : RadixCache σ} (hroot : s'.rootNode = s.rootNode)
    (hentry : ∀ w b, Entry (view c s') s.rootNode w b ↔ Entry (view c s) s.rootNode w b) :
    treeBlocks c hash s' = treeBlocks c hash s := by
  ext b
  simp only [treeBlocks, Set.mem_ofPred_eq, hroot, hentry]

theorem Sends.stored {bs : List (List σ)} (hplaced : Placed hash e.kvEventQueue)
    (hreplays : Replays c hash e) (hvalue : value.length = key.len)
    (hs : InsertedAt c locks e.cache live key value bs s' live')
    (hsends : Sends c hash e s' (hash.stored
      (hash.chainEnd none (((key.syms c.pageSize).take bs.length).map Prod.snd))
      (((key.syms c.pageSize).drop bs.length).map Prod.snd)) e') :
    Placed hash e'.kvEventQueue ∧ Replays c hash e' := by
  have hlength : (pages c.pageSize value).length = (key.syms c.pageSize).length := by
    rw [length_pages, hvalue, RadixKey.length_syms]
  have hknown : ∀ b, hash.blockHash ((key.syms c.pageSize).take bs.length) = some b →
      b ∈ replay e.kvEventQueue := by
    intro b hb
    rw [hreplays]
    by_cases hpos : 0 < bs.length
    · have hget := List.getElem?_eq_getElem (Nat.sub_lt hpos Nat.one_pos)
      have hentry := hs.longest.entry _ _ hget
      rw [List.nil_append, Nat.sub_add_cancel hpos] at hentry
      exact ⟨_, _, hentry, hb⟩
    · rw [Nat.eq_zero_of_not_pos hpos, List.take_zero] at hb
      cases hb
  obtain ⟨hplaced', hreplay⟩ := BlockHash.replay_stored
    (u := (key.syms c.pageSize).drop bs.length) hplaced hknown
  rw [← hsends.queue] at hplaced' hreplay
  refine ⟨hplaced', ?_⟩
  have hcache := hsends.cache
  subst hcache
  ext b
  rw [hreplay, hreplays]
  simp only [treeBlocks, Set.mem_ofPred_eq, hs.rootNode, hs.entry]
  constructor
  · rintro (⟨w, page, hentry, hb⟩ | ⟨i, hi, hb⟩)
    · exact ⟨w, page, .inl hentry, hb⟩
    · rw [List.length_drop] at hi
      have hlt : bs.length + i < (pages c.pageSize value).length := by omega
      rw [← List.take_add, ← Nat.add_assoc] at hb
      exact ⟨_, _, .inr ⟨bs.length + i, Nat.le_add_right _ _, rfl, List.getElem?_eq_getElem hlt⟩,
        hb⟩
  · rintro ⟨w, page, hentry | ⟨i, hi, rfl, hget⟩, hb⟩
    · exact .inl ⟨w, page, hentry, hb⟩
    · have hlt := (List.getElem?_eq_some_iff.mp hget).1
      refine .inr ⟨i - bs.length, by rw [List.length_drop]; omega, ?_⟩
      rw [← List.take_add, ← Nat.add_assoc, Nat.add_sub_cancel' hi]
      exact hb

theorem Placed.append_removes {gone : Set B} {more : List (KvEvent B)}
    (h : Placed hash events) (hremoves : Removes gone more) : Placed hash (events ++ more) := by
  refine h.append fun i b parent tokens hi => ?_
  obtain ⟨_, hremoved⟩ := hremoves.removed _ (List.mem_of_getElem? hi)
  cases hremoved

/-- Behind an eviction the known blocks are those of the tree when no victim shares its tokens
with a page that stays, and only then. -/
theorem replays_evicted
    (hapart : TellsApart c hash e.cache) (hinv : Inv c e.cache locks live)
    (hreplays : Replays c hash e) (hs : EvictedAt c locks e.cache live victims s' live')
    (hsends : Sends c hash e s' events e')
    (hremoves : Removes {b | ∃ x ∈ victims, b ∈ nodeBlocks c hash e.cache x} events) :
    Replays c hash e' ↔ Unshared c e.cache (.evict numTokens victims) := by
  have hwf := hinv.book.wf
  have hcache := hsends.cache
  subst hcache
  have hreplay : replay e'.kvEventQueue = treeBlocks c hash e.cache \
      {b | ∃ x ∈ victims, b ∈ nodeBlocks c hash e.cache x} := by
    rw [hsends.queue, replay_append, hremoves.known, hreplays]
  have htree : treeBlocks c hash e'.cache = {b | ∃ w page,
      Entry (view c e.cache) e.cache.rootNode w page ∧
      (∀ x ∈ victims, ∀ i, ¬ Reads (view c e.cache) e.cache.rootNode w x i) ∧
      hash.blockHash w = some b} := by
    ext b
    simp only [treeBlocks, Set.mem_ofPred_eq, hs.rootNode, hs.entry_iff hwf, and_assoc]
  rw [Replays, hreplay, htree]
  constructor
  · intro hsame x hx w i hread w' page hentry htokens
    by_contra hstays
    push Not at hstays
    have hblocks := hash.blockHash_congr htokens
    obtain ⟨b, hb⟩ := BlockHash.exists_blockHash hash (hwf.reads_ne_nil hread (.inl rfl))
    have hmem : b ∈ {b | ∃ w page, Entry (view c e.cache) e.cache.rootNode w page ∧
        (∀ x ∈ victims, ∀ i, ¬ Reads (view c e.cache) e.cache.rootNode w x i) ∧
        hash.blockHash w = some b} := ⟨w', page, hentry, hstays, hblocks.trans hb⟩
    rw [← hsame] at hmem
    exact hmem.2 ⟨x, hx, w, i, hread, hb⟩
  · intro hunshared
    ext b
    constructor
    · rintro ⟨⟨w, page, hentry, hb⟩, hkept⟩
      refine ⟨w, page, hentry, fun x hx i hread => ?_, hb⟩
      exact hkept ⟨x, hx, w, i, hread, hb⟩
    · rintro ⟨w, page, hentry, hstays, hb⟩
      refine ⟨⟨w, page, hentry, hb⟩, ?_⟩
      rintro ⟨x, hx, w', i, hread, hb'⟩
      have hne := hwf.reads_ne_nil hread (.inl rfl)
      rw [← List.append_nil w'] at hread
      obtain ⟨page', hentry'⟩ := hwf.entry_of_reads hread hne
      rw [List.append_nil] at hread
      obtain ⟨y, hy, j, hread'⟩ := hunshared x hx w' i hread w page hentry
        (hapart w w' page page' hentry hentry' (hb.trans hb'.symm))
      exact hstays y hy j hread'

structure Follows (c : CacheParams) (hash : BlockHash H B) (e : EventCache σ H B) (k : Call σ)
    (s' : RadixCache σ) (e' : EventCache σ H B) : Prop where
  cache : e'.cache = s'
  hashed : Hashed c hash e'
  placed : Placed hash e'.kvEventQueue
  replays : Replays c hash e' ↔ Unshared c e.cache k

theorem Sends.follows {k : Call σ} (h : Sends c hash e s' [] e')
    (hkeeps : Keeps c e.cache s' live live') (hplaced : Placed hash e.kvEventQueue)
    (hreplays : Replays c hash e) (hunshared : Unshared c e.cache k) :
    Follows c hash e k s' e' where
  cache := h.cache
  hashed := h.hashed
  placed := by
    rw [h.queue, List.append_nil]
    exact hplaced
  replays := by
    refine iff_of_true ?_ hunshared
    rw [Replays, h.queue, List.append_nil, h.cache, treeBlocks_congr hkeeps.rootNode hkeeps.entry]
    exact hreplays

/-- A call that the plain cache makes is made with events as well. -/
theorem exec_events {k : Call σ} (hps : 0 < c.pageSize) (hon : c.disable = false)
    (hapart : TellsApart c hash e.cache) (h : Hashed c hash e) (hinv : Inv c e.cache locks live)
    (hplaced : Placed hash e.kvEventQueue) (hreplays : Replays c hash e)
    (hfits : k.Fits c e.cache locks) (hexec : k.exec c e.cache = some s') :
    ∃ e', e.exec c hash k = some e' ∧ Follows c hash e k s' e' := by
  cases k with
  | matchPrefix key now =>
      obtain ⟨r, s₁, live', bs, hmatch, hr⟩ := matchPrefix_spec key now hps hon hinv
      obtain rfl : s₁ = s' := by simpa [Call.exec, hmatch] using hexec
      obtain ⟨e', hrun, hsends⟩ := matchPrefix_events hps hon h hinv hmatch
      exact ⟨e', by rw [exec, hrun, Option.map_some],
        hsends.follows hr.keeps hplaced hreplays trivial⟩
  | insert key value priority chunked now =>
      obtain ⟨s₁, live', bs, hinsert, hr⟩ :=
        insert_spec value priority chunked now hps hon hinv hfits
      obtain rfl : s₁ = s' := by simpa [Call.exec, hinsert] using hexec
      obtain ⟨e', bs', hrun, hlongest, hsends⟩ := insert_events hps hon h hinv hfits hinsert
      obtain rfl := hr.longest.unique hinv.book.wf hlongest
      obtain ⟨hplaced', hreplays'⟩ :=
        hsends.stored hplaced hreplays (List.length_take_of_le hfits) hr
      exact ⟨e', by rw [exec, hrun, Option.map_some], hsends.cache, hsends.hashed, hplaced',
        iff_of_true hreplays' trivial⟩
  | incLockRef node =>
      obtain ⟨_, s₁, hinc, hshape, -, -⟩ := incLockRef_spec hon hinv (hinv.inTree_iff.mp hfits)
      obtain rfl : s₁ = s' := by simpa [Call.exec, hinc] using hexec
      refine ⟨{ e with cache := s₁ }, by rw [exec, hexec, Option.map_some], ?_⟩
      exact Sends.follows ⟨rfl, (List.append_nil _).symm, h.sameShape hshape rfl⟩
        (hshape.keeps live) hplaced hreplays trivial
  | decLockRef node =>
      obtain ⟨_, s₁, hdec, hshape, -, -⟩ := decLockRef_spec hon hinv hfits
      obtain rfl : s₁ = s' := by simpa [Call.exec, hdec] using hexec
      refine ⟨{ e with cache := s₁ }, by rw [exec, hexec, Option.map_some], ?_⟩
      exact Sends.follows ⟨rfl, (List.append_nil _).symm, h.sameShape hshape rfl⟩
        (hshape.keeps live) hplaced hreplays trivial
  | evict numTokens victims =>
      simp only [Call.exec, Option.map_eq_some_iff] at hexec
      obtain ⟨⟨freed, s₁⟩, hevict, rfl⟩ := hexec
      obtain ⟨live', hr, -⟩ := evict_spec hps hon hinv hevict
      obtain ⟨e', events, hrun, hsends, hremoves⟩ := evict_events hps hon h hinv hevict
      refine ⟨e', by rw [exec, hrun, Option.map_some], hsends.cache, hsends.hashed, ?_,
        replays_evicted hapart hinv hreplays hr hsends hremoves⟩
      rw [hsends.queue]
      exact Placed.append_removes hplaced hremoves

theorem exec_plain {k : Call σ} (hps : 0 < c.pageSize) (hon : c.disable = false)
    (hinv : Inv c e.cache locks live) (hfits : k.Fits c e.cache locks)
    (hexec : e.exec c hash k = some e') : ∃ s', k.exec c e.cache = some s' := by
  have hreturns := hinv.returns hps hfits
  cases k with
  | evict numTokens victims =>
      obtain ⟨⟨freed, e₁⟩, hevict, rfl⟩ := Option.map_eq_some_iff.mp hexec
      simp only [EventCache.evict, hon, Bool.false_eq_true, if_false, Option.map_eq_some_iff,
        Prod.mk.injEq] at hevict
      obtain ⟨s₁, hloop, rfl, rfl⟩ := hevict
      refine ⟨s₁.events.cache, ?_⟩
      simp only [Call.exec, RadixCache.evict, hon, Bool.false_eq_true, if_false]
      have hplain : RadixCache.evictLoop c numTokens victims
          ⟨e.cache.evictableLeaves, [], e.cache⟩ = some s₁.toState := evictLoop_toState hloop
      rw [hplain]
      rfl
  | matchPrefix | insert | incLockRef | decLockRef => exact Option.isSome_iff_exists.mp hreturns

theorem hashed_new (c : CacheParams) (hash : BlockHash H B) (now : Nat) :
    Hashed c hash (new now : EventCache σ H B) := by
  intro v w hw
  cases hw with
  | root =>
      have hnil : hash.chain [] = [] := rfl
      rw [hnil, List.drop_nil]
      simp only [EventCache.new, update_self]
  | child _ hchild => cases hchild

theorem replays_new (c : CacheParams) (hash : BlockHash H B) (now : Nat) :
    Replays c hash (new now : EventCache σ H B) := by
  refine Eq.symm (Set.eq_empty_of_forall_notMem ?_)
  rintro b ⟨w, page, hentry, -⟩
  cases (holds_new c now w page).mp hentry

structure Tracks (c : CacheParams) (hash : BlockHash H B) (e : EventCache σ H B)
    (locks : List Nat) (A : PrefixMap ChildKey (List σ)) : Prop where
  run : Run c e.cache locks A
  hashed : Hashed c hash e
  placed : Placed hash e.kvEventQueue
  replays : Replays c hash e

theorem Tracks.new (c : CacheParams) (hash : BlockHash H B) (now : Nat) :
    Tracks c hash (EventCache.new now : EventCache σ H B) [] .empty where
  run := .new now
  hashed := hashed_new c hash now
  placed i b parent tokens hi := by
    cases i <;> cases hi
  replays := replays_new c hash now

/-- One call with events is the call of the plain cache, and keeps track if it is unshared. -/
theorem Tracks.call {A : PrefixMap ChildKey (List σ)} {k : Call σ} (hps : 0 < c.pageSize)
    (hon : c.disable = false) (hapart : TellsApart c hash e.cache) (h : Tracks c hash e locks A)
    (hfits : k.Fits c e.cache locks) (hexec : e.exec c hash k = some e') :
    k.exec c e.cache = some e'.cache ∧ Follows c hash e k e'.cache e' := by
  obtain ⟨live, hinv, -, -⟩ := h.run.inv hps
  obtain ⟨s', hplain⟩ := exec_plain hps hon hinv hfits hexec
  obtain ⟨e₁, hrun, hfollows⟩ :=
    exec_events hps hon hapart h.hashed hinv h.placed h.replays hfits hplain
  obtain rfl := Option.some.inj (hexec.symm.trans hrun)
  have hcache := hfollows.cache
  subst hcache
  exact ⟨hplain, hfollows⟩

theorem EventRun.tracks {A : PrefixMap ChildKey (List σ)} (hps : 0 < c.pageSize)
    (hon : c.disable = false) (h : EventRun c hash e locks A) : Tracks c hash e locks A := by
  induction h with
  | new now => exact .new c hash now
  | call k _ hfits hapart hunshared hexec ih =>
      obtain ⟨hplain, hfollows⟩ := ih.call hps hon hapart hfits hexec
      exact ⟨ih.run.call k hfits hplain, hfollows.hashed, hfollows.placed,
        hfollows.replays.mpr hunshared⟩

/-- In a run whose evictions are unshared the events tell the content: replaying them gives the
blocks of the pages that are stored, no more and no less, every block is stored behind a block
that is known, every node carries the hashes of its pages, and sending events changes no call.
An eviction that is shared is the one call that breaks this. -/
theorem EventRun.replay_content {A : PrefixMap ChildKey (List σ)} (hps : 0 < c.pageSize)
    (hon : c.disable = false) (h : EventRun c hash e locks A) :
    Run c e.cache locks A ∧ Hashed c hash e ∧ Placed hash e.kvEventQueue ∧
      (∀ b, b ∈ replay e.kvEventQueue ↔ ∃ w page, A w = some page ∧ hash.blockHash w = some b) ∧
      ∀ (k : Call σ), k.Fits c e.cache locks → ∀ s', k.exec c e.cache = some s' →
        TellsApart c hash e.cache →
        ∃ e', e.exec c hash k = some e' ∧ e'.cache = s' ∧ Hashed c hash e' ∧
          Placed hash e'.kvEventQueue ∧
          ((∀ b, b ∈ replay e'.kvEventQueue ↔
              ∃ w page, k.content c e.cache A w = some page ∧ hash.blockHash w = some b) ↔
            Unshared c e.cache k) := by
  have ht := h.tracks hps hon
  obtain ⟨live, hinv, hholds, -⟩ := ht.run.inv hps
  have hblocks : ∀ {e : EventCache σ H B} {A : PrefixMap ChildKey (List σ)},
      Holds (view c e.cache) e.cache.rootNode A → (Replays c hash e ↔ ∀ b,
        b ∈ replay e.kvEventQueue ↔ ∃ w page, A w = some page ∧ hash.blockHash w = some b) := by
    intro e A hA
    rw [Replays, Set.ext_iff]
    refine forall_congr' fun b =>
      iff_congr Iff.rfl (exists_congr fun w => exists_congr fun page => ?_)
    rw [hA w page]
  refine ⟨ht.run, ht.hashed, ht.placed, (hblocks (hholds hon)).mp ht.replays,
    fun k hfits s' hplain hapart => ?_⟩
  obtain ⟨e', hrun, hfollows⟩ :=
    exec_events hps hon hapart ht.hashed hinv ht.placed ht.replays hfits hplain
  obtain ⟨live', -, hA⟩ := hinv.call hps hon (hholds hon) hfits hplain
  have hcache := hfollows.cache
  subst hcache
  exact ⟨e', hrun, rfl, hfollows.hashed, hfollows.placed, (hblocks hA).symm.trans hfollows.replays⟩

/-- A hash that keeps the pages of the path. -/
def pathHash : BlockHash (List (List KeyUnit)) (List (List KeyUnit)) where
  hashPage page prior := page :: (match prior with
    | none => []
    | some pages => [] :: pages)
  toInt64 pages := pages

theorem pathHash_collisionFree : pathHash.CollisionFree where
  hashPage page prior page' prior' h := by
    obtain ⟨rfl, h⟩ := List.cons.inj h
    refine ⟨rfl, ?_⟩
    cases prior <;> cases prior' <;> simp_all
  toInt64 := Function.injective_id

private theorem reads_label {α β : Type} {t : Nat → Node α β} {u v : Nat} {a : α} {p : List α}
    (hchild : (t u).child a = some v) (hlabel : (t v).label = p) (hp : p ≠ []) :
    Reads t u p v p.length := by
  have hread := Reads.here hchild (List.length_pos_of_ne_nil (hlabel ▸ hp)) (Nat.le_refl _)
  rwa [List.take_length, hlabel] at hread

/-- A page is split off by a search and cached under an extra key as well. When its first copy is
evicted the router takes the block for gone, although the second copy is still held. -/
theorem EventRun.replay_content_shared :
    ∃ (e e' : EventCache Nat (List (List KeyUnit)) (List (List KeyUnit)))
      (A : PrefixMap ChildKey (List Nat)),
      EventRun ⟨false, 1, false, .lru⟩ pathHash e [] A ∧
      replay e.kvEventQueue = {[[.token 1]], [[.token 2], [], [.token 1]]} ∧
      e.exec ⟨false, 1, false, .lru⟩ pathHash (.evict 2 [1, 2]) = some e' ∧
      ¬ ∀ b, b ∈ replay e'.kvEventQueue ↔ ∃ w page,
        (Call.evict 2 [1, 2] : Call Nat).content ⟨false, 1, false, .lru⟩ e.cache A w = some page ∧
          pathHash.blockHash w = some b := by
  have hapart := fun s : RadixCache Nat =>
    tellsApart_of_collisionFree ⟨false, 1, false, .lru⟩ pathHash_collisionFree s
  have h₀ : EventRun ⟨false, 1, false, .lru⟩ pathHash (EventCache.new 0 : EventCache Nat _ _) []
    .empty := .new 0
  have h₁ := h₀.call (.insert ⟨[1, 2], none, false⟩ [10, 11] 0 false 1) (Nat.le_refl 2) (hapart _)
    trivial rfl
  have h₂ := h₁.call (.matchPrefix ⟨[1, 3], none, false⟩ 2) trivial (hapart _) trivial rfl
  have h₃ := h₂.call (.insert ⟨[1], some "lora", false⟩ [20] 0 false 3) (Nat.le_refl 1) (hapart _)
    trivial rfl
  obtain ⟨-, -, -, -, hnext⟩ := h₃.replay_content (by decide) rfl
  obtain ⟨e', hexec, -, -, -, hiff⟩ := hnext (.evict 2 [1, 2]) trivial _ rfl (hapart _)
  refine ⟨_, e', _, h₃, ?_, hexec, fun hcontent => ?_⟩
  · change replay [.allBlocksCleared, .blockStored [[KeyUnit.token 1]] none [.token 1],
      .blockStored [[KeyUnit.token 2], [], [.token 1]] (some [[.token 1]]) [.token 2],
      .blockStored [[KeyUnit.token 1]] none [.token 1]] = _
    ext b
    simp [replay, KvEvent.apply]
    tauto
  · obtain ⟨live, hinv, -, -⟩ := (h₃.tracks (by decide) rfl).run.inv (by decide)
    have hunshared := hiff.mp hcontent
    rw [Unshared] at hunshared
    obtain ⟨y, hy, j, hread⟩ := hunshared 2 (by decide) [(none, [.token 1])] 1
      (reads_label (a := (none, [.token 1])) rfl rfl (List.cons_ne_nil _ _))
      [(some "lora", [.token 1])] [20]
      ⟨3, 0, reads_label (a := (some "lora", [.token 1])) rfl rfl (List.cons_ne_nil _ _), rfl⟩ rfl
    have hsame := hinv.book.wf.reads_unique hread (reads_label (v := 3)
      (a := (some "lora", [.token 1])) rfl rfl (List.cons_ne_nil _ _)) (.inl rfl)
    rw [hsame.1] at hy
    exact absurd hy (by decide)

end EventCache

end SpecDecode.MemCache
