import SpecDecode.MemCache.SwaEvict

/-!
# Searching the SWA radix cache

A prefix can be used if the window in front of its end is free of tombstones. The search
counts the tokens since the last tombstone and remembers the last node border that passes,
which is enough: behind a tombstone at page `z` the first `m` pages can be used exactly when
the `m - z` pages in between fill a window, so the later border is always the better one.
-/

namespace SpecDecode.MemCache

open RadixTree

variable {σ : Type}

namespace SwaRadixCache

variable {c : SwaCacheParams} {s s' : SwaRadixCache σ} {live live' : Finset Nat}
variable {locks : List Lock} {handles : List Nat} {word q : List ChildKey} {bs : List (List σ)}
variable {m n j fuel child node : Nat} {key : RadixKey} {p : MatchState σ}

section Prefixes

/-- The page at the end of a word lies in a tombstoned node. -/
def Dead (c : SwaCacheParams) (s : SwaRadixCache σ) (p : List ChildKey) : Prop :=
  ∃ v i, Reads (view c s) s.rootNode p v i ∧ (s.nodes v).swaTombstone = true

/-- The first `m` pages of a word can be used: no node on their path is a tombstone, or the
pages behind the last tombstone fill a window. -/
def UsablePrefix (c : SwaCacheParams) (s : SwaRadixCache σ) (word : List ChildKey) (m : Nat) :
    Prop :=
  (∀ j ≤ m, ¬ Dead c s (word.take j)) ∨
    ∃ run ≤ m, c.slidingWindowSize ≤ run * c.pageSize ∧
      ∀ j, m - run < j → j ≤ m → ¬ Dead c s (word.take j)

/-- The first `m` pages end at a node, or where a match of `n` pages ends. -/
def EndsAt (c : SwaCacheParams) (s : SwaRadixCache σ) (word : List ChildKey) (n m : Nat) : Prop :=
  m = n ∨ ∃ v, Spells (view c s) s.rootNode v (word.take m)

def WindowFree (c : SwaCacheParams) (s : SwaRadixCache σ) (word : List ChildKey) (m : Nat) : Prop :=
  ∀ j ≤ m, Dead c s (word.take j) → c.slidingWindowSize ≤ (m - j) * c.pageSize

theorem usablePrefix_iff : UsablePrefix c s word m ↔ WindowFree c s word m := by
  constructor
  · rintro (hclean | ⟨run, hrun, hfill, hclean⟩) j hj hdead
    · exact absurd hdead (hclean j hj)
    · have hle : run ≤ m - j := by
        by_contra hlt
        exact hclean j (by omega) hj hdead
      exact hfill.trans (Nat.mul_le_mul_right _ hle)
  · intro hfree
    by_cases hfill : c.slidingWindowSize ≤ m * c.pageSize
    · -- the shortest run that fills a window
      let fills := fun run => c.slidingWindowSize ≤ run * c.pageSize
      have hex : ∃ run, fills run := ⟨m, hfill⟩
      refine .inr ⟨Nat.find hex, Nat.find_min' hex hfill, Nat.find_spec hex,
        fun j hlt hj hdead => ?_⟩
      exact Nat.find_min hex (by omega) (hfree j hj hdead)
    · refine .inl fun j hj hdead => hfill ((hfree j hj hdead).trans ?_)
      exact Nat.mul_le_mul_right _ (Nat.sub_le _ _)

theorem WindowFree.usable {v : Nat} (hwf : Wf (view c s') s'.rootNode live') (hm : m ≤ word.length)
    (hv : Spells (view c s') s'.rootNode v (word.take m))
    (hdead : ∀ x ∈ live', ∀ q, Spells (view c s') s'.rootNode x q →
      (s'.nodes x).swaTombstone = true → Dead c s q)
    (hfree : WindowFree c s word m) : Usable c s' v := by
  intro x p q hx hp hq hlt
  have hxlive := hwf.under_live (hwf.spells_live hv) hx
  obtain rfl := hwf.spells_unique hp hv
  have hpre := (hwf.prefix_iff_under hxlive hq hp).mpr hx
  have hlen : (word.take m).length = m := List.length_take_of_le hm
  have hqm : q.length ≤ m := hlen ▸ hpre.length_le
  have hq' : q = word.take q.length :=
    List.prefix_iff_eq_take.mp (hpre.trans (List.take_prefix _ _))
  by_contra htomb
  have hbad := hdead x hxlive q hq (by simpa using htomb)
  rw [hq'] at hbad
  have hfar := hfree q.length hqm hbad
  rw [hlen] at hlt
  omega

end Prefixes

section Child

variable (hwf : Wf (view c s) s.rootNode live) (hq : Spells (view c s) s.rootNode node q)
variable {a : ChildKey} (hchild : (view c s node).child a = some child)

include hwf hq hchild

theorem reads_child_take (hj : 0 < j) (hjle : j ≤ pagesOf c s child) :
    Reads (view c s) s.rootNode (q ++ (view c s child).label.take j) child j :=
  hwf.reads_iff_spells.mpr ⟨hj, hjle, node, _, q, hq, hchild, rfl⟩

theorem dead_child_iff (hj : 0 < j) (hjle : j ≤ pagesOf c s child) :
    Dead c s (q ++ (view c s child).label.take j) ↔ (s.nodes child).swaTombstone = true := by
  have hr := reads_child_take hwf hq hchild hj hjle
  constructor
  · rintro ⟨v, i, hv, htomb⟩
    obtain ⟨rfl, _⟩ := hwf.reads_unique hv hr (.inl rfl)
    exact htomb
  · exact fun htomb => ⟨child, j, hr, htomb⟩

theorem not_spells_inside (hj : 0 < j) (hlt : j < pagesOf c s child) {v : Nat} :
    ¬ Spells (view c s) s.rootNode v (q ++ (view c s child).label.take j) := by
  intro hv
  have hr := reads_child_take hwf hq hchild hj (Nat.le_of_lt hlt)
  rcases hwf.spells_live hv with rfl | hlive
  · have hnil := hwf.spells_unique hv .root
    exact hwf.reads_ne_nil hr (.inl rfl) hnil
  · obtain ⟨rfl, heq⟩ := hwf.reads_unique hr ((hwf.spells_iff_reads hlive).mp hv) (.inl rfl)
    exact Nat.ne_of_lt hlt heq

end Child

section Scan

theorem natCast_le {a b : Nat} : (a : WithTop Nat) ≤ b ↔ a ≤ b := WithTop.coe_le_coe

/-- `match_len_since_tombstone` after `n` pages. A border in front of the last tombstone, at
page `z`, is no better than the best one, `m`. -/
def SinceTombstone (c : SwaCacheParams) (s : SwaRadixCache σ) (word : List ChildKey) (n m : Nat)
    (matchLen : WithTop Nat) : Prop :=
  (matchLen = ⊤ ∧ ∀ j ≤ n, ¬ Dead c s (word.take j)) ∨
    ∃ z ≤ n, matchLen = ((n - z) * c.pageSize : Nat) ∧ Dead c s (word.take z) ∧
      (∀ j, z < j → j ≤ n → ¬ Dead c s (word.take j)) ∧
      ∀ j < z, EndsAt c s word n j → WindowFree c s word j → j ≤ m

/-- The search has read pages with the values `bs`, and `m` is the best border it has seen. -/
structure Scanned (c : SwaCacheParams) (s : SwaRadixCache σ) (word : List ChildKey)
    (bs : List (List σ)) (m : Nat) (p : MatchState σ) : Prop where
  le : bs.length ≤ word.length
  entry : ∀ i b, bs[i]? = some b → Entry (view c s) s.rootNode (word.take (i + 1)) b
  value : p.value.flatten = bs.flatten
  node : Spells (view c p.cache) s.rootNode p.node (word.take bs.length)
  since : SinceTombstone c s word bs.length m p.matchLen
  bestLe : m ≤ bs.length
  bestLen : p.bestValueLen ≤ p.value.length
  bestValue : (p.value.take p.bestValueLen).flatten = (bs.take m).flatten
  bestNode : Spells (view c p.cache) s.rootNode p.bestLastNode (word.take m)
  bestEnds : EndsAt c s word bs.length m
  bestFree : WindowFree c s word m

theorem Scanned.new (c : SwaCacheParams) (s : SwaRadixCache σ) (word : List ChildKey)
    (hwf : Wf (view c s) s.rootNode live) :
    Scanned c s word [] 0 ⟨s.rootNode, [], ⊤, 0, s.rootNode, s⟩ := by
  have halive : ∀ j ≤ 0, ¬ Dead c s (word.take j) := by
    rintro j hj ⟨v, i, hr, _⟩
    obtain rfl := Nat.le_zero.mp hj
    exact hwf.reads_ne_nil hr (.inl rfl) rfl
  refine ⟨Nat.zero_le _, by simp, rfl, .root, .inl ⟨rfl, halive⟩, Nat.le_refl _, Nat.le_refl _, rfl,
    .root, .inl rfl, fun j hj hdead => absurd hdead (halive j hj)⟩

theorem Scanned.updateBest (h : Scanned c s word bs m p) :
    ∃ m', Scanned c s word bs m' (p.updateBest c) ∧
      ∀ j ≤ bs.length, EndsAt c s word bs.length j → WindowFree c s word j → j ≤ m' := by
  by_cases hlong : (c.slidingWindowSize : WithTop Nat) ≤ p.matchLen
  · have hfree : WindowFree c s word bs.length := by
      rcases h.since with ⟨_, halive⟩ | ⟨z, hz, hlen, hdead, halive, _⟩
      · exact fun j hj hdead => absurd hdead (halive j hj)
      · rw [hlen, natCast_le] at hlong
        intro j hj hdead
        refine hlong.trans (Nat.mul_le_mul_right _ ?_)
        by_contra hlt
        exact halive j (by omega) hj hdead
    have hp : p.updateBest c =
        { p with bestValueLen := p.value.length, bestLastNode := p.node } := by
      rw [MatchState.updateBest, if_pos hlong]
    rw [hp]
    refine ⟨bs.length, ⟨h.le, h.entry, h.value, h.node, ?_, Nat.le_refl _, Nat.le_refl _, ?_,
      h.node, .inl rfl, hfree⟩, fun j hj _ _ => hj⟩
    · rcases h.since with hinf | ⟨z, hz, hlen, hdead, halive, hbest⟩
      · exact .inl hinf
      · exact .inr ⟨z, hz, hlen, hdead, halive, fun j hj _ _ => (Nat.le_of_lt hj).trans hz⟩
    · rw [List.take_length, List.take_length]
      exact h.value
  · have hp : p.updateBest c = p := by
      rw [MatchState.updateBest, if_neg hlong]
    rw [hp]
    refine ⟨m, h, fun j hj hends hfree => ?_⟩
    rcases h.since with ⟨htop, _⟩ | ⟨z, hz, hlen, hdead, halive, hbest⟩
    · rw [htop] at hlong
      exact absurd le_top hlong
    · rw [hlen, natCast_le] at hlong
      by_cases hjz : j < z
      · exact hbest j hjz hends hfree
      · -- a border behind the tombstone has less than a window in between
        have hwindow := hfree z (Nat.le_of_not_lt hjz) hdead
        exact absurd (hwindow.trans (Nat.mul_le_mul_right _ (by omega))) hlong

structure Child (c : SwaCacheParams) (s : SwaRadixCache σ) (word : List ChildKey)
    (node child n : Nat)
    (bs bs' : List (List σ)) : Prop where
  edge : ∃ a, (view c s node).child a = some child
  pos : 0 < n
  le : n ≤ pagesOf c s child
  length : bs'.length = n
  fits : bs.length + n ≤ word.length
  label : (view c s child).label.take n = (word.drop bs.length).take n
  entry : ∀ i b, bs'[i]? = some b →
    Entry (view c s) s.rootNode (word.take bs.length ++ (word.drop bs.length).take (i + 1)) b

variable {bs' : List (List σ)}

theorem Child.take_eq (hc : Child c s word node child n bs bs') (hj : j ≤ n) :
    word.take (bs.length + j) = word.take bs.length ++ (view c s child).label.take j := by
  have hlabel := congrArg (List.take j) hc.label
  rw [List.take_take, List.take_take, Nat.min_eq_left hj] at hlabel
  rw [List.take_add, hlabel]

/-- A border among the pages read so far ends at a node. -/
theorem EndsAt.of_lt {k : Nat} (h : EndsAt c s word k j) (hlt : j < k) : EndsAt c s word n j :=
  .inr (h.resolve_left (Nat.ne_of_lt hlt))

theorem SinceTombstone.tombstone (hwf : Wf (view c s) s.rootNode live)
    (hnode : Spells (view c s) s.rootNode node (word.take bs.length))
    (hc : Child c s word node child n bs bs') (htomb : (s.nodes child).swaTombstone = true)
    (hbest : ∀ j ≤ bs.length, EndsAt c s word bs.length j → WindowFree c s word j → j ≤ m) :
    SinceTombstone c s word (bs.length + n) m 0 := by
  obtain ⟨a, hedge⟩ := hc.edge
  refine .inr ⟨bs.length + n, Nat.le_refl _, by rw [Nat.sub_self, Nat.zero_mul]; rfl, ?_,
    fun j hlt hj => by omega, fun j hj hends hfree => ?_⟩
  · rw [hc.take_eq (Nat.le_refl n)]
    exact (dead_child_iff hwf hnode hedge hc.pos hc.le).mpr htomb
  · by_cases hjle : j ≤ bs.length
    · exact hbest j hjle (hends.of_lt hj) hfree
    · obtain ⟨v, hv⟩ := hends.resolve_left (Nat.ne_of_lt hj)
      have hsplit := hc.take_eq (j := j - bs.length) (by omega)
      rw [Nat.add_sub_cancel' (Nat.le_of_not_le hjle)] at hsplit
      rw [hsplit] at hv
      have hle := hc.le
      exact absurd hv (not_spells_inside hwf hnode hedge (by omega) (by omega))

/-- The window count when the search reads a node that is not a tombstone. -/
theorem SinceTombstone.alive {matchLen : WithTop Nat} (hwf : Wf (view c s) s.rootNode live)
    (hnode : Spells (view c s) s.rootNode node (word.take bs.length))
    (hc : Child c s word node child n bs bs') (htomb : (s.nodes child).swaTombstone = false)
    (h : SinceTombstone c s word bs.length m matchLen) :
    SinceTombstone c s word (bs.length + n) m (matchLen + (n * c.pageSize : Nat)) := by
  obtain ⟨a, hedge⟩ := hc.edge
  have halive : ∀ j, bs.length < j → j ≤ bs.length + n → ¬ Dead c s (word.take j) := by
    intro j hlt hj hdead
    have hsplit := hc.take_eq (j := j - bs.length) (by omega)
    rw [Nat.add_sub_cancel' (Nat.le_of_lt hlt)] at hsplit
    rw [hsplit] at hdead
    have hle := hc.le
    rw [dead_child_iff hwf hnode hedge (by omega) (by omega), htomb] at hdead
    cases hdead
  have hpos := hc.pos
  rcases h with ⟨rfl, hold⟩ | ⟨z, hz, rfl, hdead, hold, hbest⟩
  · refine .inl ⟨WithTop.top_add _, fun j hj => ?_⟩
    by_cases hjle : j ≤ bs.length
    · exact hold j hjle
    · exact halive j (Nat.lt_of_not_le hjle) hj
  · refine .inr ⟨z, by omega, ?_, hdead, fun j hlt hj => ?_, fun j hj hends hfree => ?_⟩
    · rw [show bs.length + n - z = bs.length - z + n by omega, Nat.add_mul]
      rfl
    · by_cases hjle : j ≤ bs.length
      · exact hold j hlt hjle
      · exact halive j (Nat.lt_of_not_le hjle) hj
    · exact hbest j hj (hends.of_lt (by omega)) hfree

/-- The search goes on to a node that holds the pages read in a child. -/
theorem Scanned.extend (h : Scanned c s word bs m p) (hcache : p.cache = s)
    (hc : Child c s word p.node child n bs bs') {matchLen : WithTop Nat}
    (hsince : SinceTombstone c s word (bs.length + n) m matchLen)
    (hkeep : ∀ v q, Spells (view c s) s.rootNode v q → Spells (view c s') s.rootNode v q)
    (hnode : Spells (view c s') s.rootNode node (word.take (bs.length + n)))
    (hvalue : (s'.nodes node).value = bs'.flatten) :
    Scanned c s word (bs ++ bs') m
      ⟨node, p.value ++ [(s'.nodes node).value], matchLen, p.bestValueLen, p.bestLastNode, s'⟩ := by
  have hlen : (bs ++ bs').length = bs.length + n := by rw [List.length_append, hc.length]
  have hbest := h.bestLe
  have hold := h.node
  have hbestNode := h.bestNode
  rw [hcache] at hold hbestNode
  refine ⟨by rw [hlen]; exact hc.fits, ?_,
    ?_, by rw [hlen]; exact hnode, by rw [hlen]; exact hsince, by omega, ?_, ?_,
    hkeep _ _ hbestNode, ?_, h.bestFree⟩
  · intro i b hget
    by_cases hi : i < bs.length
    · rw [List.getElem?_append_left hi] at hget
      exact h.entry i b hget
    · rw [List.getElem?_append_right (Nat.le_of_not_lt hi)] at hget
      have hentry := hc.entry (i - bs.length) b hget
      rwa [← List.take_add, show bs.length + (i - bs.length + 1) = i + 1 by omega] at hentry
  · rw [List.flatten_append, List.flatten_append, h.value, hvalue, List.flatten_singleton]
  · rw [List.length_append]
    exact Nat.le_add_right_of_le h.bestLen
  · rw [List.take_append_of_le_length h.bestLen, List.take_append_of_le_length hbest, h.bestValue]
  · rw [hlen]
    rcases h.bestEnds with rfl | hends
    · exact .inr ⟨_, hold⟩
    · exact .inr hends

theorem Scanned.step (h : Scanned c s word bs m p) (hcache : p.cache = s)
    (hwf : Wf (view c s) s.rootNode live) (hc : Child c s word p.node child n bs bs')
    (hkeep : ∀ v q, Spells (view c s) s.rootNode v q → Spells (view c s') s.rootNode v q)
    (hnode : Spells (view c s') s.rootNode node (word.take (bs.length + n)))
    (hvalue : (s'.nodes node).value = bs'.flatten)
    (hlength : (s'.nodes node).value.length = n * c.pageSize)
    (htomb : (s'.nodes node).swaTombstone = (s.nodes child).swaTombstone) :
    ∃ m', Scanned c s word (bs ++ bs') m' (({ (if (s.nodes child).swaTombstone then
      { p.updateBest c with matchLen := 0 } else p) with cache := s' } : MatchState σ).moveTo
      node) := by
  have hnode₀ := h.node
  rw [hcache] at hnode₀
  cases hchild : (s.nodes child).swaTombstone with
  | true =>
      obtain ⟨m', hbest, hmax⟩ := h.updateBest
      have hsame : (p.updateBest c).cache = p.cache ∧ (p.updateBest c).node = p.node := by
        rw [MatchState.updateBest]
        split <;> exact ⟨rfl, rfl⟩
      refine ⟨m', ?_⟩
      have hsince := SinceTombstone.tombstone hwf hnode₀ hc hchild hmax
      have hnext := hbest.extend (hsame.1.trans hcache) (hsame.2.symm ▸ hc) hsince
        hkeep hnode hvalue
      simp only [if_true, MatchState.moveTo, htomb, hchild]
      exact hnext
  | false =>
      have hsince := h.since.alive hwf hnode₀ hc hchild
      rw [← hlength] at hsince
      have hnext := h.extend hcache hc hsince hkeep hnode hvalue
      simp only [Bool.false_eq_true, if_false, MatchState.moveTo, htomb, hchild]
      exact ⟨m, hnext⟩

end Scan

section Advance

structure Kept (c : SwaCacheParams) (s s' : SwaRadixCache σ) (live live' : Finset Nat) : Prop where
  rootNode : s'.rootNode = s.rootNode
  sub : live ⊆ live'
  spells : ∀ v q, Spells (view c s) s.rootNode v q → Spells (view c s') s.rootNode v q
  entry : ∀ p b, Entry (view c s') s.rootNode p b ↔ Entry (view c s) s.rootNode p b
  trace : ∀ p v i, Reads (view c s') s.rootNode p v i → ∃ w j, Reads (view c s) s.rootNode p w j ∧
    (s'.nodes v).swaTombstone = (s.nodes w).swaTombstone ∧
    (s'.nodes v).fullLockRef = (s.nodes w).fullLockRef
  slots : s'.slots live' = s.slots live
  pagesOk : ∀ P : List σ → Prop, PagesOk P c s live → PagesOk P c s' live'

theorem Kept.refl (s : SwaRadixCache σ) (live : Finset Nat) : Kept c s s live live :=
  ⟨rfl, Finset.Subset.refl _, fun _ _ h => h, fun _ _ => Iff.rfl, fun _ v i hr =>
    ⟨v, i, hr, rfl, rfl⟩, rfl, fun _ h => h⟩

theorem Kept.dead (h : Kept c s s' live live') (hwf : Wf (view c s') s.rootNode live') {x : Nat}
    (hx : x ∈ live') (hq : Spells (view c s') s.rootNode x q)
    (htomb : (s'.nodes x).swaTombstone = true) : Dead c s q := by
  obtain ⟨w, j, hr, hflag, _⟩ := h.trace q x _ ((hwf.spells_iff_reads hx).mp hq)
  exact ⟨w, j, hr, hflag.symm.trans htomb⟩

theorem SplitTo.kept {u : Nat} {a a' : ChildKey} {full swa : Nat → Nat} (h : Book c s full swa live)
    (hchild : child ∈ live) (hs : SplitTo c s s' u child (n * c.pageSize))
    (hsplit : Split (view c s) (view c s') s.rootNode live u child s.counter n a a') :
    Kept c s s' live (Insert.insert s.counter live) := by
  have hframe : s'.frees = s.frees := by
    rw [hs.rest]
    rfl
  refine ⟨by rw [hs.rest], Finset.subset_insert _ _, fun _ _ => hsplit.spells h.wf,
    fun _ _ => hsplit.entry_iff h.wf, fun p v i hr => ?_, ?_, fun P hok => ⟨?_, ?_⟩⟩
  · rcases (hsplit.reads_iff h.wf).mp hr with ⟨rfl, _, hr⟩ | ⟨rfl, _, hr⟩ | ⟨hv, _, hr⟩
    · exact ⟨child, i, hr, hs.newFlags.1, hs.newFlags.2.1⟩
    · have hv : v ≠ s.counter := hsplit.ne_new (.inr hchild)
      exact ⟨v, _, hr, (hs.flags v hv).1, (hs.flags v hv).2.1⟩
    · exact ⟨v, i, hr, (hs.flags v hv).1, (hs.flags v hv).2.1⟩
  · rw [slots, slots, hs.tree.slots_eq h.paged hchild, hframe]
  · exact hs.tree.pagesOk h.paged hchild hok.tree
  · rw [hframe]
    exact hok.frees

/-- What one step of a search gives: the node `r.1` holds the first `n` pages of `child`, whose
values are `bs`. -/
structure Advanced (c : SwaCacheParams) (locks : List Lock) (handles : List Nat)
    (s : SwaRadixCache σ)
    (live : Finset Nat) (q : List ChildKey) (key : RadixKey) (child n : Nat) (bs : List (List σ))
    (r : Nat × SwaRadixCache σ) (live' : Finset Nat) : Prop where
  pos : 0 < n
  le : n ≤ (key.syms c.pageSize).length
  childLe : n ≤ pagesOf c s child
  label : (view c s child).label.take n = (key.syms c.pageSize).take n
  inv : Inv c r.2 locks handles live'
  kept : Kept c s r.2 live live'
  mem : r.1 ∈ live'
  spells : Spells (view c r.2) s.rootNode r.1 (q ++ (key.syms c.pageSize).take n)
  length : bs.length = n
  entry : ∀ i b, bs[i]? = some b →
    Entry (view c s) s.rootNode (q ++ (key.syms c.pageSize).take (i + 1)) b
  value : (r.2.nodes r.1).value = bs.flatten
  keyLen : (r.2.nodes r.1).key.len = n * c.pageSize
  tombstone : (r.2.nodes r.1).swaTombstone = (s.nodes child).swaTombstone
  fullLock : (r.2.nodes r.1).fullLockRef = (s.nodes child).fullLockRef

theorem Advanced.ofLists {r : Nat × SwaRadixCache σ} {l l' : LruList}
    (h : Advanced c locks handles { s with fullLruList := l, swaLruList := l' } live q key child
    n bs r live') :
    Advanced c locks handles s live q key child n bs r live' := by
  refine ⟨h.pos, h.le, h.childLe, h.label, h.inv, ?_, h.mem, h.spells, h.length, h.entry, h.value,
    h.keyLen, h.tombstone, h.fullLock⟩
  exact ⟨h.kept.rootNode, h.kept.sub, h.kept.spells, h.kept.entry, h.kept.trace, h.kept.slots,
    fun P hok => h.kept.pagesOk P ⟨hok.tree, hok.frees⟩⟩

theorem Advanced.value_length {r : Nat × SwaRadixCache σ}
    (h : Advanced c locks handles s live q key child n bs r live') :
    (r.2.nodes r.1).value.length = n * c.pageSize :=
  (h.inv.book.paged.values r.1 h.mem).trans h.keyLen

/-- One step of a search: go to the child, or to a new node in front of it. -/
theorem Inv.advance (h : Inv c s locks handles live) (hq : Spells (view c s) s.rootNode node q)
    (hkey : key.Aligned c.pageSize) (hpos : 0 < key.len)
    (hlookup : (s.nodes node).children.lookup (key.childKey c.pageSize) = some child) :
    ∃ n bs r live', (s.nodes child).key.matchLen key c.pageSize = n * c.pageSize ∧
      (if n * c.pageSize < (s.nodes child).key.len then s.splitNode c child (n * c.pageSize)
        else some (child, s)) = some r ∧
      Advanced c locks handles s live q key child n bs r live' ∧
      (n * c.pageSize < (s.nodes child).key.len →
        Longest (view c s) s.rootNode q (key.syms c.pageSize) bs) := by
  have hwf := h.book.wf
  have hnode := hwf.spells_live hq
  have hedge : (view c s node).child (key.childKey c.pageSize) = some child := hlookup
  obtain ⟨hchild, hhead, hcommon, hmatch⟩ :=
    h.book.paged.child_step c.pageSize_pos hnode hkey hpos hlookup
  have hlen : pagesOf c s child * c.pageSize = (s.nodes child).key.len :=
    (h.book.paged.aligned child hchild).len_eq
  have hle : commonPrefixLen ((s.tree child).key.syms c.pageSize) (key.syms c.pageSize) ≤
      pagesOf c s child ∧ _ := commonPrefixLen_le _ _
  have htake := take_commonPrefixLen ((s.tree child).key.syms c.pageSize) (key.syms c.pageSize)
  have hinside : commonPrefixLen ((s.tree child).key.syms c.pageSize) (key.syms c.pageSize) <
      pagesOf c s child → Longest (view c s) s.rootNode q (key.syms c.pageSize)
        ((view c s child).vals.take (commonPrefixLen ((s.tree child).key.syms c.pageSize)
          (key.syms c.pageSize))) := fun hlt => .of_inside hwf hq hedge hhead hlt
  generalize commonPrefixLen ((s.tree child).key.syms c.pageSize) (key.syms c.pageSize) = n at *
  have hbs : ((view c s child).vals.take n).length = n := by
    rw [List.length_take, hwf.vals child hchild]
    exact Nat.min_eq_left hle.1
  have hlabel : (view c s child).label.take n = (key.syms c.pageSize).take n := htake
  have hentry := Longest.entry_child hwf hq hedge hlabel
  have hflat : ((view c s child).vals.take n).flatten = (s.nodes child).value.take
      (n * c.pageSize) :=
    h.book.paged.flatten_take_vals hchild hle.1
  by_cases hlt : n * c.pageSize < (s.nodes child).key.len
  · have hlt' : n < pagesOf c s child := by
      rw [← hlen] at hlt
      exact Nat.lt_of_mul_lt_mul_right hlt
    obtain ⟨u, s', a, a', hrun, hs, hsplit, hinv⟩ := h.splitNode hchild hcommon hlt'
    have hu : u = node := by
      have hparent := (hwf.child node _ child hnode hedge).2.1
      have hparent' := (hwf.child u _ child hsplit.parentLive hsplit.edge).2.1
      exact Option.some.inj (hparent'.symm.trans hparent)
    subst hu
    have hnew := hs.tree.atNew
    refine ⟨n, (view c s child).vals.take n, (s.counter, s'), Insert.insert s.counter live, hmatch,
      ?_, ?_, fun _ => hinside hlt'⟩
    · rw [if_pos hlt]
      exact hrun
    refine ⟨hcommon, hle.2, hle.1, hlabel, hinv, hs.kept h.book hchild hsplit,
      Finset.mem_insert_self _ _, ?_, hbs, hentry, ?_, ?_, hs.newFlags.1, hs.newFlags.2.1⟩
    · rw [← hlabel]
      exact hsplit.spells_new hwf hq
    · rw [hflat]
      exact congrArg PageNode.value hnew
    · have hsplit := h.book.paged.split_len c.pageSize_pos hchild hlt'
      exact (congrArg (fun n => n.key.len) hnew).trans hsplit.1
  · have hall : n = pagesOf c s child := by
      apply Nat.le_antisymm hle.1
      apply Nat.le_of_mul_le_mul_right _ c.pageSize_pos
      omega
    refine ⟨n, (view c s child).vals.take n, (child, s), live, hmatch, by rw [if_neg hlt], ?_,
      fun hlt' => absurd hlt' hlt⟩
    refine ⟨hcommon, hle.2, hle.1, hlabel, h, .refl s live, hchild, ?_, hbs, hentry,
      ?_, ?_, rfl, rfl⟩
    · have hwhole : (view c s child).label.take n = (view c s child).label :=
        List.take_of_length_le (Nat.le_of_eq hall.symm)
      rw [← hlabel, hwhole]
      exact .child hq hedge
    · rw [hflat, List.take_of_length_le]
      rw [hall, hlen]
      exact Nat.le_of_eq (h.book.paged.values child hchild)
    · rw [hall, hlen]

end Advance

section Match

structure MatchedAt (c : SwaCacheParams) (locks : List Lock) (handles : List Nat)
    (s : SwaRadixCache σ)
    (live : Finset Nat) (word : List ChildKey) (bs : List (List σ)) (m : Nat) (p : MatchState σ)
    (live' : Finset Nat) : Prop where
  scanned : Scanned c s word bs m p
  longest : Longest (view c s) s.rootNode [] word bs
  inv : Inv c p.cache locks handles live'
  kept : Kept c s p.cache live live'

theorem matchLoop_spec (h : Inv c s locks handles live) (hscan : Scanned c s word bs m p)
    (hcache : p.cache = s) (hkey : key.Aligned c.pageSize)
    (hsyms : key.syms c.pageSize = word.drop bs.length) (hfuel : key.len < fuel) :
    ∃ p' bs' m' live', matchLoop c fuel key p = some p' ∧
      MatchedAt c locks handles s live word bs' m' p' live' := by
  induction fuel generalizing bs m p key with
  | zero => omega
  | succ fuel ih =>
      have hwf := h.book.wf
      have hnode := hscan.node
      rw [hcache] at hnode
      -- the values read so far come before what the rest of the key gives
      have hlongest : ∀ bs', Longest (view c s) s.rootNode (word.take bs.length)
          (key.syms c.pageSize) bs' → Longest (view c s) s.rootNode [] word (bs ++ bs') := by
        intro bs' hbs'
        rw [hsyms] at hbs'
        exact .append hscan.le hscan.entry hbs'
      have hstay :
        (0 < key.len → (s.nodes p.node).children.lookup (key.childKey c.pageSize) = none) →
          MatchedAt c locks handles s live word bs m p live := by
        intro hstop
        have hnil := hlongest [] (h.book.paged.longest_nil c.pageSize_pos hnode hkey hstop)
        rw [List.append_nil] at hnil
        refine ⟨hscan, hnil, ?_, ?_⟩
        · rwa [hcache]
        · rw [hcache]
          exact .refl s live
      rw [matchLoop, hcache]
      split
      · next hpos =>
          cases hlookup : (s.nodes p.node).children.lookup (key.childKey c.pageSize) with
          | none => exact ⟨_, _, _, _, rfl, hstay fun _ => hlookup⟩
          | some child =>
              obtain ⟨n, bs', r, live', hmatch, hrun, ha, hinside⟩ :=
                h.advance hnode hkey hpos hlookup
              have hle := ha.le
              rw [hsyms, List.length_drop] at hle
              have hchild : Child c s word p.node child n bs bs' := by
                refine ⟨⟨_, hlookup⟩, ha.pos, ha.childLe, ha.length, ?_, ?_, ?_⟩
                · have := hscan.le
                  omega
                · rw [ha.label, hsyms]
                · rw [← hsyms]
                  exact ha.entry
              have hspells := ha.spells
              rw [hsyms, ← List.take_add] at hspells
              obtain ⟨m', hnext⟩ := hscan.step hcache hwf hchild ha.kept.spells hspells ha.value
                ha.value_length ha.tombstone
              have hsame :
                  ((if (s.nodes child).swaTombstone then { p.updateBest c with matchLen := 0 }
                  else p) : MatchState σ).cache = s := by
                have hbest : (p.updateBest c).cache = s := by
                  rw [MatchState.updateBest]
                  split <;> exact hcache
                split
                · exact hbest
                · exact hcache
              simp only
              generalize (if (s.nodes child).swaTombstone = true then _ else p : MatchState σ) = p₁
                at hsame hnext ⊢
              rw [hsame, hmatch]
              by_cases hlt : n * c.pageSize < (s.nodes child).key.len
              · rw [if_pos hlt] at hrun
                rw [if_pos hlt, hrun]
                exact ⟨_, bs ++ bs', m', live', rfl, hnext, hlongest bs' (hinside hlt),
                  ha.inv, ha.kept⟩
              · rw [if_neg hlt] at hrun
                obtain rfl := Option.some.inj hrun
                rw [if_neg hlt]
                obtain ⟨haligned, hlen, hmul, _⟩ :=
                  RadixCache.RadixKey.rest_spec hkey c.pageSize_pos ha.pos ha.le
                have hp₁ : ({ p₁ with cache := s } : MatchState σ) = p₁ := by rw [← hsame]
                rw [hp₁] at hnext
                refine ih hnext hsame haligned ?_ (by omega)
                rw [RadixKey.syms_drop, hsyms, List.drop_drop, List.length_append, ha.length]
      · next hpos => exact ⟨_, _, _, _, rfl, hstay fun hpos' => absurd hpos' hpos⟩

theorem Inv.resetLists {v : Nat} (h : Inv c s locks handles live) (hv : v = s.rootNode ∨ v ∈ live) :
    ∃ l l', s.onFull (fun nodes l => l.resetLoop nodes s.rootNode (s.counter + 1) none v) =
        some { s with fullLruList := l } ∧
      ({ s with fullLruList := l } : SwaRadixCache σ).onSwa (fun nodes l =>
        l.resetLoop nodes s.rootNode (s.counter + 1) none v) =
          some { s with fullLruList := l, swaLruList := l' } ∧
      Inv c { s with fullLruList := l, swaLruList := l' } locks handles live := by
  obtain ⟨chain, hchain⟩ := h.book.wf.exists_chain hv
  have hlive := h.book.wf.chain_live hchain hv
  have hfuel := Nat.lt_succ_of_le (h.book.paged.chain_length hchain hv)
  have hparent : ∀ v, (view c s v).parent = (s.nodes v).parent := fun _ => rfl
  have hstart : ∀ {p : Nat → Prop} w, none = some w → p w ∧ w ∉ chain := fun w hbad => nomatch hbad
  obtain ⟨l, hfull, hl⟩ := h.book.lists.full.resetLoop hparent hchain
    (fun w hw _ => hlive w hw) hstart hfuel
  obtain ⟨l', hswa, hl'⟩ := h.book.lists.swa.resetLoop hparent hchain
    (fun w hw htomb => ⟨hlive w hw, htomb rfl⟩) hstart hfuel
  refine ⟨l, l', ?_, ?_, h.lists ⟨hl, hl'⟩⟩
  · rw [onFull, hfull]
    rfl
  · rw [onSwa, hswa]
    rfl

/-- A key as a word of the tree: its whole pages, tagged with the `extra_key`. -/
def wordOf (c : SwaCacheParams) (key : RadixKey) : List ChildKey :=
  (alignedKey c key).syms c.pageSize

/-- What `match_prefix` returns: `bs` are the values of the longest stored prefix of the word,
and the first `m` of them are those of the longest usable prefix. -/
structure FoundAt (c : SwaCacheParams) (locks : List Lock) (handles : List Nat)
    (s : SwaRadixCache σ)
    (live : Finset Nat) (word : List ChildKey) (bs : List (List σ)) (m : Nat) (r : SwaMatchResult σ)
    (s' : SwaRadixCache σ) (live' : Finset Nat) : Prop where
  longest : Longest (view c s) s.rootNode [] word bs
  le : m ≤ bs.length
  values : r.deviceIndices = (bs.take m).flatten
  spells : Spells (view c s') s.rootNode r.lastDeviceNode (word.take m)
  ends : EndsAt c s word bs.length m
  usable : UsablePrefix c s word m
  best : ∀ j ≤ bs.length, EndsAt c s word bs.length j → UsablePrefix c s word j → j ≤ m
  inv : Inv c s' locks (r.lastDeviceNode :: handles) live'
  kept : Kept c s s' live live'

theorem Inv.root (h : Inv c s locks handles live) : Inv c s locks (s.rootNode :: handles) live := by
  refine ⟨h.book, h.node, h.window, h.uuids, fun v hv => ?_⟩
  rcases List.mem_cons.mp hv with rfl | hv
  · refine ⟨.inl rfl, fun x p q hx _ _ _ => ?_⟩
    have hchain : RadixTree.Chain (view c s) s.rootNode s.rootNode [] := .root
    cases hchain.under_iff.mp hx
  · exact h.usable v hv

theorem FoundAt.nothing {word : List ChildKey} (h : Inv c s locks handles live)
    (hnone : Longest (view c s) s.rootNode [] word []) :
    FoundAt c locks handles s live word [] 0 ⟨[], s.rootNode⟩ s live where
  longest := hnone
  le := Nat.le_refl _
  values := rfl
  spells := .root
  ends := .inl rfl
  usable := by
    refine .inl fun j hj hdead => ?_
    obtain ⟨v, i, hr, _⟩ := hdead
    obtain rfl := Nat.le_zero.mp hj
    exact h.book.wf.reads_ne_nil hr (.inl rfl) rfl
  best j hj _ _ := hj
  inv := h.root
  kept := .refl s live

theorem Inv.matchPrefix (h : Inv c s locks handles live) (hoff : c.disable = true → live = ∅)
    (key : RadixKey) : ∃ r s' bs m live', s.matchPrefix c key = some (r, s') ∧
      FoundAt c locks handles s live (wordOf c key) bs m r s' live' := by
  have hwf := h.book.wf
  have hstop : (c.disable = true ∨ (alignedKey c key).len = 0) →
      Longest (view c s) s.rootNode [] (wordOf c key) [] := by
    rintro (hdis | hzero)
    · refine ⟨Nat.zero_le _, by simp, fun _ b hb => ?_⟩
      obtain ⟨v, i, hr, _⟩ := hb
      have hlive := (hwf.reads_live hr (.inl rfl)).1
      rw [hoff hdis] at hlive
      exact Finset.notMem_empty v hlive
    · have hnil : wordOf c key = [] := RadixKey.syms_eq_nil hzero c.pageSize
      rw [hnil]
      exact ⟨Nat.le_refl _, by simp, fun hlt => absurd hlt (Nat.lt_irrefl _)⟩
  have haligned : (alignedKey c key).Aligned c.pageSize := RadixKey.aligned_pageAligned _ _
  rw [SwaRadixCache.matchPrefix]
  simp only
  split
  · next hskip =>
      refine ⟨_, s, [], 0, live, rfl, .nothing h (hstop ?_)⟩
      rw [Bool.or_eq_true, decide_eq_true_iff] at hskip
      refine hskip.imp_right fun hzero => ?_
      rw [alignedKey, RadixKey.len_pageAligned, hzero, Nat.zero_div, Nat.zero_mul]
  · change ∃ r s' bs m live', (if (alignedKey c key).len = 0 then some (⟨[], s.rootNode⟩, s)
      else (matchLoop c ((alignedKey c key).len + 1) (alignedKey c key)
        ⟨s.rootNode, [], ⊤, 0, s.rootNode, s⟩).bind fun p => matchPostProcessor (p.updateBest c)) =
      some (r, s') ∧ _
    split
    · next hzero => exact ⟨_, s, [], 0, live, rfl, .nothing h (hstop (.inr hzero))⟩
    · obtain ⟨p, bs, m₀, live', hrun, hp⟩ :=
        matchLoop_spec h (.new c s (wordOf c key) hwf) rfl haligned rfl
        (Nat.lt_succ_self _)
      obtain ⟨m, hscan, hmax⟩ := hp.scanned.updateBest
      have hcache : (p.updateBest c).cache = p.cache := by
        rw [MatchState.updateBest]
        split <;> rfl
      have hroot := hp.kept.rootNode
      have hnode := hscan.bestNode
      rw [hcache, ← hroot] at hnode
      have hm : m ≤ (wordOf c key).length := hscan.bestLe.trans hscan.le
      have husable := hscan.bestFree.usable hp.inv.book.wf hm hnode (by
        rw [hroot]
        exact fun x hx q => hp.kept.dead (hroot ▸ hp.inv.book.wf) hx)
      have hinv : Inv c p.cache locks ((p.updateBest c).bestLastNode :: handles) live' := by
        refine ⟨hp.inv.book, hp.inv.node, hp.inv.window, hp.inv.uuids, fun v hv => ?_⟩
        rcases List.mem_cons.mp hv with rfl | hv
        · exact ⟨hp.inv.book.wf.spells_live hnode, husable⟩
        · exact hp.inv.usable v hv
      obtain ⟨l, l', hfull, hswa, hinv'⟩ := hinv.resetLists (hp.inv.book.wf.spells_live hnode)
      refine ⟨⟨((p.updateBest c).value.take (p.updateBest c).bestValueLen).flatten,
        (p.updateBest c).bestLastNode⟩, { p.cache with fullLruList := l, swaLruList := l' }, bs, m,
          live', ?_, ?_⟩
      · rw [hrun, Option.bind_some, matchPostProcessor, hcache]
        simp only [Option.bind_eq_bind, hfull, Option.bind_some, hswa]
      · refine ⟨hp.longest, hscan.bestLe, hscan.bestValue, ?_, hscan.bestEnds,
          usablePrefix_iff.mpr hscan.bestFree, fun j hj hends hfree =>
            hmax j hj hends (usablePrefix_iff.mp hfree), hinv', ?_⟩
        · rw [hroot] at hnode
          exact hnode
        · exact ⟨hroot, hp.kept.sub, hp.kept.spells, hp.kept.entry, hp.kept.trace, hp.kept.slots,
            fun P hok => ⟨(hp.kept.pagesOk P hok).tree, (hp.kept.pagesOk P hok).frees⟩⟩

end Match

end SwaRadixCache

end SpecDecode.MemCache
