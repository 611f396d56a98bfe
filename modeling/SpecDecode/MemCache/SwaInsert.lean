import SpecDecode.MemCache.SwaMatch

/-!
# Inserting into the SWA radix cache

An insertion walks down like a search. The slots of a request for pages that are cached are
freed, except that a tombstone takes them and frees its own; the rest of the request becomes
new nodes. `Grown` says what all of this keeps.
-/

namespace SpecDecode.MemCache

open RadixTree

variable {σ : Type}

namespace SwaRadixCache

variable {c : SwaCacheParams} {s s' s'' : SwaRadixCache σ} {live live' live'' : Finset Nat}
variable {locks : List Lock} {handles : List Nat} {word q : List ChildKey}
variable {n k v node total fuel after evicted : Nat} {key : RadixKey} {value : List σ}

section Grown

/-- The page at the end of a word lies in a locked node. -/
def Held (c : SwaCacheParams) (s : SwaRadixCache σ) (p : List ChildKey) : Prop :=
  ∃ v i, Reads (view c s) s.rootNode p v i ∧ 0 < (s.nodes v).fullLockRef

/-- Nodes were split, added or took new slots: what could be read can be read, and what is new is
not locked. -/
structure Grown (c : SwaCacheParams) (s s' : SwaRadixCache σ) (live live' : Finset Nat) : Prop where
  rootNode : s'.rootNode = s.rootNode
  sub : live ⊆ live'
  spells : ∀ v q, Spells (view c s) s.rootNode v q → Spells (view c s') s.rootNode v q
  reads : ∀ p v i, Reads (view c s) s.rootNode p v i → ∃ w j, Reads (view c s') s.rootNode p w j
  trace : ∀ p v i, Reads (view c s') s.rootNode p v i →
    ((s'.nodes v).fullLockRef = 0 ∧ ∀ w j, ¬ Reads (view c s) s.rootNode p w j) ∨
      ∃ w j, Reads (view c s) s.rootNode p w j ∧
        (s'.nodes v).fullLockRef = (s.nodes w).fullLockRef ∧
        ((s'.nodes v).swaTombstone = true → (s.nodes w).swaTombstone = true)

theorem Grown.refl (s : SwaRadixCache σ) (live : Finset Nat) : Grown c s s live live :=
  ⟨rfl, Finset.Subset.refl _, fun _ _ h => h, fun _ v i hr => ⟨v, i, hr⟩, fun _ v i hr =>
    .inr ⟨v, i, hr, rfl, fun h => h⟩⟩

theorem Grown.trans (h : Grown c s s' live live') (h' : Grown c s' s'' live' live'') :
    Grown c s s'' live live'' := by
  have hroot := h.rootNode
  refine ⟨h'.rootNode.trans hroot, h.sub.trans h'.sub, fun v q hq => ?_, fun p v i hr => ?_,
    fun p v i hr => ?_⟩
  · have hstep := h'.spells v q (hroot ▸ h.spells v q hq)
    rwa [hroot] at hstep
  · obtain ⟨w, j, hw⟩ := h.reads p v i hr
    have hstep := h'.reads p w j (hroot ▸ hw)
    rwa [hroot] at hstep
  · rcases h'.trace p v i (hroot ▸ hr) with ⟨hzero, hnone⟩ | ⟨w, j, hw, hlock, htomb⟩
    · refine .inl ⟨hzero, fun w j hw => ?_⟩
      obtain ⟨x, k, hx⟩ := h.reads p w j hw
      exact hnone x k (hroot ▸ hx)
    · rw [hroot] at hw
      rcases h.trace p w j hw with ⟨hzero, hnone⟩ | ⟨x, k, hx, hlock', htomb'⟩
      · exact .inl ⟨hlock.trans hzero, hnone⟩
      · exact .inr ⟨x, k, hx, hlock.trans hlock', fun hv => htomb' (htomb hv)⟩

theorem Kept.grown (hwf : Wf (view c s) s.rootNode live) (h : Kept c s s' live live') :
    Grown c s s' live live' := by
  refine ⟨h.rootNode, h.sub, h.spells, fun p v i hr => ?_, fun p v i hr => ?_⟩
  · have hne := hwf.reads_ne_nil hr (.inl rfl)
    obtain ⟨b, hb⟩ := hwf.entry_of_reads (q := []) (by rwa [List.append_nil]) hne
    obtain ⟨w, j, hw, _⟩ := (h.entry p b).mpr hb
    exact ⟨w, j + 1, hw⟩
  · obtain ⟨w, j, hw, htomb, hlock⟩ := h.trace p v i hr
    exact .inr ⟨w, j, hw, hlock, fun hv => htomb ▸ hv⟩

theorem Grown.held (hwf : Wf (view c s) s.rootNode live) (h : Grown c s s' live live')
    {p : List ChildKey} (hp : Held c s p) : Held c s' p := by
  obtain ⟨v, i, hr, hlock⟩ := hp
  obtain ⟨w, j, hw⟩ := h.reads p v i hr
  rcases h.trace p w j hw with ⟨_, hnone⟩ | ⟨x, k, hx, heq, _⟩
  · exact absurd hr (hnone v i)
  · obtain ⟨rfl, _⟩ := hwf.reads_unique hx hr (.inl rfl)
    refine ⟨w, j, ?_, by rwa [heq]⟩
    rwa [h.rootNode]

/-- What could be read and was not dead does not die. -/
theorem Grown.dead (h : Grown c s s' live live') {p : List ChildKey} (hp : Dead c s' p)
    {v i : Nat} (hr : Reads (view c s) s.rootNode p v i) : Dead c s p := by
  obtain ⟨w, j, hw, htomb⟩ := hp
  rw [h.rootNode] at hw
  rcases h.trace p w j hw with ⟨_, hnone⟩ | ⟨x, k, hx, _, hflag⟩
  · exact absurd hr (hnone v i)
  · exact ⟨x, k, hx, hflag htomb⟩

theorem Grown.free (s : SwaRadixCache σ) (live : Finset Nat) (slots : List σ) :
    Grown c s (s.free slots) live live :=
  ⟨rfl, Finset.Subset.refl _, fun _ _ h => h, fun _ v i hr => ⟨v, i, hr⟩, fun _ v i hr =>
    .inr ⟨v, i, hr, rfl, fun h => h⟩⟩

@[simp] theorem slots_free (s : SwaRadixCache σ) (live : Finset Nat) (slots : List σ) :
    (s.free slots).slots live = s.slots live + slots := by
  rw [SwaRadixCache.slots, frees_free, List.flatten_append, List.flatten_singleton,
    ← Multiset.coe_add, ← add_assoc]
  rfl

theorem PagesOk.free {P : List σ → Prop} (h : PagesOk P c s live) {slots : List σ}
    (hlen : c.pageSize ∣ slots.length) (hslots : ∀ b ∈ pages c.pageSize slots, P b) :
    PagesOk P c (s.free slots) live := by
  refine ⟨h.tree, fun l hl => ?_⟩
  rw [frees_free] at hl
  rcases List.mem_append.mp hl with hl | hl
  · exact h.frees l hl
  · rw [List.mem_singleton.mp hl]
    exact ⟨hlen, hslots⟩

end Grown

section Overwrite

variable (hs : OverwriteTo s s' v value)

include hs

theorem OverwriteTo.reads_iff {p : List ChildKey} {w i : Nat} :
    Reads (view c s') s.rootNode p w i ↔ Reads (view c s) s.rootNode p w i := by
  have hchild : ∀ w a, (view c s' w).child a = (view c s w).child a := fun w a => by
    simp only [view, PageTree.view, (hs.tree.fields w).1]
  have hlabel : ∀ w, (view c s' w).label = (view c s w).label := fun w => by
    simp only [view, PageTree.view, (hs.tree.fields w).2.2]
  exact ⟨.congr (fun w a => (hchild w a).symm) fun w => (hlabel w).symm, .congr hchild hlabel⟩

theorem OverwriteTo.grown : Grown c s s' live live := by
  refine ⟨by rw [hs.rest], Finset.Subset.refl _, fun _ _ => hs.tree.spells, fun p w i hr =>
    ⟨w, i, hs.reads_iff.mpr hr⟩, fun p w i hr =>
      .inr ⟨w, i, hs.reads_iff.mp hr, ?_, fun htomb => ?_⟩⟩
  · by_cases hw : w = v
    · rw [hw, hs.self]
    · rw [hs.other w hw]
  · by_cases hw : w = v
    · rw [hw, hs.self] at htomb
      cases htomb
    · rwa [hs.other w hw] at htomb

theorem OverwriteTo.entry {p : List ChildKey} {b : List σ}
    (hnot : ∀ i, ¬ Reads (view c s) s.rootNode p v i)
    (hb : Entry (view c s) s.rootNode p b) : Entry (view c s') s.rootNode p b := by
  obtain ⟨w, i, hr, hget⟩ := hb
  have hw : w ≠ v := fun heq => hnot _ (heq ▸ hr)
  refine ⟨w, i, hs.reads_iff.mpr hr, ?_⟩
  simp only [view, PageTree.view, hs.tree.other w hw]
  exact hget

theorem OverwriteTo.slots_eq (hv : v ∈ live) :
    s'.slots live + (s.nodes v).value = s.slots live + value := by
  have hframe : s'.frees = s.frees := by
    rw [hs.rest]
    rfl
  have htree : PageTree.slots s'.tree live + (s.nodes v).value =
      PageTree.slots s.tree live + value :=
    hs.tree.slots_eq hv
  rw [slots, slots, hframe, add_right_comm, htree, add_right_comm]

theorem OverwriteTo.pagesOk {P : List σ → Prop} (h : PagesOk P c s live)
    (hvalue : ∀ b ∈ pages c.pageSize value, P b) : PagesOk P c s' live := by
  refine ⟨hs.tree.pagesOk h.tree hvalue, ?_⟩
  have hframe : s'.frees = s.frees := by
    rw [hs.rest]
    rfl
  rw [hframe]
  exact h.frees

end Overwrite

section Matched

/-- What happens at a matched node with `len` units behind `total` units. The slots of the request
are taken or freed unless they lie within `update_kv_after_len`. -/
structure Updated (c : SwaCacheParams) (locks : List Lock) (handles : List Nat)
    (s : SwaRadixCache σ)
    (live : Finset Nat) (after evicted total len v : Nat) (value : List σ) (s' : SwaRadixCache σ)
    (live' : Finset Nat) : Prop where
  inv : Inv c s' locks handles live'
  grown : Grown c s s' live live'
  slots : s'.slots live' = s.slots live +
    (if after < total + len then value.take len else [] : List σ)
  entry : (after < total + len → evicted < total + len → (s.nodes v).swaTombstone = true →
    (s.nodes v).fullLockRef = 0) → ∀ p b, Held c s p → Entry (view c s) s.rootNode p b →
      Entry (view c s') s.rootNode p b
  fresh : after < total + len → ∀ p i, Reads (view c s) s.rootNode p v i →
    evicted < total + i * c.pageSize → ¬ Dead c s' p
  pagesOk : ∀ P : List σ → Prop, PagesOk P c s live → (∀ b ∈ pages c.pageSize value, P b) →
    PagesOk P c s' live'

theorem mem_pages_take {b : List σ} (hb : b ∈ pages c.pageSize (value.take (n * c.pageSize))) :
    b ∈ pages c.pageSize value := by
  rw [pages_take] at hb
  exact List.mem_of_mem_take hb

theorem mem_pages_drop {b : List σ} (hb : b ∈ pages c.pageSize (value.drop (n * c.pageSize))) :
    b ∈ pages c.pageSize value := by
  rw [pages_drop] at hb
  exact List.mem_of_mem_drop hb

theorem Updated.freed {len : Nat} (h : Inv c s locks handles live) (hlen : len = n * c.pageSize)
    (hvalue : len ≤ value.length)
    (hdead : after < total + len → ∀ p i, Reads (view c s) s.rootNode p v i →
      evicted < total + i * c.pageSize → ¬ Dead c s p) (hupdate : after < total + len) :
    Updated c locks handles s live after evicted total len v value
    (s.free (value.take len)) live := by
  refine ⟨h.free _, .free s live _, ?_, fun _ p b _ hb => hb, hdead, fun P hok hpages => ?_⟩
  · rw [slots_free, if_pos hupdate]
  · refine hok.free ?_ fun b hb => hpages b (mem_pages_take (n := n) (hlen ▸ hb))
    rw [List.length_take, Nat.min_eq_left hvalue, hlen]
    exact Nat.dvd_mul_left _ _

theorem Inv.overwriteWhole {len : Nat} (h : Inv c s locks handles live) (hv : v ∈ live)
    (hkey : (s.nodes v).key.len = len) (hlen : len = n * c.pageSize) (hvalue : len ≤ value.length)
    (htomb : (s.nodes v).swaTombstone = true) (hupdate : after < total + len)
    (hwhole : evicted ≤ total) (hpos : 0 < len) :
    ∃ s', (s.free ((s.nodes v).value.take len)).overwriteNode v (value.take len) = some s' ∧
      Updated c locks handles s live after evicted total len v value s' live := by
  have hold : (s.nodes v).value.length = len := (h.book.paged.values v hv).trans hkey
  have hnew : (value.take len).length = len := List.length_take_of_le hvalue
  have hfree := h.free ((s.nodes v).value.take len)
  obtain ⟨s', hrun, hto, hinv⟩ := hfree.overwrite hv htomb (hnew.trans hkey.symm)
  refine ⟨s', hrun, hinv, (Grown.free s live _).trans hto.grown, ?_, ?_, ?_, ?_⟩
  · have hslots := hto.slots_eq hv
    rw [slots_free, List.take_of_length_le (Nat.le_of_eq hold)] at hslots
    rw [if_pos hupdate]
    apply add_right_cancel (b := ((s.nodes v).value : Multiset σ))
    rw [add_right_comm]
    exact hslots
  · intro hsafe p b hp hb
    have hzero := hsafe hupdate (by omega) htomb
    refine hto.entry (fun i hr => ?_) hb
    obtain ⟨w, j, hw, hlock⟩ := hp
    obtain ⟨rfl, _⟩ := h.book.wf.reads_unique hr hw (.inl rfl)
    omega
  · intro _ p i hr _ hdead
    obtain ⟨w, j, hw, hflag⟩ := hdead
    have hroot : s'.rootNode = s.rootNode := by
      rw [hto.rest]
      rfl
    rw [hroot] at hw
    obtain ⟨rfl, _⟩ := h.book.wf.reads_unique (hto.reads_iff.mp hw) hr (.inl rfl)
    rw [hto.self] at hflag
    cases hflag
  · intro P hok hpages
    refine hto.pagesOk (hok.free ?_ fun b hb => ?_) fun b hb =>
      hpages b (mem_pages_take (n := n) (hlen ▸ hb))
    · rw [List.length_take, hold, Nat.min_self, hlen]
      exact Nat.dvd_mul_left _ _
    · exact hok.tree v hv b (mem_pages_take (n := n) (hlen ▸ hb))

/-- The slots of `v` behind `m` pages have been freed, and `v` is what was split off there. -/
structure RestCut (c : SwaCacheParams) (s s' : SwaRadixCache σ) (live live' : Finset Nat)
    (v m : Nat) : Prop where
  grown : Grown c s s' live live'
  mem : v ∈ live'
  tombstone : (s'.nodes v).swaTombstone = (s.nodes v).swaTombstone
  len : (s'.nodes v).key.len = (s.nodes v).key.len - m * c.pageSize
  value : (s'.nodes v).value = (s.nodes v).value.drop (m * c.pageSize)
  slots : s'.slots live' = s.slots live + ((s.nodes v).value.drop (m * c.pageSize) : List σ)
  entry : ∀ p b, Entry (view c s') s.rootNode p b ↔ Entry (view c s) s.rootNode p b
  reads : ∀ p i, Reads (view c s') s.rootNode p v i ↔ 0 < i ∧
    Reads (view c s) s.rootNode p v (m + i)
  pagesOk : ∀ P : List σ → Prop, PagesOk P c s live → PagesOk P c s' live'

theorem Inv.cutRest {m : Nat} (h : Inv c s locks handles live) (hv : v ∈ live)
    (hkey : (s.nodes v).key.len = n * c.pageSize) (hm : 0 < m) (hmn : m < n) :
    ∃ x s' live',
      (s.free ((s.nodes v).value.drop (m * c.pageSize))).splitNode c v (m * c.pageSize) =
      some (x, s') ∧
      Inv c s' locks handles live' ∧ RestCut c s s' live live' v m := by
  have hold : (s.nodes v).value.length = n * c.pageSize := (h.book.paged.values v hv).trans hkey
  have hpages : SwaRadixCache.pagesOf c s v = n :=
    Nat.eq_of_mul_eq_mul_right c.pageSize_pos ((h.book.value_length hv).symm.trans hold)
  have h₁ := h.free ((s.nodes v).value.drop (m * c.pageSize))
  obtain ⟨u, s', a, a', hrun, hs, hsplit, h'⟩ := h₁.splitNode hv hm (hmn.trans_eq hpages.symm)
  have hkept := hs.kept h₁.book hv hsplit
  have hne : v ≠ s.counter := h.book.paged.ne_counter (.inr hv)
  refine ⟨_, s', _, hrun, h', (Grown.free s live _).trans (hkept.grown h₁.book.wf),
    Finset.mem_insert_of_mem hv, (hs.flags v hne).1, ?_, congrArg PageNode.value hs.tree.atChild,
    ?_, hkept.entry, fun p i => ?_, fun P hok => hkept.pagesOk P (hok.free ?_ fun b hb => ?_)⟩
  · refine (congrArg (fun node => node.key.len) hs.tree.atChild).trans ?_
    rw [RadixKey.len_slice, Nat.min_self]
    rfl
  · rw [hkept.slots, slots_free]
  · refine (hsplit.reads_iff h₁.book.wf).trans ?_
    simp only [ne_eq, not_true_eq_false, false_and, and_false, or_false, true_and]
    exact or_iff_right fun hnew => hne hnew.1
  · rw [List.length_drop, hold, ← Nat.sub_mul]
    exact Nat.dvd_mul_left _ _
  · exact hok.tree v hv b (mem_pages_drop hb)

theorem Inv.overwriteRest {m : Nat} (h : Inv c s locks handles live) (hv : v ∈ live)
    (hkey : (s.nodes v).key.len = n * c.pageSize) (hvalue : n * c.pageSize ≤ value.length)
    (htomb : (s.nodes v).swaTombstone = true) (hm : 0 < m) (hmn : m < n)
    (hevicted : evicted = total + m * c.pageSize) (hupdate : after < total + n * c.pageSize) :
    ∃ s' live',
    (((s.free (((s.nodes v).value.take (n * c.pageSize)).drop (m * c.pageSize))).splitNode c v
        (m * c.pageSize)).bind fun (_, s) => (s.free (value.take (m * c.pageSize))).overwriteNode v
          ((value.take (n * c.pageSize)).drop (m * c.pageSize))) = some s' ∧
      Updated c locks handles s live after evicted total (n * c.pageSize) v value s' live' := by
  have hold : (s.nodes v).value.length = n * c.pageSize := (h.book.paged.values v hv).trans hkey
  have hmul : m * c.pageSize < n * c.pageSize := Nat.mul_lt_mul_of_pos_right hmn c.pageSize_pos
  rw [List.take_of_length_le (Nat.le_of_eq hold)]
  obtain ⟨x, s₂, live₂, hrun, h₂, hcut⟩ := h.cutRest hv hkey hm hmn
  have hlen : ((value.take (n * c.pageSize)).drop (m * c.pageSize)).length =
      (s₂.nodes v).key.len := by
    rw [List.length_drop, List.length_take_of_le hvalue, hcut.len, hkey]
  obtain ⟨s₃, hrun₃, hto, h₃⟩ := (h₂.free (value.take (m * c.pageSize))).overwrite hcut.mem
    (hcut.tombstone.trans htomb) hlen
  have hroot₂ : s₂.rootNode = s.rootNode := hcut.grown.rootNode
  have hroot : (s₂.free (value.take (m * c.pageSize))).rootNode = s.rootNode := hroot₂
  have hgrown := hcut.grown.trans ((Grown.free (c := c) s₂ live₂ _).trans hto.grown)
  refine ⟨s₃, _, ?_, h₃, hgrown, ?_, fun hsafe p b hp hb => ?_, fun _ p i hr hlt hdead => ?_,
    fun P hok hok' => ?_⟩
  · rw [hrun]
    exact hrun₃
  · have hslots := hto.slots_eq hcut.mem
    have hparts : value.take (m * c.pageSize) ++
      (value.take (n * c.pageSize)).drop (m * c.pageSize) =
        value.take (n * c.pageSize) := by
      have hfirst : value.take (m * c.pageSize) = (value.take (n * c.pageSize)).take
          (m * c.pageSize) := by
        rw [List.take_take, Nat.min_eq_left (Nat.le_of_lt hmul)]
      rw [hfirst, List.take_append_drop]
    rw [slots_free, hcut.slots] at hslots
    rw [if_pos hupdate, ← hparts, ← Multiset.coe_add, ← add_assoc]
    apply add_right_cancel (b := ((s₂.nodes v).value : Multiset σ))
    refine hslots.trans ?_
    rw [hcut.value]
    simp only [add_assoc, add_comm]
  · -- a page of the second part was read in the node, which is not locked
    have hentry := hto.entry (c := c) (p := p) (b := b)
    rw [hroot] at hentry
    refine hentry (fun i hr => ?_) ((hcut.entry p b).mpr hb)
    obtain ⟨w, k, hw, hlock⟩ := hp
    obtain ⟨rfl, _⟩ := h.book.wf.reads_unique ((hcut.reads p i).mp hr).2 hw (.inl rfl)
    have hzero := hsafe hupdate (by omega) htomb
    omega
  · obtain ⟨w, j, hw, hflag⟩ := hdead
    have hmi : m < i := by
      rw [hevicted] at hlt
      exact Nat.lt_of_mul_lt_mul_right (Nat.lt_of_add_lt_add_left hlt)
    have hr₂ : Reads (view c s₂) s₂.rootNode p v (i - m) := by
      rw [hroot₂, hcut.reads, Nat.add_sub_cancel' (Nat.le_of_lt hmi)]
      exact ⟨Nat.sub_pos_of_lt hmi, hr⟩
    have hw₂ := hto.reads_iff (c := c) (p := p) (w := w) (i := j)
    rw [hroot, ← hgrown.rootNode] at hw₂
    have hw₂ : Reads (view c s₂) s₂.rootNode p w j := by
      rw [hroot₂, ← hgrown.rootNode]
      exact hw₂.mp hw
    obtain ⟨rfl, _⟩ := h₂.book.wf.reads_unique hw₂ hr₂ (.inl rfl)
    rw [hto.self] at hflag
    cases hflag
  · refine hto.pagesOk ((hcut.pagesOk P hok).free ?_ fun b hb => hok' b (mem_pages_take hb))
      fun b hb => ?_
    · rw [List.length_take, Nat.min_eq_left ((Nat.le_of_lt hmul).trans hvalue)]
      exact Nat.dvd_mul_left _ _
    · exact hok' b (mem_pages_take (mem_pages_drop hb))

theorem Inv.updateMatchedNode (after : Nat) (h : Inv c s locks handles live) (hv : v ∈ live)
    (hkey : (s.nodes v).key.len = n * c.pageSize) (hn : 0 < n)
    (hvalue : n * c.pageSize ≤ value.length)
    (htotal : c.pageSize ∣ total) (halign : c.pageSize ∣ evicted) :
    ∃ s' live', s.updateMatchedNode c after evicted total (n * c.pageSize) v value = some s' ∧
      Updated c locks handles s live after evicted total (n * c.pageSize) v value s' live' := by
  have hpos : 0 < n * c.pageSize := Nat.mul_pos hn c.pageSize_pos
  rw [SwaRadixCache.updateMatchedNode]
  simp only
  by_cases hupdate : after < total + n * c.pageSize
  · rw [if_pos hupdate]
    cases htomb : (s.nodes v).swaTombstone with
    | false =>
        refine ⟨_, live, rfl, .freed h rfl hvalue (fun _ p i hr _ hdead => ?_) hupdate⟩
        obtain ⟨w, j, hw, hflag⟩ := hdead
        obtain ⟨rfl, _⟩ := h.book.wf.reads_unique hw hr (.inl rfl)
        rw [htomb] at hflag
        cases hflag
    | true =>
        have hlock : (s.nodes v).swaLockRef = 0 ∧ evicted % c.pageSize = 0 := by
          refine ⟨?_, Nat.mod_eq_zero_of_dvd halign⟩
          rw [h.book.swaLock v hv, h.book.tombstone v hv htomb]
          rfl
        rw [if_pos rfl, if_pos hlock]
        by_cases hwhole : evicted ≤ total
        · obtain ⟨s', hrun, hs'⟩ := h.overwriteWhole hv hkey rfl hvalue htomb hupdate hwhole hpos
          exact ⟨s', live, by rw [if_pos hwhole, hrun], hs'⟩
        · rw [if_neg hwhole]
          by_cases hpart : evicted < total + n * c.pageSize
          · obtain ⟨m, hm⟩ : c.pageSize ∣ evicted - total := Nat.dvd_sub halign htotal
            rw [Nat.mul_comm] at hm
            have hmpos : 0 < m := by
              by_contra hzero
              rw [Nat.eq_zero_of_not_pos hzero, Nat.zero_mul] at hm
              omega
            have hmn : m < n := by
              apply Nat.lt_of_mul_lt_mul_right (a := c.pageSize)
              omega
            have hevicted : evicted = total + m * c.pageSize := by omega
            obtain ⟨s', live', hrun, hs'⟩ :=
              h.overwriteRest hv hkey hvalue htomb hmpos hmn hevicted hupdate
            exact ⟨s', live', by rw [if_pos hpart, hm, hrun], hs'⟩
          · refine ⟨_, live, by rw [if_neg hpart],
              .freed h rfl hvalue (fun _ p i hr hlt => ?_) hupdate⟩
            have hle := (h.book.wf.reads_live hr (.inl rfl)).2.2
            have hpages : (view c s v).label.length * c.pageSize = n * c.pageSize :=
              (h.book.paged.aligned v hv).len_eq.trans hkey
            have := Nat.mul_le_mul_right c.pageSize hle
            omega
  · refine ⟨s, live, by rw [if_neg hupdate], h, .refl s live, ?_, fun _ p b _ hb => hb,
      fun hbad => absurd hbad hupdate, fun P hok _ => hok⟩
    rw [if_neg hupdate]
    exact (add_zero _).symm

end Matched

section Walk

variable {w : List ChildKey}

/-- `update_kv_after_len` is behind or at the end of a node on the way. -/
def AtBorder (c : SwaCacheParams) (s : SwaRadixCache σ) (q w : List ChildKey) (total after : Nat) :
    Prop :=
  after ≤ total ∨ ∃ m u, after = total + m * c.pageSize ∧ m ≤ w.length ∧
    Spells (view c s) s.rootNode u (q ++ w.take m)

/-- No tombstone that an insertion would overwrite is locked. -/
def Safe (c : SwaCacheParams) (s : SwaRadixCache σ) (q w : List ChildKey)
    (total after evicted : Nat) : Prop :=
  ∀ j v i, j ≤ w.length → Reads (view c s) s.rootNode (q ++ w.take j) v i →
    after < total + j * c.pageSize → evicted < total + j * c.pageSize →
    (s.nodes v).swaTombstone = true → (s.nodes v).fullLockRef = 0

/-- Where the loop of an insertion ends: `k` pages were cached, and the slots of the request for
those behind `after` were taken or freed. -/
structure InsertAt (c : SwaCacheParams) (locks : List Lock) (handles : List Nat)
    (s : SwaRadixCache σ)
    (live : Finset Nat) (after evicted : Nat) (q : List ChildKey) (total : Nat) (key : RadixKey)
    (value : List σ) (k : Nat) (p : InsertPoint σ) (live' : Finset Nat) : Prop where
  inv : Inv c p.cache locks handles live'
  grown : Grown c s p.cache live live'
  le : k ≤ (key.syms c.pageSize).length
  prefixLen : p.totalPrefixLength = total + k * c.pageSize
  spells : Spells (view c p.cache) s.rootNode p.node (q ++ (key.syms c.pageSize).take k)
  aligned : p.key.Aligned c.pageSize
  syms : p.key.syms c.pageSize = (key.syms c.pageSize).drop k
  rest : p.value = value.drop (k * c.pageSize)
  free : 0 < p.key.len →
    (p.cache.nodes p.node).children.lookup (p.key.childKey c.pageSize) = none
  slots : AtBorder c s q (key.syms c.pageSize) total after →
    p.cache.slots live' = s.slots live +
      ((value.take (k * c.pageSize)).drop (after - total) : List σ)
  entry : Safe c s q (key.syms c.pageSize) total after evicted → ∀ p' b, Held c s p' →
    Entry (view c s) s.rootNode p' b → Entry (view c p.cache) s.rootNode p' b
  fresh : ∀ j, 0 < j → j ≤ k → after < total + j * c.pageSize → evicted < total + j * c.pageSize →
    ¬ Dead c p.cache (q ++ (key.syms c.pageSize).take j)
  pagesOk : ∀ P : List σ → Prop, PagesOk P c s live → (∀ b ∈ pages c.pageSize value, P b) →
    PagesOk P c p.cache live'

theorem AtBorder.next {m : Nat} (hgrown : Grown c s s' live live') (hm : m ≤ w.length)
    (h : AtBorder c s q w total after) :
    AtBorder c s' (q ++ w.take m) (w.drop m) (total + m * c.pageSize) after := by
  rcases h with hle | ⟨i, u, rfl, hi, hu⟩
  · exact .inl (by omega)
  · by_cases him : i ≤ m
    · have := Nat.mul_le_mul_right c.pageSize him
      exact .inl (by omega)
    · refine .inr ⟨i - m, u, ?_, by rw [List.length_drop]; omega, ?_⟩
      · rw [Nat.add_assoc, ← Nat.add_mul, Nat.add_sub_cancel' (by omega)]
      · rw [List.append_assoc, ← List.take_add, Nat.add_sub_cancel' (by omega), hgrown.rootNode]
        exact hgrown.spells _ _ hu

theorem Safe.next {m : Nat} (hgrown : Grown c s s' live live') (hm : m ≤ w.length)
    (h : Safe c s q w total after evicted) :
    Safe c s' (q ++ w.take m) (w.drop m) (total + m * c.pageSize) after evicted := by
  intro j v i hj hr hafter hevicted htomb
  rw [List.append_assoc, ← List.take_add, hgrown.rootNode] at hr
  rw [Nat.add_assoc, ← Nat.add_mul] at hafter hevicted
  rw [List.length_drop] at hj
  rcases hgrown.trace _ v i hr with ⟨hzero, _⟩ | ⟨x, k, hx, hlock, hflag⟩
  · exact hzero
  · rw [hlock]
    exact h (m + j) x k (by omega) hx hafter hevicted (hflag htomb)

theorem AtBorder.not_inside {child a} (hwf : Wf (view c s) s.rootNode live)
    (hq : Spells (view c s) s.rootNode node q) (hedge : (view c s node).child a = some child)
    (hn : n ≤ pagesOf c s child) (hlabel : (view c s child).label.take n = w.take n)
    (h : AtBorder c s q w total after) : after ≤ total ∨ total + n * c.pageSize ≤ after := by
  rcases h with hle | ⟨i, u, rfl, hi, hu⟩
  · exact .inl hle
  · by_cases hzero : i = 0
    · subst hzero
      exact .inl (by omega)
    · by_cases hin : i < n
      · have htake := congrArg (List.take i) hlabel
        rw [List.take_take, List.take_take, Nat.min_eq_left (by omega)] at htake
        rw [← htake] at hu
        exact absurd hu (not_spells_inside hwf hq hedge (Nat.pos_of_ne_zero hzero) (by omega))
      · have := Nat.mul_le_mul_right c.pageSize (Nat.le_of_not_lt hin)
        exact .inr (by omega)

/-- Pages that are read before the end of a path are read in front of it. -/
theorem fresh_take {m j : Nat} (hjm : j ≤ m) : q ++ w.take j = q ++ (w.take m).take j := by
  rw [List.take_take, Nat.min_eq_left hjm]

private theorem drop_take_append (value : List σ) (i j d : Nat) (hi : i ≤ value.length) :
    (value.take i).drop d ++ ((value.drop i).take j).drop (d - i) =
    (value.take (i + j)).drop d := by
  have hlen : (value.take i).length = i := List.length_take_of_le hi
  rw [List.take_add, List.drop_append, hlen]

theorem InsertAt.step {child : Nat} {bs : List (List σ)} {r : Nat × SwaRadixCache σ}
    {p : InsertPoint σ}
    {live₂ live₃ live₄ : Finset Nat} (ha : Advanced c locks handles s live q key child n bs r live₂)
    (hu : Updated c locks handles r.2 live₂ after evicted total (n * c.pageSize) r.1 value s' live₃)
    (hwf : Wf (view c s) s.rootNode live) (hq : Spells (view c s) s.rootNode node q)
    (hedge : (s.nodes node).children.lookup (key.childKey c.pageSize) = some child)
    (hvalue : n * c.pageSize ≤ value.length)
    (hp : InsertAt c locks handles s' live₃ after evicted (q ++ (key.syms c.pageSize).take n)
      (total + n * c.pageSize) (key.slice (n * c.pageSize) key.len)
      (value.drop (n * c.pageSize)) k p live₄) :
    InsertAt c locks handles s live after evicted q total key value (n + k) p live₄ := by
  have hedge : (view c s node).child (key.childKey c.pageSize) = some child := hedge
  have hsyms : (key.slice (n * c.pageSize) key.len).syms c.pageSize =
      (key.syms c.pageSize).drop n :=
    RadixKey.syms_drop _ _ _
  have hgrown₂ := ha.kept.grown hwf
  have hgrown₃ := hgrown₂.trans hu.grown
  have hroot₂ := hgrown₂.rootNode
  have hroot₃ := hgrown₃.rootNode
  have hlen : ((key.syms c.pageSize).take n).length = (view c r.2 r.1).label.length := by
    rw [List.length_take, Nat.min_eq_left ha.le]
    apply Nat.eq_of_mul_eq_mul_right c.pageSize_pos
    exact ((ha.inv.book.paged.aligned r.1 ha.mem).len_eq.trans ha.keyLen).symm
  refine ⟨hp.inv, hgrown₃.trans hp.grown, ?_, ?_, ?_, hp.aligned, ?_, ?_, hp.free, ?_, ?_, ?_, ?_⟩
  · have hle := hp.le
    rw [hsyms, List.length_drop] at hle
    have := ha.le
    omega
  · rw [hp.prefixLen, Nat.add_mul, Nat.add_assoc]
  · have hspells := hp.spells
    rwa [hsyms, List.append_assoc, ← List.take_add, hroot₃] at hspells
  · rw [hp.syms, hsyms, List.drop_drop]
  · rw [hp.rest, List.drop_drop, Nat.add_mul]
  · intro hborder
    have hinside := hborder.not_inside hwf hq hedge ha.childLe ha.label
    have hnext := hp.slots (hsyms ▸ hborder.next hgrown₃ ha.le)
    have hfreed :
      (if after < total + n * c.pageSize then value.take (n * c.pageSize) else [] : List σ) =
        (value.take (n * c.pageSize)).drop (after - total) := by
      have hpos : 0 < n * c.pageSize := Nat.mul_pos ha.pos c.pageSize_pos
      split
      · rw [Nat.sub_eq_zero_of_le (by omega), List.drop_zero]
      · rw [List.drop_of_length_le]
        rw [List.length_take]
        omega
    rw [hnext, hu.slots, ha.kept.slots, hfreed, Nat.add_mul, ← drop_take_append value _ _ _ hvalue,
      ← Multiset.coe_add, Nat.sub_sub, add_assoc]
  · intro hsafe p' b hp' hb
    have hb₂ : Entry (view c r.2) r.2.rootNode p' b := by
      rw [hroot₂]
      exact (ha.kept.entry p' b).mpr hb
    have hheld₂ := hgrown₂.held hwf hp'
    have hb₃ := hu.entry (fun hafter hevicted htomb => ?_) p' b hheld₂ hb₂
    · rw [hroot₂, ← hroot₃] at hb₃
      have hb₄ := hp.entry (hsyms ▸ hsafe.next hgrown₃ ha.le) p' b (hgrown₃.held hwf hp') hb₃
      rwa [hroot₃] at hb₄
    · rw [ha.fullLock]
      have hr := reads_child_take hwf hq hedge ha.pos ha.childLe
      rw [ha.label] at hr
      exact hsafe n child n ha.le hr hafter hevicted (ha.tombstone ▸ htomb)
  · intro j hpos hj hafter hevicted
    by_cases hjn : j ≤ n
    · have hr : Reads (view c r.2) r.2.rootNode
          (q ++ ((key.syms c.pageSize).take n).take j) r.1 j := by
        refine ha.inv.book.wf.reads_take ha.mem ?_ hlen hpos ?_
        · rw [hroot₂]
          exact ha.spells
        · rw [List.length_take]
          have := ha.le
          omega
      have hmul := Nat.mul_le_mul_right c.pageSize hjn
      have halive := hu.fresh (by omega) _ j hr hevicted
      obtain ⟨w, i, hw⟩ := hu.grown.reads _ _ _ hr
      rw [hroot₂, ← hroot₃] at hw
      rw [fresh_take hjn]
      exact fun hdead => halive (hp.grown.dead hdead hw)
    · have halive := hp.fresh (j - n) (by omega) (by omega) (by
        rw [Nat.add_assoc, ← Nat.add_mul, Nat.add_sub_cancel' (by omega)]
        exact hafter) (by
        rw [Nat.add_assoc, ← Nat.add_mul, Nat.add_sub_cancel' (by omega)]
        exact hevicted)
      rwa [hsyms, List.append_assoc, ← List.take_add, Nat.add_sub_cancel' (by omega)] at halive
  · intro P hok hpages
    exact hp.pagesOk P (hu.pagesOk P (ha.kept.pagesOk P hok) hpages) fun b hb =>
      hpages b (mem_pages_drop hb)

theorem insertLoop_spec (after : Nat) (h : Inv c s locks handles live)
    (hq : Spells (view c s) s.rootNode node q)
    (hkey : key.Aligned c.pageSize) (hvalue : value.length = key.len) (htotal : c.pageSize ∣ total)
    (halign : c.pageSize ∣ evicted) (hfuel : key.len < fuel) :
    ∃ p live' k, insertLoop c after evicted fuel ⟨total, node, key, value, s⟩ = some p ∧
      InsertAt c locks handles s live after evicted q total key value k p live' := by
  induction fuel generalizing s live node key q total value with
  | zero => omega
  | succ fuel ih =>
      have hstay : (0 < key.len → (s.nodes node).children.lookup (key.childKey c.pageSize) = none) →
          InsertAt c locks handles s live after evicted q total key value 0
            ⟨total, node, key, value, s⟩
            live := by
        intro hstop
        refine ⟨h, .refl s live, Nat.zero_le _, by simp, by simpa using hq, hkey, rfl, by simp,
          hstop, fun _ => by simp, fun _ _ _ _ hb => hb, fun j hpos hj => by omega,
          fun P hok _ => hok⟩
      rw [insertLoop]
      split
      · next hpos =>
          cases hlookup : (s.nodes node).children.lookup (key.childKey c.pageSize) with
          | none => exact ⟨_, _, _, rfl, hstay fun _ => hlookup⟩
          | some child =>
              have hedge : (view c s node).child (key.childKey c.pageSize) = some child := hlookup
              have hchild := (h.book.wf.child _ _ _ (h.book.wf.spells_live hq) hedge).1
              obtain ⟨l, l', hreset, hlists⟩ := h.book.lists.reset hchild
              have h₁ := h.lists hlists
              obtain ⟨n, bs, r, live₂, hmatch, hrun, ha, _⟩ :=
                  h₁.advance (q := q) hq hkey hpos hlookup
              replace ha := ha.ofLists
              have hlen := hkey.len_eq
              have hmul := Nat.mul_le_mul_right c.pageSize ha.le
              have hlong : n * c.pageSize ≤ value.length := by omega
              obtain ⟨s₃, live₃, hupdate, hu⟩ :=
                ha.inv.updateMatchedNode after ha.mem ha.keyLen ha.pos
                hlong htotal halign
              have hspells : Spells (view c s₃) s₃.rootNode r.1
                  (q ++ (key.syms c.pageSize).take n) := by
                have hnode := ha.spells
                rw [← ha.kept.rootNode] at hnode
                rw [hu.grown.rootNode]
                exact hu.grown.spells _ _ hnode
              obtain ⟨haligned, hkeylen, _, _⟩ :=
                RadixCache.RadixKey.rest_spec hkey c.pageSize_pos ha.pos ha.le
              have hvalue' : (value.drop (n * c.pageSize)).length =
                  (key.slice (n * c.pageSize) key.len).len := by
                rw [List.length_drop, hkeylen, hvalue]
              have htotal' : c.pageSize ∣ total + n * c.pageSize :=
                (Nat.dvd_add_right htotal).mpr (Nat.dvd_mul_left _ _)
              obtain ⟨p, live₄, k, hloop, hp⟩ :=
                ih hu.inv hspells haligned hvalue' htotal' (by omega)
              refine ⟨p, live₄, n + k, ?_, .step ha hu h.book.wf hq hlookup hlong hp⟩
              simp only [Option.bind_eq_bind, hreset, Option.bind_some]
              rw [hmatch]
              split at hrun
              · next hlt =>
                  rw [if_pos hlt, hrun, Option.bind_some, hupdate, Option.bind_some, hloop]
              · next hlt =>
                  obtain rfl := Option.some.inj hrun
                  rw [if_neg hlt, hupdate, Option.bind_some, hloop]
      · next hpos => exact ⟨_, _, _, rfl, hstay fun hpos' => absurd hpos' hpos⟩

end Walk

section Leaf

variable {tombstone : Bool}

/-- A new leaf stores the slots of the request besides what is stored. -/
theorem LeafTo.grown (hwf : Wf (view c s) s.rootNode live)
    (hs : LeafTo c s s' node key value tombstone)
    (hadd : AddLeaf (view c s) (view c s') s.rootNode live node s.counter (key.childKey c.pageSize)
      (key.syms c.pageSize) (pages c.pageSize value)) (hq : Spells (view c s) s.rootNode node q) :
    Grown c s s' live (Insert.insert s.counter live) := by
  refine ⟨by rw [hs.rest], Finset.subset_insert _ _, fun _ _ => hadd.spells hwf, fun p v i hr =>
    ⟨v, i, (hadd.reads_iff hwf hq).mpr (.inl hr)⟩, fun p v i hr => ?_⟩
  rcases (hadd.reads_iff hwf hq).mp hr with hr | ⟨rfl, hpos, _, rfl⟩
  · have hv := hadd.ne_new (.inr (hwf.reads_live hr (.inl rfl)).1)
    exact .inr ⟨v, i, hr, (hs.flags v hv).2.1, fun htomb => (hs.flags v hv).1 ▸ htomb⟩
  · exact .inl ⟨hs.newFlags.2.1, fun w j => hadd.not_reads hwf hq hpos⟩

theorem LeafTo.slots_eq (h : Inv c s locks handles live)
    (hs : LeafTo c s s' node key value tombstone) :
    s'.slots (Insert.insert s.counter live) = s.slots live + value := by
  have hframe : s'.frees = s.frees := by
    rw [hs.rest]
    rfl
  rw [slots, slots, hs.tree.slots_eq h.book.paged, hframe, add_right_comm]

theorem LeafTo.pagesOk {P : List σ → Prop} (h : Inv c s locks handles live)
    (hs : LeafTo c s s' node key value tombstone) (hok : PagesOk P c s live)
    (hvalue : ∀ b ∈ pages c.pageSize value, P b) :
    PagesOk P c s' (Insert.insert s.counter live) := by
  refine ⟨hs.tree.pagesOk h.book.paged hok.tree hvalue, ?_⟩
  have hframe : s'.frees = s.frees := by
    rw [hs.rest]
    rfl
  rw [hframe]
  exact hok.frees

structure LeafAdded (c : SwaCacheParams) (locks : List Lock) (handles : List Nat)
    (s : SwaRadixCache σ)
    (live : Finset Nat) (q w : List ChildKey) (value : List σ) (tombstone : Bool)
    (s' : SwaRadixCache σ)
    (live' : Finset Nat) : Prop where
  inv : Inv c s' locks handles live'
  grown : Grown c s s' live live'
  slots : s'.slots live' = s.slots live + value
  entry : ∀ p b, Entry (view c s) s.rootNode p b → Entry (view c s') s.rootNode p b
  pagesOk : ∀ P : List σ → Prop, PagesOk P c s live → (∀ b ∈ pages c.pageSize value, P b) →
    PagesOk P c s' live'
  mem : s.counter ∈ live'
  leaf : (s'.nodes s.counter).children = []
  spells : Spells (view c s') s.rootNode s.counter (q ++ w)
  alive : tombstone = false → ∀ j, 0 < j → j ≤ w.length → ¬ Dead c s' (q ++ w.take j)

theorem Inv.addLeaf (h : Inv c s locks handles live) (hq : Spells (view c s) s.rootNode node q)
    (hkey : 0 < key.len) (haligned : key.Aligned c.pageSize) (hvalue : value.length = key.len)
    (hfree : (s.nodes node).children.lookup (key.childKey c.pageSize) = none) (tombstone : Bool) :
    ∃ s' live', s.addNewNode c node key value tombstone = some (s.counter, s') ∧
      LeafAdded c locks handles s live q (key.syms c.pageSize) value tombstone s' live' := by
  have hwf := h.book.wf
  obtain ⟨s', hrun, hto, hadd, hinv⟩ :=
    h.addNewNode (hwf.spells_live hq) hkey haligned hvalue hfree tombstone
  have hroot : s'.rootNode = s.rootNode := by rw [hto.rest]
  refine ⟨s', _, hrun, hinv, hto.grown hwf hadd hq, hto.slots_eq h, fun p b hb => ?_,
    fun P hok hpages => hto.pagesOk h hok hpages, Finset.mem_insert_self _ _,
    congrArg PageNode.children hto.tree.atNew, hadd.spells_new hwf hq,
      fun halive j hpos hj hdead => ?_⟩
  · exact (hadd.entry_iff hwf hq).mpr (.inl hb)
  · obtain ⟨v, i, hr, htomb⟩ := hdead
    rw [hroot] at hr
    have hnew := (hadd.reads_iff hwf hq).mpr (.inr ⟨rfl, hpos, hj, rfl⟩)
    obtain ⟨rfl, _⟩ := (hadd.wf hwf).reads_unique hr hnew (.inl rfl)
    rw [hto.newFlags.1, halive] at htomb
    cases htomb

theorem Inv.maybeSplitLeaf (h : Inv c s locks handles live) (hv : v ∈ live) :
    ∃ s' live', s.maybeSplitLeafForSwaLock c v = some s' ∧ Inv c s' locks handles live' ∧
      Kept c s s' live live' := by
  have hstay : Inv c s locks handles live ∧ Kept c s s live live := ⟨h, .refl s live⟩
  have hlen := h.book.value_length hv
  rw [SwaRadixCache.maybeSplitLeafForSwaLock]
  simp only
  split
  · exact ⟨s, live, rfl, hstay⟩
  split
  · exact ⟨s, live, rfl, hstay⟩
  next hlong =>
    split
    · exact ⟨s, live, rfl, hstay⟩
    next hsplit =>
      split
      · exact ⟨s, live, rfl, hstay⟩
      · generalize (c.slidingWindowSize + c.pageSize - 1) / c.pageSize = m at hlong hsplit ⊢
        rw [hlen, ← Nat.sub_mul] at hsplit ⊢
        rw [not_or] at hsplit
        have hn : 0 < pagesOf c s v - m := by
          apply Nat.pos_of_ne_zero
          intro hzero
          rw [hzero, Nat.zero_mul] at hsplit
          exact hsplit.1 rfl
        have hlt : pagesOf c s v - m < pagesOf c s v := by
          apply Nat.lt_of_mul_lt_mul_right (a := c.pageSize)
          omega
        obtain ⟨u, s', a, a', hrun, hto, hview, hinv⟩ := h.splitNode hv hn hlt
        exact ⟨s', _, by rw [hrun]; rfl, hinv, hto.kept h.book hv hview⟩

/-- What the end of an insertion gives: new nodes for the word `w` behind the word `q`. -/
structure Added (c : SwaCacheParams) (locks : List Lock) (handles : List Nat) (s : SwaRadixCache σ)
    (live : Finset Nat) (evicted total : Nat) (q w : List ChildKey) (value : List σ)
    (s' : SwaRadixCache σ) (live' : Finset Nat) : Prop where
  inv : Inv c s' locks handles live'
  grown : Grown c s s' live live'
  slots : s'.slots live' = s.slots live + value
  entry : ∀ p b, Entry (view c s) s.rootNode p b → Entry (view c s') s.rootNode p b
  spells : evicted ≠ total + w.length * c.pageSize → ∃ v, Spells (view c s') s.rootNode v (q ++ w)
  fresh : ∀ j, 0 < j → j ≤ w.length → evicted < total + j * c.pageSize → ¬ Dead c s' (q ++ w.take j)
  pagesOk : ∀ P : List σ → Prop, PagesOk P c s live → (∀ b ∈ pages c.pageSize value, P b) →
    PagesOk P c s' live'

theorem Inv.addLast {w : List ChildKey} (h : Inv c s locks handles live)
    (hq : Spells (view c s) s.rootNode node q) (hkey : 0 < key.len)
    (haligned : key.Aligned c.pageSize) (hvalue : value.length = key.len)
    (hfree : (s.nodes node).children.lookup (key.childKey c.pageSize) = none)
    (hw : key.syms c.pageSize = w) :
    ∃ s' live', ((s.addNewNode c node key value false).bind fun r =>
        if c.splitLeafOnInsert then r.2.maybeSplitLeafForSwaLock c r.1 else some r.2) = some s' ∧
      ∀ evicted total, Added c locks handles s live evicted total q w value s' live' := by
  obtain ⟨s₁, live₁, hrun, ha⟩ := h.addLeaf hq hkey haligned hvalue hfree false
  rw [hw] at ha
  have hwf₁ := ha.inv.book.wf
  have hroot := ha.grown.rootNode
  obtain ⟨s', live', hsplit, hinv, hkept⟩ : ∃ s' live', (if c.splitLeafOnInsert then
      s₁.maybeSplitLeafForSwaLock c s.counter else some s₁) = some s' ∧
        Inv c s' locks handles live' ∧
        Kept c s₁ s' live₁ live' := by
    split
    · exact ha.inv.maybeSplitLeaf ha.mem
    · exact ⟨s₁, live₁, rfl, ha.inv, .refl s₁ live₁⟩
  refine ⟨s', live', by rw [hrun, Option.bind_some, hsplit], fun evicted total => ?_⟩
  have hspells := hkept.spells s.counter (q ++ w)
  have hentry := hkept.entry
  rw [hroot] at hspells hentry
  refine ⟨hinv, ha.grown.trans (hkept.grown hwf₁), hkept.slots.trans ha.slots,
    fun p b hb => (hentry p b).mpr (ha.entry p b hb), fun _ => ⟨s.counter, hspells ha.spells⟩,
    fun j hpos hj _ hdead => ?_, fun P hok hpages => hkept.pagesOk P (ha.pagesOk P hok hpages)⟩
  have hne : q ++ w.take j ≠ [] := by
    rw [← List.length_pos_iff, List.length_append, List.length_take]
    omega
  obtain ⟨v, i, hr, _⟩ := hwf₁.reads_under (hroot.symm ▸ ha.spells)
    ((List.prefix_append_right_inj q).mpr (List.take_prefix j w)) hne
  exact ha.alive rfl j hpos hj ((hkept.grown hwf₁).dead hdead hr)

theorem Added.append {w : List ChildKey} {m : Nat}
    (ha : LeafAdded c locks handles s live q (w.take m) (value.take (m * c.pageSize)) true s' live')
    (h : Added c locks handles s' live' evicted (total + m * c.pageSize) (q ++ w.take m) (w.drop m)
      (value.drop (m * c.pageSize)) s'' live'') (hm : m ≤ w.length)
    (hevicted : evicted = total + m * c.pageSize) :
    Added c locks handles s live evicted total q w value s'' live'' := by
  have hroot := ha.grown.rootNode
  have hentry := h.entry
  have hspells := h.spells
  rw [hroot] at hentry
  rw [List.append_assoc, List.take_append_drop] at hspells
  refine ⟨h.inv, ha.grown.trans h.grown, ?_, fun p b hb => hentry p b (ha.entry p b hb), ?_, ?_, ?_⟩
  · rw [h.slots, ha.slots, add_assoc, Multiset.coe_add, List.take_append_drop]
  · intro hne
    rw [hroot] at hspells
    refine hspells ?_
    rw [List.length_drop, Nat.add_assoc, ← Nat.add_mul, Nat.add_sub_cancel' hm]
    exact hne
  · intro j _ hj hlt
    rw [hevicted] at hlt
    have hmj : m < j := Nat.lt_of_mul_lt_mul_right (Nat.lt_of_add_lt_add_left hlt)
    have halive := h.fresh (j - m) (Nat.sub_pos_of_lt hmj) (by rw [List.length_drop]; omega) (by
      rw [hevicted, Nat.add_assoc, ← Nat.add_mul, Nat.add_sub_cancel' (Nat.le_of_lt hmj)]
      exact hlt)
    rwa [List.append_assoc, ← List.take_add, Nat.add_sub_cancel' (Nat.le_of_lt hmj)] at halive
  · intro P hok hpages
    exact h.pagesOk P (ha.pagesOk P hok fun b hb => hpages b (mem_pages_take hb))
      fun b hb => hpages b (mem_pages_drop hb)

theorem insertRest_spec {p : InsertPoint σ} (h : Inv c p.cache locks handles live)
    (hq : Spells (view c p.cache) p.cache.rootNode p.node q) (haligned : p.key.Aligned c.pageSize)
    (hvalue : p.value.length = p.key.len) (hfree : 0 < p.key.len →
      (p.cache.nodes p.node).children.lookup (p.key.childKey c.pageSize) = none)
    (htotal : c.pageSize ∣ p.totalPrefixLength) (halign : c.pageSize ∣ evicted) :
    ∃ s' live', insertRest c evicted p = some s' ∧
      Added c locks handles p.cache live evicted p.totalPrefixLength q
      (p.key.syms c.pageSize) p.value s'
        live' := by
  have hlen := haligned.len_eq
  rw [insertRest]
  by_cases hpos : 0 < p.key.len
  · rw [if_pos hpos]
    by_cases hall : evicted = p.totalPrefixLength + p.key.len
    · rw [if_pos hall]
      refine ⟨_, live, rfl, h.free _, .free _ _ _, slots_free _ _ _, fun _ _ hb => hb,
        fun hne => absurd (hlen ▸ hall) hne, fun j _ hj hlt => ?_, fun P hok hpages =>
          hok.free ?_ hpages⟩
      · have := Nat.mul_le_mul_right c.pageSize hj
        omega
      · rw [hvalue]
        exact haligned
    · rw [if_neg hall]
      by_cases hpart : p.totalPrefixLength < evicted ∧ evicted < p.totalPrefixLength + p.key.len
      · obtain ⟨m, hm⟩ : c.pageSize ∣ evicted - p.totalPrefixLength := Nat.dvd_sub halign htotal
        rw [Nat.mul_comm] at hm
        have hmpos : 0 < m := by
          apply Nat.pos_of_ne_zero
          rintro rfl
          omega
        have hmle : m ≤ (p.key.syms c.pageSize).length := by
          apply Nat.le_of_mul_le_mul_right _ c.pageSize_pos
          omega
        obtain ⟨hrest, hrestlen, _, _⟩ :=
          RadixCache.RadixKey.rest_spec haligned c.pageSize_pos hmpos hmle
        have hheadlen : (p.key.slice 0 (m * c.pageSize)).len = m * c.pageSize := by
          rw [RadixKey.len_slice]
          omega
        have hhead : (p.key.slice 0 (m * c.pageSize)).childKey c.pageSize =
            p.key.childKey c.pageSize := by
          rw [RadixKey.childKey, RadixKey.childKey, RadixKey.extraKey_slice, RadixKey.units_slice,
            List.drop_zero, List.take_take, Nat.min_eq_left (Nat.le_mul_of_pos_left _ hmpos)]
        have hheadAligned : (p.key.slice 0 (m * c.pageSize)).Aligned c.pageSize := by
          rw [RadixKey.Aligned, hheadlen]
          exact Nat.dvd_mul_left _ _
        have hheadValue : (p.value.take (m * c.pageSize)).length =
            (p.key.slice 0 (m * c.pageSize)).len := by
          rw [List.length_take]
          omega
        obtain ⟨s₁, live₁, hrun₁, ha⟩ := h.addLeaf hq (by omega) hheadAligned hheadValue
          (by rw [hhead]; exact hfree hpos) true
        rw [RadixKey.syms_take] at ha
        have hrestValue : (p.value.drop (m * c.pageSize)).length =
            (p.key.slice (m * c.pageSize) p.key.len).len := by
          rw [List.length_drop]
          omega
        obtain ⟨s', live', hrun', hadd⟩ :=
          ha.inv.addLast (by rw [ha.grown.rootNode]; exact ha.spells)
          (by omega) hrest hrestValue (by rw [ha.leaf]; rfl) (RadixKey.syms_drop _ _ m)
        refine ⟨s', live', ?_, .append ha (hadd _ _) hmle (by omega)⟩
        simp only [hpart, and_self, if_true, hm, hrun₁, Option.bind_eq_bind, Option.bind_some]
        exact hrun'
      · obtain ⟨s', live', hrun, hadd⟩ := h.addLast hq hpos haligned hvalue (hfree hpos) rfl
        refine ⟨s', live', ?_, hadd _ _⟩
        simp only [hpart, if_false, Option.bind_eq_bind, Option.bind_some]
        exact hrun
  · rw [if_neg hpos]
    have hnil := RadixKey.syms_eq_nil (Nat.eq_zero_of_not_pos hpos) c.pageSize
    have hvalue : p.value = [] :=
      List.length_eq_zero_iff.mp (hvalue.trans (Nat.eq_zero_of_not_pos hpos))
    refine ⟨p.cache, live, rfl, h, .refl _ _, ?_, fun _ _ hb => hb, fun _ => ⟨p.node, ?_⟩,
      fun j hj hle => ?_, fun _ hok _ => hok⟩
    · rw [hvalue]
      exact (add_zero _).symm
    · rwa [hnil, List.append_nil]
    · rw [hnil, List.length_nil] at hle
      omega

end Leaf

section Insert

structure Inserted (c : SwaCacheParams) (locks : List Lock) (handles : List Nat)
    (s : SwaRadixCache σ)
    (live : Finset Nat) (after evicted : Nat) (word : List ChildKey) (value : List σ)
    (s' : SwaRadixCache σ) (live' : Finset Nat) : Prop where
  inv : Inv c s' locks handles live'
  grown : Grown c s s' live live'
  slots : AtBorder c s [] word 0 after → s'.slots live' = s.slots live + (value.drop after : List σ)
  entry : Safe c s [] word 0 after evicted → ∀ p b, Held c s p → Entry (view c s) s.rootNode p b →
    Entry (view c s') s.rootNode p b
  spells : evicted ≠ word.length * c.pageSize → ∃ v, Spells (view c s') s.rootNode v word
  fresh : ∀ j, 0 < j → j ≤ word.length → after < j * c.pageSize → evicted < j * c.pageSize →
    ¬ Dead c s' (word.take j)
  pagesOk : ∀ P : List σ → Prop, PagesOk P c s live → (∀ b ∈ pages c.pageSize value, P b) →
    PagesOk P c s' live'

theorem InsertAt.le_of_reads {p : InsertPoint σ} {u i m : Nat}
    (h : InsertAt c locks handles s live after evicted q total key value k p live')
    (hr : Reads (view c s) s.rootNode (q ++ (key.syms c.pageSize).take m) u i)
    (hm : m ≤ (key.syms c.pageSize).length) : m ≤ k := by
  by_contra hlt
  have hlt : k < m := Nat.lt_of_not_le hlt
  have hroot := h.grown.rootNode
  obtain ⟨w, j, hw⟩ := h.grown.reads _ _ _ hr
  have hwf := h.inv.book.wf
  have hspells := h.spells
  rw [← hroot] at hw hspells
  have hsplit : q ++ (key.syms c.pageSize).take m = q ++ (key.syms c.pageSize).take k ++
      (p.key.syms c.pageSize).take (m - k) := by
    rw [h.syms, List.append_assoc, ← List.take_add, Nat.add_sub_cancel' (Nat.le_of_lt hlt)]
  have hlen := congrArg List.length h.syms
  rw [RadixKey.length_syms, List.length_drop] at hlen
  have hpos : 0 < p.key.len := by
    apply Nat.pos_of_ne_zero
    intro hzero
    rw [hzero, Nat.zero_div] at hlen
    omega
  have hhead : ((p.key.syms c.pageSize).take (m - k)).head? = some (p.key.childKey c.pageSize) := by
    rw [List.head?_take, if_neg (by omega), RadixKey.head?_syms c.pageSize_pos h.aligned hpos]
  have hne : (p.key.syms c.pageSize).take (m - k) ≠ [] := fun hnil => by
    rw [hnil] at hhead
    cases hhead
  rw [hsplit, hwf.reads_append hspells hne] at hw
  obtain ⟨a, x, hchild, ha⟩ := hwf.reads_head hw (hwf.spells_live hspells)
  obtain rfl := Option.some.inj (hhead.symm.trans ha)
  have hchild : (p.cache.nodes p.node).children.lookup (p.key.childKey c.pageSize) =
      some x := hchild
  rw [h.free hpos] at hchild
  cases hchild

theorem Inserted.join {p : InsertPoint σ} (h : Inv c s locks handles live)
    (hvalue : k * c.pageSize ≤ value.length)
    (hp : InsertAt c locks handles s live after evicted [] 0 key value k p live')
    (ha : Added c locks handles p.cache live' evicted (k * c.pageSize)
    ((key.syms c.pageSize).take k)
      ((key.syms c.pageSize).drop k) (value.drop (k * c.pageSize)) s' live'') :
    Inserted c locks handles s live after evicted (key.syms c.pageSize) value s' live'' := by
  have hroot := hp.grown.rootNode
  have hwf := h.book.wf
  have hentry := ha.entry
  have hspells := ha.spells
  rw [hroot] at hentry hspells
  rw [List.take_append_drop] at hspells
  refine ⟨ha.inv, hp.grown.trans ha.grown, fun hborder => ?_, fun hsafe p' b hp' hb =>
    hentry p' b (hp.entry hsafe p' b hp' hb), fun hne => hspells ?_,
    fun j hpos hj hafter hevicted => ?_, fun P hok hpages =>
    ha.pagesOk P (hp.pagesOk P hok hpages) fun b hb => hpages b (mem_pages_drop hb)⟩
  · -- the border lies on the way that was walked
    have hle : after ≤ k * c.pageSize := by
      rcases hborder with hzero | ⟨m, u, rfl, hm, hu⟩
      · omega
      · rw [Nat.zero_add]
        refine Nat.mul_le_mul_right _ ?_
        by_cases hzero : (key.syms c.pageSize).take m = []
        · have hlen := congrArg List.length hzero
          rw [List.length_take, Nat.min_eq_left hm, List.length_nil] at hlen
          omega
        · obtain ⟨v, i, hr, _⟩ := hwf.reads_under hu (List.prefix_refl _) hzero
          exact hp.le_of_reads hr hm
    have hparts : (value.take (k * c.pageSize)).drop after ++
        value.drop (k * c.pageSize) = value.drop after := by
      rw [← List.drop_append_of_le_length, List.take_append_drop]
      rw [List.length_take, Nat.min_eq_left hvalue]
      exact hle
    rw [ha.slots, hp.slots hborder, Nat.sub_zero, add_assoc, Multiset.coe_add, hparts]
  · rw [List.length_drop, ← Nat.add_mul, Nat.add_sub_cancel' hp.le]
    exact hne
  · by_cases hjk : j ≤ k
    · have halive := hp.fresh j hpos hjk (by omega) (by omega)
      rw [List.nil_append] at halive
      have hne : (key.syms c.pageSize).take j ≠ [] := by
        rw [← List.length_pos_iff, List.length_take]
        omega
      have hnode := hp.spells
      rw [List.nil_append, ← hroot] at hnode
      obtain ⟨v, i, hr, _⟩ := hp.inv.book.wf.reads_under hnode (List.take_prefix_take_left hjk) hne
      exact fun hdead => halive (ha.grown.dead hdead hr)
    · have hlt : k < j := Nat.lt_of_not_le hjk
      have halive := ha.fresh (j - k) (Nat.sub_pos_of_lt hlt) (by rw [List.length_drop]; omega) (by
        rw [← Nat.add_mul, Nat.add_sub_cancel' (Nat.le_of_lt hlt)]
        exact hevicted)
      rwa [← List.take_add, Nat.add_sub_cancel' (Nat.le_of_lt hlt)] at halive

theorem insertHelper_spec (after : Nat) (h : Inv c s locks handles live)
    (hkey : key.Aligned c.pageSize)
    (hvalue : value.length = key.len) (halign : c.pageSize ∣ evicted) :
    ∃ r s' live', s.insertHelper c key value after evicted = some (r, s') ∧
      Inserted c locks handles s live after evicted (key.syms c.pageSize) value s' live' := by
  obtain ⟨p, live₁, k, hloop, hp⟩ :=
    insertLoop_spec after h .root hkey hvalue (Nat.dvd_zero _) halign
    (Nat.lt_succ_self key.len)
  have hroot₁ := hp.grown.rootNode
  have hspells := hp.spells
  have hmatched := hp.prefixLen
  have hmul := Nat.mul_le_mul_right c.pageSize hp.le
  rw [List.nil_append, ← hroot₁] at hspells
  rw [Nat.zero_add] at hmatched
  have hrest : p.value.length = p.key.len := by
    rw [hp.rest, List.length_drop, hvalue, ← hkey.len_eq, ← hp.aligned.len_eq, hp.syms,
      List.length_drop, Nat.sub_mul]
  obtain ⟨s', live', hrun, ha⟩ := insertRest_spec hp.inv hspells hp.aligned hrest
    hp.free (hmatched ▸ Nat.dvd_mul_left _ _) halign
  rw [hmatched, hp.syms, hp.rest] at ha
  refine ⟨p.totalPrefixLength, s', live', ?_, .join h ?_ hp ha⟩
  · rw [insertHelper, hloop]
    simp only [Option.bind_eq_bind, Option.bind_some, hrun]
  · rw [hvalue, ← hkey.len_eq]
    exact hmul

/-- `insert` never fails, given as many slots as the key has units. -/
theorem Inv.insert (after : Nat) (h : Inv c s locks handles live) (hon : c.disable = false)
    (hvalue : (alignedKey c key).len ≤ value.length) (halign : c.pageSize ∣ evicted) :
    ∃ r s' live', s.insert c key value after evicted = some (r, s') ∧
      Inserted c locks handles s live after evicted (wordOf c key)
      (value.take (alignedKey c key).len) s'
        live' := by
  have hkey : ((key.maybeToBigramView c.isEagle value).1).pageAligned c.pageSize =
      alignedKey c key := by
    rw [alignedKey, RadixCache.maybeToBigramView_fst]
  have htake : (key.maybeToBigramView c.isEagle value).2.take (alignedKey c key).len =
      value.take (alignedKey c key).len := RadixCache.take_maybeToBigramView _ _ _ _ _
  obtain ⟨r, s', live', hrun, hins⟩ := insertHelper_spec after h
    (RadixKey.aligned_pageAligned (key.maybeToBigramView c.isEagle ([] : List Unit)).1 c.pageSize)
    (List.length_take_of_le hvalue) halign
  refine ⟨r, s', live', ?_, hins⟩
  simp only [SwaRadixCache.insert, hon, Bool.false_eq_true, if_false]
  rw [hkey, htake]
  exact hrun

end Insert

end SwaRadixCache

end SpecDecode.MemCache
