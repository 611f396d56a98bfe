import SpecDecode.Gateway.TreeInsert

/-!
# Matching against the gateway's tree

The loop of the matches follows the text through the nodes it may enter, and what it matches
is the longest part that they store. A match changes times and caches; it puts a new tenant
on a node only when the tree is empty, and then it is the placeholder.
-/

namespace SpecDecode.Gateway

open RadixTree

namespace Tree

variable {t t' : Tree} {live : Finset Nat} {u v w prev curr : Nat} {x y tenant : String} {o : Order}
variable {p q text remaining : List Char} {epoch : Nat} {admits : Nat → Bool}

/-- Where the loop ends: `n` characters of the rest are matched, inside the path to `curr`. -/
structure Matched (t : Nat → RadixTree.Node Char Unit) (q remaining : List Char) (curr n : Nat) :
    Prop where
  longest : ∃ bs : List Unit, bs.length = n ∧ Longest t root q remaining bs
  path : ∃ r, Spells t root curr r ∧ q ++ remaining.take n <+: r

theorem Matched.stop {t : Nat → RadixTree.Node Char Unit} (h : Wf t root live)
    (hprev : Spells t root prev q)
    (hstop : ∀ c, remaining.head? = some c → (t prev).child c = none) :
    Matched t q remaining prev 0 := by
  refine ⟨⟨[], rfl, Longest.of_no_child h hprev hstop⟩, q, hprev, ?_⟩
  rw [List.take_zero, List.append_nil]

theorem matchLoop_stop {c : Char} {rest : List Char} {fuel matchedChars : Nat}
    (h : (restrict admits t.shape prev).child c = none) :
    t.matchLoop admits (fuel + 1) prev (c :: rest) matchedChars = (prev, matchedChars) := by
  cases hlookup : (t.nodes prev).children.lookup c with
  | none => simp only [matchLoop, hlookup]
  | some matched =>
      have hadmitted : ¬ admits matched = true := by
        intro hadmitted
        rw [restrict_child.mpr ⟨hlookup, hadmitted⟩] at h
        cases h
      simp only [matchLoop, hlookup, if_neg hadmitted]

theorem Matched.through {t : Nat → RadixTree.Node Char Unit} {c : Char} {n : Nat}
    (h : Wf t root live) (hprev : Spells t root prev q) (hchild : (t prev).child c = some v)
    (hlabel : (t v).label <+: remaining)
    (hrest : Matched t (q ++ (t v).label) (remaining.drop (t v).label.length) curr n) :
    Matched t q remaining curr ((t v).label.length + n) := by
  have hlen := hlabel.length_le
  have htake : remaining.take (t v).label.length = (t v).label :=
    (List.prefix_iff_eq_take.mp hlabel).symm
  have hvals : ((t v).vals.take (t v).label.length).length = (t v).label.length := by
    rw [List.length_take, h.vals v (h.child _ _ _ (h.spells_live hprev) hchild).1, Nat.min_self]
  obtain ⟨⟨bs, hbs, hlongest⟩, r, hr, hpath⟩ := hrest
  refine ⟨⟨(t v).vals.take (t v).label.length ++ bs, by rw [List.length_append, hvals, hbs], ?_⟩, r,
    hr, ?_⟩
  · refine Longest.append (by omega) (Longest.entry_child h hprev hchild ?_) ?_
    · rw [List.take_length, htake]
    · rwa [hvals, htake]
  · rwa [List.take_add, htake, ← List.append_assoc]

theorem Matched.inside {t : Nat → RadixTree.Node Char Unit} {c : Char} (h : Wf t root live)
    (hprev : Spells t root prev q) (hchild : (t prev).child c = some v)
    (hhead : remaining.head? = some c)
    (hlt : commonPrefixLen (t v).label remaining < (t v).label.length) :
    Matched t q remaining v (commonPrefixLen (t v).label remaining) := by
  refine ⟨⟨_, ?_, Longest.of_inside h hprev hchild hhead hlt⟩, _, .child hprev hchild, ?_⟩
  · rw [List.length_take, h.vals v (h.child _ _ _ (h.spells_live hprev) hchild).1]
    omega
  · rw [← take_commonPrefixLen, List.prefix_append_right_inj]
    exact List.take_prefix _ _

theorem matchLoop_matched {live' : Finset Nat} {fuel matchedChars : Nat}
    (hcount : ∀ v, v ∈ live' → (t.nodes v).text.charCount = (t.nodes v).text.text.length)
    (h : Wf (restrict admits t.shape) root live')
    (hprev : Spells (restrict admits t.shape) root prev q) (hfuel : remaining.length < fuel) :
    ∃ curr n, t.matchLoop admits fuel prev remaining matchedChars = (curr, matchedChars + n) ∧
      Matched (restrict admits t.shape) q remaining curr n := by
  induction fuel generalizing prev q remaining matchedChars with
  | zero => exact absurd hfuel (Nat.not_lt_zero _)
  | succ fuel ih =>
      cases remaining with
      | nil => exact ⟨prev, 0, rfl, Matched.stop h hprev nofun⟩
      | cons c rest =>
          cases hchild : (restrict admits t.shape prev).child c with
          | none =>
              refine ⟨prev, 0, matchLoop_stop hchild, Matched.stop h hprev fun c' hc' => ?_⟩
              obtain rfl := Option.some.inj hc'
              exact hchild
          | some matched =>
              obtain ⟨hlookup, hadmitted⟩ := restrict_child.mp hchild
              have hlookup : (t.nodes prev).children.lookup c = some matched := hlookup
              obtain ⟨hmatched, _, hhead⟩ := h.child _ _ _ (h.spells_live hprev) hchild
              have hlen := hcount matched hmatched
              have hpos : 0 < commonPrefixLen (t.nodes matched).text.text (c :: rest) :=
                commonPrefixLen_pos hhead rfl
              simp only [matchLoop, hlookup, hadmitted, if_true, sharedPrefixCount_eq,
                advanceByChars_eq]
              rw [commonPrefixLen_comm]
              split
              · next hfull =>
                  have hlabel : (t.nodes matched).text.text <+: c :: rest := by
                    rw [List.prefix_iff_eq_take, ← hlen, ← hfull, ← take_commonPrefixLen, hfull,
                      hlen, List.take_length]
                  have hshort : ((c :: rest).drop (t.nodes matched).text.text.length).length <
                      fuel := by
                    have hle := hlabel.length_le
                    rw [List.length_drop]
                    omega
                  rw [hfull, hlen]
                  obtain ⟨curr, n, heq, hrest⟩ := ih (.child hprev hchild) hshort
                  refine ⟨curr, (t.nodes matched).text.text.length + n, ?_,
                    Matched.through h hprev hchild hlabel hrest⟩
                  rw [heq, Nat.add_assoc]
              · next hpart =>
                  have hle := commonPrefixLen_le (t.nodes matched).text.text (c :: rest)
                  exact ⟨matched, _, rfl, Matched.inside h hprev hchild rfl
                    (Nat.lt_of_le_of_ne hle.1 (hlen ▸ hpart))⟩

structure LongestShared (t : Tree) (sel : Nat → Prop) (text : List Char) (n : Nat) : Prop where
  shared : ∃ v p, Spells t.shape root v p ∧ (v = root ∨ sel v) ∧ commonPrefixLen p text = n
  le v p : Spells t.shape root v p → v = root ∨ sel v → commonPrefixLen p text ≤ n

theorem Matched.longestShared (h : t.Shape live)
    (hclosed : ∀ u c v, u = root ∨ u ∈ live → (t.nodes u).children.lookup c = some v →
      admits v = true → u = root ∨ admits u = true) {n : Nat}
    (hm : Matched (restrict admits t.shape) [] text curr n) :
    t.LongestShared (fun v => admits v = true) text n ∧ n ≤ text.length ∧
      ∃ r, Spells t.shape root curr r ∧ (curr = root ∨ admits curr = true) ∧ text.take n <+: r := by
  have hwf := h.wf.restrict hclosed
  obtain ⟨⟨bs, rfl, hlongest⟩, r, hr, hpath⟩ := hm
  have hlen := hlongest.length_le
  obtain ⟨hr', hadmits⟩ := (h.wf.spells_restrict hclosed).mp hr
  have hle (v : Nat) (p : List Char) (hv : Spells t.shape root v p)
    (hsel : v = root ∨ admits v = true) :
      commonPrefixLen p text ≤ bs.length :=
    hlongest.le_of_take hwf ((h.wf.spells_restrict hclosed).mpr ⟨hv, hsel⟩)
      (commonPrefixLen_le p text).2 (take_commonPrefixLen p text)
  refine ⟨⟨⟨curr, r, hr', hadmits, ?_⟩, hle⟩, hlen, r, hr', hadmits, hpath⟩
  refine Nat.le_antisymm (hle curr r hr' hadmits) ?_
  have hshort : bs.length ≤ r.length := by
    have := hpath.length_le
    rw [List.nil_append, List.length_take] at this
    omega
  refine (le_commonPrefixLen_iff _ _ _).mpr ⟨hshort, hlen, ?_⟩
  have htake := List.prefix_iff_eq_take.mp hpath
  rw [List.nil_append, List.length_take, Nat.min_eq_left hlen] at htake
  exact htake.symm

theorem Shape.matchLoop (h : t.Shape live)
    (hclosed : ∀ u c v, u = root ∨ u ∈ live → (t.nodes u).children.lookup c = some v →
      admits v = true → u = root ∨ admits u = true) (text : List Char) :
    ∃ curr n, t.matchLoop admits (text.length + 1) root text 0 = (curr, n) ∧
      t.LongestShared (fun v => admits v = true) text n ∧ n ≤ text.length ∧
      ∃ r, Spells t.shape root curr r ∧ (curr = root ∨ admits curr = true) ∧ text.take n <+: r := by
  obtain ⟨curr, n, heq, hm⟩ := matchLoop_matched
    (fun v hv => h.charCount v (.inr (Finset.mem_filter.mp hv).1)) (h.wf.restrict hclosed) .root
    (Nat.lt_succ_self text.length)
  rw [Nat.zero_add] at heq
  exact ⟨curr, n, heq, hm.longestShared h hclosed⟩

private theorem firstTenant_cases (o : Order) (n : Node) :
    firstTenant o n ∈ n.tenantLastAccessTime ∨
    (∀ y, y ∉ n.tenantLastAccessTime) ∧ firstTenant o n = "empty" := by
  unfold firstTenant
  cases hhead : (o.iter n.tenantLastAccessTime).head? with
  | none => exact .inr ⟨(o.iter_head?).mp (by rw [hhead]; rfl), rfl⟩
  | some e =>
      have hmem : ⟨e.1, e.2⟩ ∈ o.iter n.tenantLastAccessTime := List.mem_of_head? hhead
      have hlookup := o.mem_iter.mp hmem
      exact .inl (AList.lookup_isSome.mp (Option.isSome_iff_exists.mpr ⟨e.2, hlookup⟩))

/-- The reported tenant is on the node unless nothing is; only the cache of the node changes. -/
theorem ownerOf_cases (o : Order) (n : Node) :
    ((ownerOf o n).1 ∈ n.tenantLastAccessTime ∨
      (∀ y, y ∉ n.tenantLastAccessTime) ∧ (ownerOf o n).1 = "empty") ∧
    ∃ cache, (ownerOf o n).2 = { n with lastTenant := cache } := by
  unfold ownerOf
  split
  · next hcached =>
      split
      · next hkey => exact ⟨.inl (AList.lookup_isSome.mp hkey), n.lastTenant, rfl⟩
      · exact ⟨firstTenant_cases o n, _, rfl⟩
  · exact ⟨firstTenant_cases o n, _, rfl⟩

structure PrefixMatched (t t' : Tree) (text : List Char) (epoch : Nat) (r : PrefixMatchResult)
    (curr : Nat) : Prop where
  longest : t.LongestShared (fun _ => True) text r.matchedCharCount
  path : ∃ q, Spells t.shape root curr q ∧ text.take r.matchedCharCount <+: q
  tenant : t.Carries curr r.tenant ∨ (∀ y, ¬ t.Carries curr y) ∧ r.tenant = "empty"
  frame : Frame t t'
  counts : t'.tenantCharCount = t.tenantCharCount
  carries w y : t'.Carries w y ↔ t.Carries w y ∨ epoch % 8 = 0 ∧ w = curr ∧ y = r.tenant

theorem modify_cache_frame (t : Tree) (v : Nat) (cache : Option String) :
    Frame t (t.modify v fun _ => { t.nodes v with lastTenant := cache }) ∧
      ∀ w y, (t.modify v fun _ => { t.nodes v with lastTenant := cache }).Carries w y ↔
        t.Carries w y := by
  refine ⟨⟨fun w => ?_, fun w => ?_, fun w => ?_, rfl⟩, fun w y => ?_⟩
  all_goals
    by_cases hw : w = v
    · subst hw
      simp [modify, Carries]
    · simp [modify, Carries, hw]

theorem Frame.trans {t'' : Tree} (h : Frame t t') (h' : Frame t' t'') : Frame t t'' :=
  ⟨fun v => (h'.children v).trans (h.children v), fun v => (h'.text v).trans (h.text v),
    fun v => (h'.parent v).trans (h.parent v), h'.next.trans h.next⟩

theorem Inv.prefixMatchWithCounts (h : t.Inv live) (o : Order) (text : List Char) (epoch : Nat) :
    ∃ curr, PrefixMatched t (t.prefixMatchWithCounts o text epoch).2 text epoch
      (t.prefixMatchWithCounts o text epoch).1 curr := by
  obtain ⟨curr, n, heq, hlongest, hlen, q, hq, _, hpath⟩ :=
    h.matchLoop (fun _ _ _ _ _ _ => .inr rfl) text
  obtain ⟨htenant, cache, hnode⟩ := ownerOf_cases o (t.nodes curr)
  obtain ⟨hframe, hcarries⟩ := modify_cache_frame t curr cache
  refine ⟨curr, ?_⟩
  simp only [Tree.prefixMatchWithCounts, heq, hnode]
  refine ⟨⟨?_, fun v p hv _ => hlongest.le v p hv (.inr rfl)⟩, ⟨q, hq, hpath⟩, htenant, ?_, ?_,
    fun w y => ?_⟩
  · obtain ⟨v, p, hv, _, hn⟩ := hlongest.shared
    exact ⟨v, p, hv, .inr trivial, hn⟩
  · split
    · exact hframe.trans (tagged_insertTime _ _ _ _).frame
    · exact hframe
  · split
    · rfl
    · rfl
  · split
    · next hepoch =>
        rw [(tagged_insertTime _ _ _ _).carries, hcarries]
        simp [hepoch]
    · next hepoch =>
        rw [hcarries]
        simp [hepoch]

/-- A match that ends at a node without a tenant ends at the root of an empty tree. -/
theorem Shape.root_of_empty (h : t.Shape live) (hcurr : curr = root ∨ curr ∈ live)
    (hnone : ∀ y, ¬ t.Carries curr y) : curr = root := by
  refine hcurr.resolve_right fun hlive => ?_
  obtain ⟨y, hy⟩ := h.owned curr hlive
  exact hnone y hy

theorem PrefixMatched.inv {r : PrefixMatchResult} (hm : PrefixMatched t t' text epoch r curr)
    (h : t.Inv live) : t'.Inv live := by
  obtain ⟨q, hq, _⟩ := hm.path
  have hcurr := h.wf.spells_live hq
  have hplace : t.Carries curr r.tenant ∨ curr = root :=
    hm.tenant.imp_right fun hnone => h.root_of_empty hcurr hnone.1
  have hcount (y : String) : t'.count y = t.count y := by rw [count, hm.counts, count]
  by_cases hepoch : epoch % 8 = 0
  · exact h.retag ⟨hm.frame, fun w y => by rw [hm.carries]; simp [hepoch]⟩ hplace hcount
  · exact h.congr hm.frame (fun w y => by rw [hm.carries]; simp [hepoch]) hcount

structure TenantMatched (t t' : Tree) (text : List Char) (tenant : String) (matched : List Char) :
    Prop where
  isPrefix : matched <+: text
  holds : matched = [] ∨ t.Holds tenant matched
  longest p : p <+: text → t.Holds tenant p → p <+: matched
  frame : Frame t t'
  counts : t'.tenantCharCount = t.tenantCharCount
  carries w y : t'.Carries w y ↔ t.Carries w y

theorem Inv.prefixMatchTenant (h : t.Inv live) (text : List Char) (tenant : String) (epoch : Nat) :
    TenantMatched t (t.prefixMatchTenant text tenant epoch).2 text tenant
      (t.prefixMatchTenant text tenant epoch).1 := by
  have hclosed (u : Nat) (c : Char) (v : Nat) (hu : u = root ∨ u ∈ live)
      (hc : (t.nodes u).children.lookup c = some v) (hv : t.containsKey v tenant = true) :
      u = root ∨ t.containsKey u tenant = true :=
    .inr (containsKey_iff.mpr (h.closed u c v tenant hu hc (containsKey_iff.mp hv)))
  obtain ⟨curr, n, heq, hlongest, hlen, q, hq, hcurr, hpath⟩ := h.matchLoop hclosed text
  simp only [Tree.prefixMatchTenant, heq, takeChars_eq]
  refine ⟨List.take_prefix _ _, ?_, fun p hp hholds => ?_, ?_, ?_, fun w y => ?_⟩
  · rcases hcurr with rfl | hkey
    · have hnil := h.wf.spells_unique hq .root
      rw [hnil] at hpath
      exact .inl (List.prefix_nil.mp hpath)
    · exact .inr ⟨curr, q, hq, containsKey_iff.mp hkey, hpath⟩
  · obtain ⟨v, r, hv, hx, hpr⟩ := hholds
    have hle := hlongest.le v r hv (.inr (containsKey_iff.mpr hx))
    have hshared : p.length ≤ commonPrefixLen r text := by
      refine (le_commonPrefixLen_iff _ _ _).mpr ⟨hpr.length_le, hp.length_le, ?_⟩
      rw [← List.prefix_iff_eq_take.mp hpr, ← List.prefix_iff_eq_take.mp hp]
    rw [List.prefix_take_iff]
    exact ⟨hp, by omega⟩
  · split
    · exact (tagged_insertTime _ _ _ _).frame
    · exact ⟨fun _ => rfl, fun _ => rfl, fun _ => rfl, rfl⟩
  · split
    · rfl
    · rfl
  · split
    · next hkey =>
        rw [(tagged_insertTime _ _ _ _).carries]
        refine ⟨fun hor => ?_, .inl⟩
        rcases hor with hy | ⟨rfl, rfl⟩
        · exact hy
        · exact containsKey_iff.mp hkey
    · rfl

theorem TenantMatched.inv {matched : List Char} (hm : TenantMatched t t' text tenant matched)
    (h : t.Inv live) : t'.Inv live :=
  h.congr hm.frame hm.carries fun y => by rw [count, hm.counts, count]

end Tree

end SpecDecode.Gateway
