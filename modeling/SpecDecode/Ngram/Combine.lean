import SpecDecode.Lib.OptionMap
import SpecDecode.Ngram.DraftPaths
import Mathlib.Data.Set.Card
import Mathlib.Order.Interval.Finset.Nat

/-!
# Combining draft trees

A combined tree is built from the leaf paths of its parts. There is room for all of their nodes,
so its paths are the paths of the parts, less those that look like padding.
-/

namespace SpecDecode.Ngram

open OptionMap

theorem Path.last {next : Nat → List (Int × Nat)} {v : Nat} {p : List Int} {token : Int}
    (h : Path next v (p ++ [token])) : ∃ u, Path next u p ∧ (token, v) ∈ next u := by
  generalize hq : p ++ [token] = q at h
  cases h with
  | root => simp at hq
  | @child u c token' p' hu hchild =>
      obtain rfl : p = p' := List.append_inj_left' hq rfl
      obtain rfl : token = token' := by simpa using hq
      exact ⟨u, hu, hchild⟩

namespace DraftTree

variable {t : DraftTree} {parent n : Nat} {token : Int} {p q : List Int} {S : Set (List Int)}

/-- The token paths of a tree. -/
def paths (t : DraftTree) : Set (List Int) := {p | p ≠ [] ∧ ∃ v, Path t.next v p}

theorem Wf.exists_path (h : t.Wf) {v : Nat} (hv : v < t.cursor) : ∃ p, Path t.next v p := by
  induction v using Nat.strong_induction_on with
  | _ v ih =>
      rcases Nat.eq_zero_or_pos v with rfl | hpos
      · exact ⟨[], .root⟩
      · obtain ⟨u, token, hchild⟩ := h.reach v hpos hv
        obtain ⟨hlt, _⟩ := h.child hchild
        obtain ⟨p, hp⟩ := ih u hlt (Nat.lt_trans hlt hv)
        exact ⟨p ++ [token], .child hp hchild⟩

theorem Wf.path_unique (h : t.Wf) {v w : Nat} (hv : Path t.next v p) (hw : Path t.next w p) :
    v = w := by
  induction hv generalizing w with
  | root =>
      generalize hnil : ([] : List Int) = p at hw
      cases hw with
      | root => rfl
      | child => simp at hnil
  | @child u c token p hu hchild ih =>
      obtain ⟨u', hu', hchild'⟩ := hw.last
      obtain rfl := ih hu'
      exact congrArg Prod.snd (List.inj_on_of_nodup_map (h.keys u) hchild hchild' rfl)

theorem Wf.ncard_paths (h : t.Wf) : t.paths.Finite ∧ t.paths.ncard = t.cursor - 1 := by
  choose! path hpath using fun v (hv : v < t.cursor) => h.exists_path hv
  have himage : t.paths = path '' Set.Ico 1 t.cursor := by
    ext p
    constructor
    · rintro ⟨hne, v, hp⟩
      refine ⟨v, ⟨Nat.pos_of_ne_zero fun hzero => hne ?_, hp.lt h⟩,
        (hpath v (hp.lt h)).unique h hp⟩
      subst hzero
      exact hp.unique h .root
    · rintro ⟨v, ⟨hpos, hv⟩, rfl⟩
      refine ⟨fun hnil => ?_, v, hpath v hv⟩
      have hroot := h.path_unique (hnil ▸ hpath v hv) .root
      omega
  have hinj : Set.InjOn path (Set.Ico 1 t.cursor) := by
    intro v hv w hw heq
    exact h.path_unique (hpath v hv.2) (heq ▸ hpath w hw.2)
  rw [himage, hinj.ncard_image]
  rw [← Finset.coe_Ico]
  exact ⟨(Finset.finite_toSet _).image path, by rw [Set.ncard_coe_finset, Nat.card_Ico]⟩

theorem Wf.lt_of_notMem (h : t.Wf) (hS : S.Finite) (hsub : t.paths ⊆ S) (hp : p ∈ S)
    (hnot : p ∉ t.paths) (hn : S.ncard < n) : t.cursor < n := by
  have hlt := Set.ncard_lt_ncard (hsub.ssubset_of_ne fun heq => hnot (heq ▸ hp)) hS
  rw [h.ncard_paths.2] at hlt
  omega

private theorem paths_findOrInsert (h : t.Wf) (hp : Path t.next parent p) (token : Int) :
    (t.findOrInsert parent token).2.paths = insert (p ++ [token]) t.paths := by
  obtain ⟨hnew, hold⟩ := hp.findOrInsert token
  ext q
  rw [Set.mem_insert_iff]
  constructor
  · rintro ⟨hne, v, hq⟩
    rcases Path.of_findOrInsert h hp hq with hq | rfl
    · exact .inr ⟨hne, v, hq⟩
    · exact .inl rfl
  · rintro (rfl | ⟨hne, v, hq⟩)
    · exact ⟨by simp, _, hnew⟩
    · exact ⟨hne, v, hold _ _ hq⟩

theorem insertPath_paths {path : List Int} (h : t.Wf) (hp : Path t.next parent p) (hS : S.Finite)
    (hn : S.ncard < n) (hsub : t.paths ⊆ S) (hpath : ∀ q, q ≠ [] → q <+: path → p ++ q ∈ S) :
    (insertPath n parent path t).Wf ∧ (insertPath n parent path t).paths =
      t.paths ∪ {q | ∃ front, front ≠ [] ∧ front <+: path ∧ q = p ++ front} := by
  induction path generalizing parent p t with
  | nil =>
      refine ⟨h, ?_⟩
      ext q
      refine ⟨.inl, ?_⟩
      rintro (hq | ⟨front, hne, hnil, _⟩)
      · exact hq
      · exact absurd (List.prefix_nil.mp hnil) hne
  | cons token path ih =>
      have hmem : p ++ [token] ∈ S := hpath [token] (by simp) (by simp)
      have hroom : ¬ ((t.next parent).lookup token = none ∧ n ≤ t.cursor) := by
        rintro ⟨hnone, hfull⟩
        refine Nat.not_lt_of_le hfull (h.lt_of_notMem hS hsub hmem ?_ hn)
        rintro ⟨_, v, hv⟩
        obtain ⟨u, hu, hchild⟩ := hv.last
        rw [h.path_unique hu hp] at hchild
        exact lookup_eq_none hnone (List.mem_map_of_mem hchild)
      simp only [insertPath, if_neg hroom]
      obtain ⟨hnew, _⟩ := hp.findOrInsert token
      have hpaths := paths_findOrInsert h hp token
      obtain ⟨hwf, heq⟩ := ih (h.findOrInsert (hp.lt h) token).1 hnew
        (by rw [hpaths]; exact Set.insert_subset hmem hsub) fun q hne hq => by
          rw [List.append_assoc]
          exact hpath ([token] ++ q) (by simp) (by simpa using hq)
      refine ⟨hwf, ?_⟩
      rw [heq, hpaths]
      ext q
      constructor
      · rintro ((rfl | hq) | ⟨front, hne, hfront, rfl⟩)
        · exact .inr ⟨[token], by simp, by simp, rfl⟩
        · exact .inl hq
        · exact .inr ⟨token :: front, by simp, by simpa using hfront, by simp⟩
      · rintro (hq | ⟨front, hne, hfront, rfl⟩)
        · exact .inl (.inr hq)
        · rcases List.prefix_cons_iff.mp hfront with rfl | ⟨rest, rfl, hrest⟩
          · exact absurd rfl hne
          · cases rest with
            | nil => exact .inl (.inl rfl)
            | cons x rest => exact .inr ⟨x :: rest, by simp, hrest, by simp⟩

theorem insertPaths_paths {pathList : List (List Int)} (h : t.Wf) (hS : S.Finite) (hn : S.ncard < n)
    (hsub : t.paths ⊆ S) (hpaths : ∀ path ∈ pathList, ∀ q, q ≠ [] → q <+: path → q ∈ S) :
    (insertPaths n pathList t).Wf ∧ (insertPaths n pathList t).paths =
      t.paths ∪ {q | q ≠ [] ∧ ∃ path ∈ pathList, q <+: path} := by
  induction pathList generalizing t with
  | nil =>
      refine ⟨h, ?_⟩
      ext q
      refine ⟨.inl, ?_⟩
      rintro (hq | ⟨_, path, hpath, _⟩)
      · exact hq
      · exact absurd hpath List.not_mem_nil
  | cons path pathList ih =>
      obtain ⟨hwf, heq⟩ := insertPath_paths h .root hS hn hsub (hpaths path List.mem_cons_self)
      have hsub' : (insertPath n 0 path t).paths ⊆ S := by
        rw [heq]
        rintro q (hq | ⟨front, hne, hfront, rfl⟩)
        · exact hsub hq
        · exact hpaths path List.mem_cons_self _ hne hfront
      have hfirst : ∀ q, q ∈ (insertPath n 0 path t).paths ↔
          q ∈ t.paths ∨ q ≠ [] ∧ q <+: path := by
        intro q
        rw [heq]
        constructor
        · rintro (hq | ⟨front, hne, hfront, rfl⟩)
          · exact .inl hq
          · exact .inr ⟨hne, hfront⟩
        · rintro (hq | ⟨hne, hq⟩)
          · exact .inl hq
          · exact .inr ⟨q, hne, hq, rfl⟩
      simp only [insertPaths]
      split
      · next hfull =>
          -- a full tree has all of them already
          refine ⟨hwf, ?_⟩
          ext q
          rw [hfirst]
          constructor
          · rintro (hq | ⟨hne, hq⟩)
            · exact .inl hq
            · exact .inr ⟨hne, path, List.mem_cons_self, hq⟩
          · rintro (hq | ⟨hne, path', hmem, hq⟩)
            · exact .inl hq
            · rw [← hfirst]
              by_contra hnot
              exact Nat.not_lt_of_le hfull
                (hwf.lt_of_notMem hS hsub' (hpaths path' hmem q hne hq) hnot hn)
      · obtain ⟨hwf', heq'⟩ := ih hwf hsub' fun path' hmem =>
          hpaths path' (List.mem_cons_of_mem _ hmem)
        refine ⟨hwf', ?_⟩
        ext q
        rw [heq', Set.mem_union, hfirst]
        constructor
        · rintro ((hq | ⟨hne, hq⟩) | ⟨hne, path', hmem, hq⟩)
          · exact .inl hq
          · exact .inr ⟨hne, path, List.mem_cons_self, hq⟩
          · exact .inr ⟨hne, path', List.mem_cons_of_mem _ hmem, hq⟩
        · rintro (hq | ⟨hne, path', hmem, hq⟩)
          · exact .inl (.inl hq)
          · rcases List.mem_cons.mp hmem with rfl | hmem
            · exact .inl (.inr ⟨hne, hq⟩)
            · exact .inr ⟨hne, path', hmem, hq⟩

/-- The paths that survive the way through leaf paths: all but that of a leaf `0` right under the
root. -/
def kept (t : DraftTree) : Set (List Int) :=
  {p | p ≠ [] ∧ ∃ v, Path t.next v p ∧ ¬ (p = [0] ∧ t.next v = [])}

theorem kept_subset (t : DraftTree) : t.kept ⊆ t.paths := fun _ ⟨hne, v, hp, _⟩ => ⟨hne, v, hp⟩

theorem path_congr {next : Nat → List (Int × Nat)}
    (hnext : ∀ v, (next v).Perm (t.next v)) {v : Nat} : Path next v p ↔ Path t.next v p := by
  constructor <;> intro h
  · induction h with
    | root => exact .root
    | child _ hchild ih => exact .child ih ((hnext _).mem_iff.mp hchild)
  · induction h with
    | root => exact .root
    | child _ hchild ih => exact .child ih ((hnext _).mem_iff.mpr hchild)

theorem path_prefix {next : Nat → List (Int × Nat)} {v : Nat} (h : Path next v (p ++ q)) :
    ∃ u, Path next u p ∧ (q ≠ [] → next u ≠ []) ∧ (q = [] → u = v) := by
  induction q using List.reverseRecOn generalizing v with
  | nil => exact ⟨v, by rwa [List.append_nil] at h, fun hne => absurd rfl hne, fun _ => rfl⟩
  | append_singleton q token ih =>
      rw [← List.append_assoc] at h
      obtain ⟨w, hw, hchild⟩ := h.last
      obtain ⟨u, hu, hnext, hsame⟩ := ih hw
      refine ⟨u, hu, fun _ => ?_, fun hnil => by simp at hnil⟩
      by_cases hq : q = []
      · rw [hsame hq]
        exact List.ne_nil_of_mem hchild
      · exact hnext hq

theorem Wf.exists_leaf (h : t.Wf) {v : Nat} (hp : Path t.next v p) :
    ∃ w q, Path t.next w (p ++ q) ∧ t.next w = [] ∧ (q = [] → w = v) := by
  induction hn : t.cursor - v using Nat.strong_induction_on generalizing v p with
  | _ n ih =>
      cases hkids : t.next v with
      | nil => exact ⟨v, [], by rwa [List.append_nil], hkids, fun _ => rfl⟩
      | cons entry rest =>
          obtain ⟨token, c⟩ := entry
          have hchild : (token, c) ∈ t.next v := by rw [hkids]; exact List.mem_cons_self
          obtain ⟨hlt, hcursor⟩ := h.child hchild
          obtain ⟨w, q, hw, hleaf, _⟩ := ih (t.cursor - c) (by omega) (.child hp hchild) rfl
          exact ⟨w, token :: q, by simpa using hw, hleaf, fun hnil => by simp at hnil⟩

end DraftTree

namespace Filled

variable {t : DraftTree} {next : Nat → List (Int × Nat)} {lastToken : Int} {n : Nat}
variable {nodes : List Nat} {tree : ParentTree} {r : Result}

theorem prefix_leafPaths (h : t.Wf) (hnext : ∀ v, (next v).Perm (t.next v))
    (hf : Filled t next lastToken n nodes tree r) (hroom : t.cursor ≤ n) :
    ∃ leafPaths, r.extractLeafPaths = some leafPaths ∧
      ∀ p, (p ≠ [] ∧ ∃ q ∈ leafPaths, p <+: q) ↔ p ∈ t.kept := by
  obtain ⟨all, hall, hextract⟩ := hf.extractLeafPaths h hnext hroom
  have hnil : ∀ v, next v = [] ↔ t.next v = [] := fun v =>
    ⟨fun heq => (heq ▸ hnext v).nil_eq.symm, fun heq => (heq ▸ hnext v).eq_nil⟩
  refine ⟨_, hextract, fun p => ?_⟩
  constructor
  · rintro ⟨hne, q, hq, rest, rfl⟩
    obtain ⟨hmem, hkeep⟩ := List.mem_filter.mp hq
    obtain ⟨v, _, hv⟩ := (forall₂_mem hall).2 _ hmem
    obtain ⟨u, hu, hgoes, _⟩ := DraftTree.path_prefix hv
    refine ⟨hne, u, (DraftTree.path_congr hnext).mp hu, ?_⟩
    rintro ⟨rfl, hleaf⟩
    have hrest : rest = [] := by
      by_contra hne
      exact hgoes hne ((hnil u).mpr hleaf)
    rw [hrest] at hkeep
    simp at hkeep
  · rintro ⟨hne, v, hv, hkept⟩
    obtain ⟨w, rest, hw, hleaf, hsame⟩ := h.exists_leaf hv
    have hwpos : w ≠ 0 := by
      rintro rfl
      have hroot := hw.unique h .root
      exact hne (List.append_eq_nil_iff.mp hroot).1
    have hmem : w ∈ nodes.filter fun v => v ≠ 0 ∧ next v = [] := by
      rw [List.mem_filter, decide_eq_true_eq, hf.perm.mem_iff, List.mem_range]
      exact ⟨hw.lt h, hwpos, (hnil w).mpr hleaf⟩
    obtain ⟨q, hq, hpath⟩ := (forall₂_mem hall).1 w hmem
    obtain rfl : q = p ++ rest := ((DraftTree.path_congr hnext).mp hpath).unique h hw
    refine ⟨hne, p ++ rest, List.mem_filter.mpr ⟨hq, ?_⟩, List.prefix_append _ _⟩
    rw [decide_eq_true_eq]
    intro hzero
    obtain ⟨rfl, rfl⟩ : p = [0] ∧ rest = [] := by
      rcases List.append_eq_singleton_iff.mp hzero with ⟨rfl, _⟩ | hand
      · exact absurd rfl hne
      · exact hand
    exact hkept ⟨rfl, hsame rfl ▸ hleaf⟩

end Filled

variable {iter : List (Int × Nat) → List (Int × Nat)} {lastToken : Int} {n n₁ n₂ : Nat}
variable {t t₁ t₂ : DraftTree} {r r₁ r₂ : Result}

structure Encodes (iter : List (Int × Nat) → List (Int × Nat)) (lastToken : Int) (n : Nat)
    (t : DraftTree) (r : Result) : Prop where
  fits : t.Fits n
  fill : fillResult (fun v => iter (t.next v)) lastToken n = some r

section Combine

variable (hiter : ∀ l, (iter l).Perm l)
include hiter

theorem encodes_of_fits (h : t.Fits n) (lastToken : Int) :
    ∃ r, Encodes iter lastToken n t r ∧ r.token.length = n := by
  obtain ⟨r, _, _, hfill, hf⟩ := fillResult_spec h.1 (fun v => hiter (t.next v)) h.2 lastToken
  exact ⟨r, ⟨h, hfill⟩, hf.length⟩

theorem Encodes.prefix_leafPaths (h : Encodes iter lastToken n t r) :
    ∃ leafPaths, r.extractLeafPaths = some leafPaths ∧
      ∀ p, (p ≠ [] ∧ ∃ q ∈ leafPaths, p <+: q) ↔ p ∈ t.kept := by
  obtain ⟨r', _, _, hfill, hf⟩ :=
    fillResult_spec h.fits.1 (fun v => hiter (t.next v)) h.fits.2 lastToken
  obtain rfl := Option.some.inj (h.fill.symm.trans hfill)
  exact hf.prefix_leafPaths h.fits.1 (fun v => hiter _) h.fits.2

/-- With room for the nodes of both parts, the combined tree has the paths of both. -/
theorem combineRootResults_spec (h₁ : Encodes iter lastToken n₁ t₁ r₁)
    (h₂ : Encodes iter lastToken n₂ t₂ r₂) (hroom : t₁.kept.ncard + t₂.kept.ncard < n) :
    ∃ t r, combineRootResults iter lastToken n r₁ r₂ = some r ∧ Encodes iter lastToken n t r ∧
      t.paths = t₁.kept ∪ t₂.kept := by
  obtain ⟨leaves₁, hleaves₁, hprefix₁⟩ := h₁.prefix_leafPaths hiter
  obtain ⟨leaves₂, hleaves₂, hprefix₂⟩ := h₂.prefix_leafPaths hiter
  have hfinite : (t₁.kept ∪ t₂.kept).Finite :=
    (h₁.fits.1.ncard_paths.1.subset t₁.kept_subset).union
      (h₂.fits.1.ncard_paths.1.subset t₂.kept_subset)
  have hcard : (t₁.kept ∪ t₂.kept).ncard < n :=
    Nat.lt_of_le_of_lt (Set.ncard_union_le _ _) hroom
  have hnil : (DraftTree.new).paths = ∅ := by
    ext p
    refine ⟨fun ⟨hne, v, hp⟩ => ?_, fun hp => absurd hp (Set.notMem_empty p)⟩
    cases hp with
    | root => exact absurd rfl hne
    | child _ hchild => cases hchild
  have hmem : ∀ q, (q ≠ [] ∧ ∃ path ∈ leaves₁ ++ leaves₂.filter (· ≠ []), q <+: path) ↔
      q ∈ t₁.kept ∪ t₂.kept := by
    intro q
    rw [Set.mem_union, ← hprefix₁, ← hprefix₂]
    constructor
    · rintro ⟨hne, path, hpath, hq⟩
      rcases List.mem_append.mp hpath with hpath | hpath
      · exact .inl ⟨hne, path, hpath, hq⟩
      · exact .inr ⟨hne, path, (List.mem_filter.mp hpath).1, hq⟩
    · rintro (⟨hne, path, hpath, hq⟩ | ⟨hne, path, hpath, hq⟩)
      · exact ⟨hne, path, List.mem_append_left _ hpath, hq⟩
      · refine ⟨hne, path, List.mem_append_right _ (List.mem_filter.mpr ⟨hpath, ?_⟩), hq⟩
        rw [decide_eq_true_eq]
        rintro rfl
        exact hne (List.prefix_nil.mp hq)
  obtain ⟨hwf, hpaths⟩ := DraftTree.insertPaths_paths DraftTree.new_wf hfinite hcard
    (hnil ▸ Set.empty_subset _) fun path hpath q hne hq => (hmem q).mp ⟨hne, path, hpath, hq⟩
  have hpaths' : (DraftTree.insertPaths n (leaves₁ ++ leaves₂.filter (· ≠ [])) .new).paths =
      t₁.kept ∪ t₂.kept := by
    rw [hpaths, hnil, Set.empty_union]
    ext q
    exact hmem q
  have hfits : (DraftTree.insertPaths n (leaves₁ ++ leaves₂.filter (· ≠ [])) .new).Fits n := by
    refine ⟨hwf, ?_⟩
    have hcount := hwf.ncard_paths.2
    rw [hpaths'] at hcount
    omega
  obtain ⟨r, hr, _⟩ := encodes_of_fits hiter hfits lastToken
  refine ⟨_, r, ?_, hr, hpaths'⟩
  rw [combineRootResults, mergedPaths, hleaves₁, hleaves₂]
  exact hr.fill

end Combine

theorem DraftTree.kept_zero (hp : [0] ∈ t.kept) : ∃ x, [0, x] ∈ t.kept := by
  obtain ⟨_, v, hv, hgoes⟩ := hp
  cases hkids : t.next v with
  | nil => exact absurd ⟨rfl, hkids⟩ hgoes
  | cons entry rest =>
      obtain ⟨x, c⟩ := entry
      have hchild : (x, c) ∈ t.next v := by rw [hkids]; exact List.mem_cons_self
      exact ⟨x, by simp, c, .child hv hchild, fun hshort => by simp at hshort⟩

/-- A combined tree has no leaf `0` right under the root any more. -/
theorem kept_of_paths (h : t.Wf) (hpaths : t.paths = t₁.kept ∪ t₂.kept) : t.kept = t.paths := by
  refine Set.Subset.antisymm t.kept_subset fun p hp => ?_
  obtain ⟨hne, v, hv⟩ := id hp
  refine ⟨hne, v, hv, ?_⟩
  rintro ⟨rfl, hleaf⟩
  have hlonger : ∃ x, [0, x] ∈ t.paths := by
    rw [hpaths] at hp ⊢
    rcases hp with hp | hp
    · obtain ⟨x, hx⟩ := DraftTree.kept_zero hp
      exact ⟨x, .inl hx⟩
    · obtain ⟨x, hx⟩ := DraftTree.kept_zero hp
      exact ⟨x, .inr hx⟩
  obtain ⟨x, _, c, hc⟩ := hlonger
  obtain ⟨u, hu, hchild⟩ := Path.last (p := [0]) hc
  rw [h.path_unique hu hv, hleaf] at hchild
  exact absurd hchild List.not_mem_nil

end SpecDecode.Ngram
