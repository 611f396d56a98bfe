import SpecDecode.Ngram.ResultSpec
import Mathlib.Data.List.Forall2
import Mathlib.Data.List.GetD

/-!
# Reading a draft tree back from its mask

The parent of a token is the last of its ancestors, so a scan of its row from right to left
finds the parent first, and the first later row that marks a token is the row of its first
child. The kernel and `extractLeafPaths_` recover the tree that way.

A one-token path `[0]` counts as padding, so a child of the root that carries token `0` and
has no children is dropped from the leaf paths.
-/

namespace SpecDecode.Ngram

open Function Buffer

variable {p : ParentTree} {n : Nat}

section Rows

variable {mask : Nat → Bool} {i : Nat}

theorem Marks.parent (h : Marks p n mask i) (hpos : 0 < i) (hi : i < n) :
    mask (i * n + p.parent i) = true :=
  (h _ (Nat.lt_trans (p.parent_lt i hpos) hi)).mpr (.inr (.parent hpos))

theorem Marks.gap (h : Marks p n mask i) (hi : i < n) {j : Nat} (hj : p.parent i < j)
    (hji : j < i) : mask (i * n + j) = false := by
  refine Bool.eq_false_iff.mpr fun hmark => ?_
  have hpos : 0 < i := Nat.zero_lt_of_lt hji
  rcases (h j (Nat.lt_trans hji hi)).mp hmark with rfl | hanc
  · exact Nat.lt_irrefl _ hji
  · rcases (p.ancestor_iff_parent hpos).mp hanc with rfl | hanc
    · exact Nat.lt_irrefl _ hj
    · exact Nat.lt_asymm hj hanc.lt

theorem lastBelow_eq {q : Nat → Bool} {j k : Nat} (hj : q j = true) (hjk : j < k)
    (hgap : ∀ x, j < x → x < k → q x = false) : lastBelow q k = some j := by
  induction k with
  | zero => omega
  | succ k ih =>
      rw [lastBelow]
      rcases Nat.lt_succ_iff_lt_or_eq.mp hjk with hlt | rfl
      · rw [hgap k hlt (Nat.lt_succ_self k), if_neg Bool.false_ne_true]
        exact ih hlt fun x hx hxk => hgap x hx (Nat.lt_succ_of_lt hxk)
      · rw [if_pos hj]

end Rows

section LeafPaths

variable {r : Result}

theorem linkParents_spec (hmarks : ∀ i, i < n → Marks p n r.mask i) {k : Nat} (hk : k < n) :
    (∀ i, 0 < i → i ≤ k → (r.linkParents n k).1 i = some (p.parent i)) ∧
      ∀ j, (r.linkParents n k).2 j = true ↔ ∃ i, 0 < i ∧ i ≤ k ∧ p.parent i = j := by
  induction k with
  | zero => exact ⟨fun i h0 h1 => by omega, fun j => ⟨nofun, fun ⟨i, h0, h1, _⟩ => by omega⟩⟩
  | succ k ih =>
      obtain ⟨hparent, hchild⟩ := ih (by omega)
      have hlast : lastBelow (fun j => r.mask ((k + 1) * n + j)) (k + 1) =
          some (p.parent (k + 1)) :=
        lastBelow_eq ((hmarks _ hk).parent (Nat.succ_pos k) hk) (p.parent_lt _ (Nat.succ_pos k))
          fun x hx hxk => (hmarks _ hk).gap hk hx hxk
      have hstep : r.linkParents n (k + 1) =
          (update (r.linkParents n k).1 (k + 1) (some (p.parent (k + 1))),
            update (r.linkParents n k).2 (p.parent (k + 1)) true) := by
        rw [Result.linkParents, List.range'_1_concat, List.foldl_append, List.foldl_cons,
          List.foldl_nil, Nat.add_comm 1 k, Result.linkParent, hlast, Result.linkParents]
      simp only [hstep]
      refine ⟨fun i h0 hi => ?_, fun j => ?_⟩
      · by_cases heq : i = k + 1
        · rw [heq]
          exact update_self ..
        · rw [update_of_ne heq]
          exact hparent i h0 (by omega)
      · by_cases heq : j = p.parent (k + 1)
        · rw [heq, update_self]
          exact ⟨fun _ => ⟨k + 1, Nat.succ_pos k, Nat.le_refl _, rfl⟩, fun _ => rfl⟩
        · rw [update_of_ne heq, hchild]
          constructor
          · rintro ⟨i, h0, hi, hp⟩
            exact ⟨i, h0, by omega, hp⟩
          · rintro ⟨i, h0, hi, rfl⟩
            refine ⟨i, h0, Nat.le_of_lt_succ (Nat.lt_of_le_of_ne hi fun hik => ?_), rfl⟩
            exact heq (by rw [hik])

theorem climb_spec {parent : Nat → Option Nat}
    (hparent : ∀ i, 0 < i → i < n → parent i = some (p.parent i)) {fuel i : Nat} (hi : i < n)
    (hfuel : i ≤ fuel) :
    r.climb parent fuel (some i) = some ((p.lineage i).map fun j => r.token.getD j 0) := by
  induction fuel generalizing i with
  | zero =>
      obtain rfl : i = 0 := by omega
      simp [Result.climb]
  | succ fuel ih =>
      cases i with
      | zero => simp [Result.climb]
      | succ i =>
          have hlt := p.parent_lt (i + 1) (Nat.succ_pos i)
          rw [Result.climb, hparent (i + 1) (Nat.succ_pos i) hi, ih (by omega) (by omega),
            p.lineage_of_pos (Nat.succ_pos i)]
          rfl

def tokenPath (p : ParentTree) (r : Result) (i : Nat) : List Int :=
  ((p.lineage i).map fun j => r.token.getD j 0).reverse

theorem collect_spec {path : Nat → List Int} {climb : Nat → Option (List Int)} {leaves : List Nat}
    (hclimb : ∀ leaf ∈ leaves, climb leaf = some (path leaf)) {paths : List (List Int)} :
    leaves.foldlM (fun paths leaf => (climb leaf).map fun path =>
      if path.reverse = [0] then paths else paths ++ [path.reverse]) paths =
        some (paths ++ (leaves.map fun leaf => (path leaf).reverse).filter (· ≠ [0])) := by
  induction leaves generalizing paths with
  | nil => simp
  | cons leaf leaves ih =>
      rw [List.foldlM_cons, hclimb leaf List.mem_cons_self, Option.map_some, Option.bind_eq_bind,
        Option.bind_some, ih fun l hl => hclimb l (List.mem_cons_of_mem _ hl), List.map_cons,
        List.filter_cons]
      split
      · next hpad => simp [hpad]
      · next hpad => simp [hpad]

/-- The paths of the tokens without children, less those that count as padding. -/
theorem extractLeafPaths_spec (hlen : r.token.length = n)
    (hmarks : ∀ i, i < n → Marks p n r.mask i) :
    r.extractLeafPaths = some ((((List.range' 1 (n - 1)).filter
      fun leaf => p.children n leaf = []).map (tokenPath p r)).filter (· ≠ [0])) := by
  unfold Result.extractLeafPaths
  simp only [hlen]
  split
  · next hn =>
      have hzero : n - 1 = 0 := by omega
      simp [hzero]
  · next hn =>
      obtain ⟨hparent, hchild⟩ := linkParents_spec hmarks (k := n - 1) (by omega)
      have hfilter : (List.range' 1 (n - 1)).filter
          (fun leaf => !(r.linkParents n (n - 1)).2 leaf) =
            (List.range' 1 (n - 1)).filter fun leaf => p.children n leaf = [] := by
        refine List.filter_congr fun leaf _ => ?_
        rw [Bool.eq_iff_iff, Bool.not_eq_true', Bool.eq_false_iff, Ne, hchild, decide_eq_true_eq,
          List.eq_nil_iff_forall_not_mem]
        constructor
        · rintro hno i hi
          obtain ⟨h0, hin, hpi⟩ := p.mem_children.mp hi
          exact hno ⟨i, h0, by omega, hpi⟩
        · rintro hno ⟨i, h0, hin, hpi⟩
          exact hno i (p.mem_children.mpr ⟨h0, by omega, hpi⟩)
      rw [hfilter]
      -- the loop over the leaves, from the left
      generalize hleaves : (List.range' 1 (n - 1)).filter
        (fun leaf => decide (p.children n leaf = [])) = leaves
      have hlt : ∀ leaf ∈ leaves, leaf < n := by
        intro leaf hleaf
        rw [← hleaves, List.mem_filter, List.mem_range'_1] at hleaf
        omega
      have hclimb : ∀ leaf ∈ leaves, r.climb (r.linkParents n (n - 1)).1 n (some leaf) =
          some ((p.lineage leaf).map fun j => r.token.getD j 0) := fun leaf hleaf =>
        climb_spec (fun i h0 hi => hparent i h0 (by omega)) (hlt leaf hleaf)
          (Nat.le_of_lt (hlt leaf hleaf))
      exact (collect_spec hclimb).trans (by rw [List.nil_append]; rfl)

end LeafPaths

/-- The tokens on the way from the root to a node. -/
inductive Path (next : Nat → List (Int × Nat)) : Nat → List Int → Prop where
  | root : Path next 0 []
  | child {v c : Nat} {token : Int} {w : List Int} (h : Path next v w)
      (hchild : (token, c) ∈ next v) : Path next c (w ++ [token])

namespace Filled

variable {t : DraftTree} {next : Nat → List (Int × Nat)} {lastToken : Int} {nodes : List Nat}
variable {r : Result}

section

variable (hf : Filled t next lastToken n nodes p r)

include hf

theorem length_nodes : nodes.length = t.cursor := by
  rw [hf.perm.length_eq, List.length_range]

theorem getD_zero : nodes.getD 0 0 = 0 := by
  rw [hf.visits]
  rfl

private theorem nodup : nodes.Nodup :=
  hf.perm.nodup_iff.mpr List.nodup_range

theorem getD_inj {i j : Nat} (hi : i < t.cursor)
    (hj : j < t.cursor) (heq : nodes.getD i 0 = nodes.getD j 0) : i = j := by
  rw [← hf.length_nodes] at hi hj
  rw [List.getD_eq_getElem _ _ hi, List.getD_eq_getElem _ _ hj] at heq
  exact hf.nodup.getElem_inj_iff.mp heq

theorem path {i : Nat} (hi : i < t.cursor) : Path next (nodes.getD i 0) (tokenPath p r i) := by
  induction i using p.parent_induction with
  | root =>
      rw [hf.getD_zero, tokenPath, p.lineage_zero]
      exact .root
  | node i hpos ih =>
      have hpath := ih (Nat.lt_trans (p.parent_lt i hpos) hi)
      rw [tokenPath, p.lineage_of_pos hpos, List.map_cons, List.reverse_cons]
      exact .child hpath (hf.node i hpos hi)

end

/-- A node has children in the tree if and only if its number has. -/
theorem children_eq_nil_iff (h : t.Wf) (hnext : ∀ v, (next v).Perm (t.next v))
    (hf : Filled t next lastToken n nodes p r) (hroom : t.cursor ≤ n) {i : Nat} (hpos : 0 < i)
    (hi : i < t.cursor) : p.children n i = [] ↔ next (nodes.getD i 0) = [] := by
  rw [List.eq_nil_iff_forall_not_mem, List.eq_nil_iff_forall_not_mem]
  constructor
  · rintro hno ⟨token, c⟩ hc
    have hchild := h.child ((hnext _).mem_iff.mp hc)
    have hmem : c ∈ nodes := hf.perm.mem_iff.mpr (List.mem_range.mpr hchild.2)
    obtain ⟨k, hk, rfl⟩ := List.getElem_of_mem hmem
    have hklt : k < t.cursor := by rwa [← hf.length_nodes]
    have hget : nodes.getD k 0 = nodes[k] := List.getD_eq_getElem _ _ hk
    have hk0 : 0 < k := by
      refine Nat.pos_of_ne_zero fun hzero => ?_
      subst hzero
      rw [← hget, hf.getD_zero] at hchild
      exact Nat.not_lt_zero _ hchild.1
    have hnode := hf.node k hk0 hklt
    rw [hget] at hnode
    have hsame := h.unique ((hnext _).mem_iff.mp hnode) ((hnext _).mem_iff.mp hc)
    have hparent := hf.getD_inj (Nat.lt_trans (p.parent_lt k hk0) hklt) hi hsame.1
    exact hno k (p.mem_children.mpr ⟨hk0, Nat.lt_of_lt_of_le hklt hroom, hparent⟩)
  · intro hno k hk
    obtain ⟨hk0, hkn, rfl⟩ := p.mem_children.mp hk
    by_cases hklt : k < t.cursor
    · exact hno _ (hf.node k hk0 hklt)
    · have hpad := (hf.pad k (Nat.le_of_not_lt hklt) hkn).2
      omega

theorem tokenPath_pad (hf : Filled t next lastToken n nodes p r) {i : Nat} (hi : t.cursor ≤ i)
    (hin : i < n) (hpos : 0 < i) : tokenPath p r i = [0] := by
  obtain ⟨htoken, hparent⟩ := hf.pad i hi hin
  rw [tokenPath, p.lineage_of_pos hpos, hparent, p.lineage_zero, List.map_cons, htoken]
  rfl

private theorem nodes_eq (hf : Filled t next lastToken n nodes p r) (hpos : 0 < t.cursor) :
    nodes = 0 :: (List.range' 1 (t.cursor - 1)).map fun i => nodes.getD i 0 := by
  have hmap : nodes = (List.range t.cursor).map fun i => nodes.getD i 0 := by
    refine List.ext_getElem (by rw [List.length_map, List.length_range, hf.length_nodes]) ?_
    intro i hi _
    rw [List.getElem_map, List.getElem_range, List.getD_eq_getElem _ _ hi]
  have hrange : List.range t.cursor = 0 :: List.range' 1 (t.cursor - 1) := by
    rw [List.range_eq_range', ← Nat.succ_pred_eq_of_pos hpos]
    rfl
  conv_lhs => rw [hmap, hrange, List.map_cons, hf.getD_zero]

theorem extractLeafPaths (h : t.Wf) (hnext : ∀ v, (next v).Perm (t.next v))
    (hf : Filled t next lastToken n nodes p r) (hroom : t.cursor ≤ n) :
    ∃ paths, List.Forall₂ (Path next) (nodes.filter fun v => v ≠ 0 ∧ next v = []) paths ∧
      r.extractLeafPaths = some (paths.filter (· ≠ [0])) := by
  have hpos := h.pos
  refine ⟨((List.range' 1 (t.cursor - 1)).filter fun i => p.children n i = []).map (tokenPath p r),
    ?_, ?_⟩
  · have hfilter : (List.range' 1 (t.cursor - 1)).filter
        ((fun v => decide (v ≠ 0 ∧ next v = [])) ∘ fun i => nodes.getD i 0) =
          (List.range' 1 (t.cursor - 1)).filter fun i => p.children n i = [] := by
      refine List.filter_congr fun i hi => ?_
      rw [List.mem_range'_1] at hi
      have hne : nodes.getD i 0 ≠ 0 := by
        intro hzero
        have hi0 := hf.getD_inj (by omega) hpos (hzero.trans hf.getD_zero.symm)
        omega
      have hleaf := children_eq_nil_iff h hnext hf hroom (i := i) (by omega) (by omega)
      rw [Bool.eq_iff_iff, Function.comp_apply, decide_eq_true_eq, decide_eq_true_eq, hleaf]
      exact ⟨fun hand => hand.2, fun hnil => ⟨hne, hnil⟩⟩
    have hleaves : nodes.filter (fun v => v ≠ 0 ∧ next v = []) =
        ((List.range' 1 (t.cursor - 1)).filter fun i => p.children n i = []).map
          fun i => nodes.getD i 0 := by
      conv_lhs => rw [hf.nodes_eq hpos, List.filter_cons]
      rw [if_neg (by simp), List.filter_map, hfilter]
    rw [hleaves, List.forall₂_map_left_iff, List.forall₂_map_right_iff, List.forall₂_same]
    intro i hi
    rw [List.mem_filter, List.mem_range'_1] at hi
    exact hf.path (by omega)
  · rw [extractLeafPaths_spec hf.length hf.marks]
    have hsplit : List.range' 1 (n - 1) =
        List.range' 1 (t.cursor - 1) ++ List.range' t.cursor (n - t.cursor) := by
      have happend := List.range'_append_1 (s := 1) (m := t.cursor - 1) (n := n - t.cursor)
      rw [Nat.add_sub_cancel' hpos] at happend
      rw [happend]
      congr 1
      omega
    have hpad : (((List.range' t.cursor (n - t.cursor)).filter
        (fun i => p.children n i = [])).map (tokenPath p r)).filter (· ≠ [0]) = [] := by
      rw [List.filter_eq_nil_iff]
      intro w hw
      obtain ⟨i, hi, rfl⟩ := List.mem_map.mp hw
      rw [List.mem_filter, List.mem_range'_1] at hi
      rw [hf.tokenPath_pad (by omega) (by omega) (by omega)]
      decide
    rw [hsplit, List.filter_append, List.map_append, List.filter_append, hpad, List.append_nil]

end Filled

namespace MaskArgs

variable {a : MaskArgs} {bid tid : Nat}

/-- A scan of the row of a token counts its ancestors and meets its parent first. -/
theorem scanRow_spec {row : Nat → Bool} {i depth : Nat} {parentIdx : Int}
    (hrow : ∀ j, j < i → (row j = true ↔ p.Ancestor j i)) :
    scanRow row i (depth, parentIdx) =
      (depth + p.depth i, if parentIdx = -1 ∧ 0 < i then (p.parent i : Int) else parentIdx) := by
  induction i using p.parent_induction generalizing depth parentIdx with
  | root =>
      rw [scanRow, p.depth_zero, if_neg (by omega)]
      rfl
  | node i hpos ih =>
      have hlt := p.parent_lt i hpos
      -- nothing is marked between the parent and the token
      have hgap : ∀ k, p.parent i < k → k ≤ i →
          scanRow row k (depth, parentIdx) = scanRow row (p.parent i + 1) (depth, parentIdx) := by
        intro k hk hki
        induction k with
        | zero => omega
        | succ k ihk =>
            rcases Nat.lt_succ_iff_lt_or_eq.mp hk with hlt' | rfl
            · have hfalse : row k = false := by
                refine Bool.eq_false_iff.mpr fun hmark => ?_
                rcases (p.ancestor_iff_parent hpos).mp ((hrow k (by omega)).mp hmark)
                  with rfl | hanc
                · exact Nat.lt_irrefl _ hlt'
                · exact Nat.lt_asymm hlt' hanc.lt
              rw [scanRow, hfalse, if_neg Bool.false_ne_true]
              exact ihk hlt' (by omega)
            · rfl
      have hmark : row (p.parent i) = true := (hrow _ hlt).mpr (.parent hpos)
      have hbelow : ∀ j, j < p.parent i → (row j = true ↔ p.Ancestor j (p.parent i)) := by
        intro j hj
        rw [hrow j (by omega), p.ancestor_iff_parent hpos]
        exact ⟨fun hor => hor.resolve_left (by omega), .inr⟩
      rw [hgap i hlt (Nat.le_refl i), scanRow, hmark, if_pos rfl, ih hbelow, p.depth_of_pos hpos,
        if_neg (by split <;> omega)]
      refine Prod.ext (by simp only; omega) ?_
      simp only [hpos, and_true]

private theorem findFrom_spec {q : Nat → Bool} {fuel i : Nat} :
    findFrom q fuel i = ((List.range' i fuel).find? q).getD (i + fuel) := by
  induction fuel generalizing i with
  | zero => rfl
  | succ fuel ih =>
      rw [findFrom, List.range'_succ, List.find?_cons]
      cases hq : q i with
      | true => rfl
      | false =>
          rw [if_neg Bool.false_ne_true, ih, Nat.add_right_comm, Nat.add_assoc]

theorem search_spec {q : Nat → Bool} {start : Nat} (hstart : start ≤ a.draftTokenNum) :
    a.search q start =
      (((List.range' start (a.draftTokenNum - start)).find? q).map Int.ofNat).getD (-1) := by
  rw [search, findFrom_spec]
  cases hfind : (List.range' start (a.draftTokenNum - start)).find? q with
  | none =>
      rw [Option.getD_none, if_neg (by omega)]
      rfl
  | some i =>
      have hmem := List.mem_of_find?_eq_some hfind
      rw [List.mem_range'_1] at hmem
      rw [Option.getD_some, if_pos (by omega)]
      rfl

/-- The block of request `bid` holds a mask of the tree `p`. -/
def Holds (a : MaskArgs) (bid : Nat) (p : ParentTree) : Prop :=
  ∀ i j, i < a.draftTokenNum → j < a.draftTokenNum →
    (a.cell bid i j = true ↔ j = i ∨ p.Ancestor j i)

theorem Holds.scanRow (h : a.Holds bid p) (htid : tid < a.draftTokenNum) :
    scanRow (a.cell bid tid) tid (0, -1) =
      (p.depth tid, if 0 < tid then (p.parent tid : Int) else -1) := by
  rw [scanRow_spec (p := p) fun j hj => ?_]
  · simp
  · rw [h tid j htid (Nat.lt_trans hj htid)]
    exact ⟨fun hor => hor.resolve_left (Nat.ne_of_lt hj), .inr⟩

theorem Holds.nextToken (h : a.Holds bid p) (htid : tid < a.draftTokenNum) :
    a.search (fun i => a.cell bid i tid) (tid + 1) =
      ((p.children a.draftTokenNum tid).head?.map Int.ofNat).getD (-1) := by
  rw [search_spec htid, p.children_eq_childrenFrom (m := tid + 1) (Nat.succ_pos tid)
    (Nat.le_refl _), ParentTree.childrenFrom, List.head?_filter]
  congr 2
  have hmarked : ∀ i, tid < i → i < a.draftTokenNum →
      (a.cell bid i tid = true ↔ p.Ancestor tid i) := by
    intro i hi hin
    rw [h i tid hin htid]
    exact ⟨fun hor => hor.resolve_left (Nat.ne_of_lt hi), .inr⟩
  cases hfind : (List.range' (tid + 1) (a.draftTokenNum - (tid + 1))).find?
      fun i => decide (p.parent i = tid) with
  | none =>
      rw [List.find?_eq_none] at hfind ⊢
      intro i hi
      rw [List.mem_range'_1] at hi
      rw [hmarked i (by omega) (by omega)]
      intro hanc
      obtain ⟨c, hc, hle, hparent⟩ := hanc.exists_child
      have hlt := p.parent_lt c hc
      exact hfind c (List.mem_range'_1.mpr (by omega)) (decide_eq_true hparent)
  | some c =>
      rw [List.find?_range'_eq_some] at hfind ⊢
      obtain ⟨hparent, hmem, hfirst⟩ := hfind
      have hparent : p.parent c = tid := of_decide_eq_true hparent
      rw [List.mem_range'_1] at hmem
      refine ⟨(hmarked c (by omega) (by omega)).mpr ?_, List.mem_range'_1.mpr hmem,
        fun j hj hjc => ?_⟩
      · rw [← hparent]
        exact .parent (by omega)
      · rw [Bool.not_eq_true', Bool.eq_false_iff, Ne, hmarked j (by omega) (by omega)]
        intro hanc
        obtain ⟨c', hc', hle, hparent'⟩ := hanc.exists_child
        have hlt := p.parent_lt c' hc'
        have hno := hfirst c' (by omega) (by omega)
        rw [Bool.not_eq_true', decide_eq_false_iff_not] at hno
        exact hno hparent'

theorem Holds.isSibling_iff (h : a.Holds bid p) {i v : Nat} (hv : v < i)
    (hi : i < a.draftTokenNum) : a.isSibling bid v i = decide (p.parent i = v) := by
  have hpos : 0 < i := Nat.zero_lt_of_lt hv
  have hlt := p.parent_lt i hpos
  rw [Bool.eq_iff_iff, isSibling, Bool.and_eq_true, List.all_eq_true, decide_eq_true_eq,
    h i v hi (Nat.lt_trans hv hi), or_iff_right (Nat.ne_of_lt hv)]
  constructor
  · rintro ⟨hanc, hgap⟩
    rcases (p.ancestor_iff_parent hpos).mp hanc with heq | hanc
    · exact heq.symm
    · have hmark := hgap (p.parent i) (List.mem_range'_1.mpr (by have := hanc.lt; omega))
      rw [Bool.not_eq_true', Bool.eq_false_iff] at hmark
      exact absurd ((h i _ hi (Nat.lt_trans hlt hi)).mpr (.inr (.parent hpos))) hmark
  · rintro rfl
    refine ⟨.parent hpos, fun j hj => ?_⟩
    rw [List.mem_range'_1] at hj
    rw [Bool.not_eq_true', Bool.eq_false_iff, Ne, h i j hi (by omega)]
    rintro (rfl | hanc)
    · omega
    · rcases (p.ancestor_iff_parent hpos).mp hanc with heq | hanc
      · omega
      · have := hanc.lt
        omega

theorem Holds.nextSibling (h : a.Holds bid p) (hpos : 0 < tid) (htid : tid < a.draftTokenNum) :
    a.search (fun i => a.isSibling bid (p.parent tid) i) (tid + 1) =
      ((p.childrenFrom a.draftTokenNum (tid + 1) (p.parent tid)).head?.map Int.ofNat).getD
      (-1) := by
  have hlt := p.parent_lt tid hpos
  have hfilter : (List.range' (tid + 1) (a.draftTokenNum - (tid + 1))).filter
      (fun i => a.isSibling bid (p.parent tid) i) =
        p.childrenFrom a.draftTokenNum (tid + 1) (p.parent tid) := by
    refine List.filter_congr fun i hi => ?_
    rw [List.mem_range'_1] at hi
    exact h.isSibling_iff (by omega) (by omega)
  rw [search_spec htid, ← List.head?_filter, hfilter]

/-- What the kernel stores for a token. -/
structure Reads (a : MaskArgs) (p : ParentTree) (bid tid : Nat) (b : IndexBuffers) : Prop where
  position : b.positions (bid * a.draftTokenNum + tid) = a.verifiedSeqLen bid + p.depth tid
  index : b.retriveIndex (bid * a.draftTokenNum + tid) = (bid * a.draftTokenNum + tid : Nat)
  nextToken : b.retriveNextToken (bid * a.draftTokenNum + tid) =
    ((p.children a.draftTokenNum tid).head?.map Int.ofNat).getD (-1)
  nextSibling : b.retriveNextSibling (bid * a.draftTokenNum + tid) =
    if tid = 0 then -1
    else ((p.childrenFrom a.draftTokenNum (tid + 1) (p.parent tid)).head?.map Int.ofNat).getD (-1)

def Writes (a : MaskArgs) (thread : Nat × Nat) (b b' : IndexBuffers) : Prop :=
  ∀ x, x ≠ thread.1 * a.draftTokenNum + thread.2 →
    b'.positions x = b.positions x ∧ b'.retriveIndex x = b.retriveIndex x ∧
      b'.retriveNextToken x = b.retriveNextToken x ∧
      b'.retriveNextSibling x = b.retriveNextSibling x

theorem Reads.of_writes {b b' : IndexBuffers} {thread : Nat × Nat} (h : a.Reads p bid tid b)
    (hw : a.Writes thread b b')
    (hne : bid * a.draftTokenNum + tid ≠ thread.1 * a.draftTokenNum + thread.2) :
    a.Reads p bid tid b' := by
  obtain ⟨hpos, hindex, htoken, hsibling⟩ := hw _ hne
  exact ⟨hpos.trans h.position, hindex.trans h.index, htoken.trans h.nextToken,
    hsibling.trans h.nextSibling⟩

theorem reconstructIndices_spec (b : IndexBuffers) (htid : tid < a.draftTokenNum) :
    ∃ b', a.reconstructIndices (bid, tid) b = some b' ∧ a.Writes (bid, tid) b b' ∧
      ∀ p, a.Holds bid p → a.Reads p bid tid b' := by
  refine ⟨_, by rw [reconstructIndices, if_neg (Nat.not_le_of_lt htid)], fun x hx => ?_,
    fun p h => ?_⟩
  · simp only [update_of_ne hx, and_self]
  · have hsibling : (if (scanRow (a.cell bid tid) tid (0, -1)).2 = -1 then (-1 : Int)
        else a.search (fun i => a.isSibling bid (scanRow (a.cell bid tid) tid (0, -1)).2.toNat i)
          (tid + 1)) = if tid = 0 then -1 else
        ((p.childrenFrom a.draftTokenNum (tid + 1) (p.parent tid)).head?.map Int.ofNat).getD
          (-1) := by
      rw [h.scanRow htid]
      rcases Nat.eq_zero_or_pos tid with rfl | hpos
      · rfl
      · simp only [if_pos hpos, Int.toNat_natCast]
        rw [if_neg (by omega), if_neg (by omega), h.nextSibling hpos htid]
    refine ⟨?_, ?_, ?_, ?_⟩
    · rw [h.scanRow htid]
      simp only [update_self]
      exact Nat.add_comm _ _
    · simp only [update_self]
    · simp only [update_self]
      exact h.nextToken htid
    · simp only [update_self]
      exact hsibling

theorem launchReconstruct_spec (bs : Nat) (b : IndexBuffers) :
    ∃ b', a.launchReconstruct bs b = some b' ∧ ∀ bid, bid < bs → ∀ p, a.Holds bid p →
      ∀ tid, tid < a.draftTokenNum → a.Reads p bid tid b' := by
  have hthread : ∀ thread ∈ List.range bs ×ˢ List.range a.draftTokenNum,
      thread.2 < a.draftTokenNum := by
    intro thread hmem
    rw [List.mem_product, List.mem_range, List.mem_range] at hmem
    exact hmem.2
  have hcell : ∀ {u v : Nat × Nat}, u.2 < a.draftTokenNum → v.2 < a.draftTokenNum → u ≠ v →
      v.1 * a.draftTokenNum + v.2 ≠ u.1 * a.draftTokenNum + u.2 := by
    intro u v hu hv hne heq
    by_cases hbid : u.1 = v.1
    · rw [hbid, Nat.add_left_cancel_iff] at heq
      exact hne (Prod.ext hbid heq.symm)
    · have := Buffer.window_outside hv hbid
      omega
  let L : Launch.Local a.reconstructIndices (List.range bs ×ˢ List.range a.draftTokenNum) := {
    pre := fun _ _ => True
    post := fun thread b => ∀ p, a.Holds thread.1 p → a.Reads p thread.1 thread.2 b
    effect := fun thread b b' => a.Writes thread b b'
    run := by
      intro thread hmem b _
      obtain ⟨b', hrun, hwrites, hreads⟩ := reconstructIndices_spec b (hthread thread hmem)
      exact ⟨b', hrun, hreads, hwrites⟩
    keep_pre := fun _ _ _ _ _ _ _ _ _ => trivial
    keep_post := by
      intro u hu v hv hne b b' hw hpost p hp
      exact (hpost p hp).of_writes hw (hcell (hthread u hu) (hthread v hv) hne) }
  obtain ⟨b', hrun, hpost⟩ := L.launch_post (List.nodup_range.product List.nodup_range) b
    fun _ _ => trivial
  refine ⟨b', hrun, fun bid hbid p hp tid htid => ?_⟩
  exact hpost (bid, tid) (List.mem_product.mpr ⟨List.mem_range.mpr hbid, List.mem_range.mpr htid⟩) p
    hp

end MaskArgs

/-- The mask of a result is stored in the block of request `bid`. -/
def MaskArgs.Stores (a : MaskArgs) (bid : Nat) (r : Result) : Prop :=
  ∀ x, x < a.draftTokenNum * a.draftTokenNum →
    a.treeMask (bid * (a.draftTokenNum * a.draftTokenNum) + x) = r.mask x

theorem MaskArgs.Stores.holds {a : MaskArgs} {bid : Nat} {r : Result} (h : a.Stores bid r)
    (hmarks : ∀ i, i < a.draftTokenNum → Marks p a.draftTokenNum r.mask i) : a.Holds bid p := by
  intro i j hi hj
  have hlt : i * a.draftTokenNum + j < a.draftTokenNum * a.draftTokenNum :=
    calc i * a.draftTokenNum + j < i * a.draftTokenNum + a.draftTokenNum := by omega
      _ = (i + 1) * a.draftTokenNum := (Nat.succ_mul i _).symm
      _ ≤ a.draftTokenNum * a.draftTokenNum := Nat.mul_le_mul_right _ hi
  rw [MaskArgs.cell, Nat.add_assoc, h _ hlt]
  exact hmarks i hi j hj

/-- A draft tree survives its mask: its nodes are numbered level by level, the rows mark the
tokens and their ancestors, the kernel reads positions and links back, and the leaf paths
are those of the tree, except that `[0]` counts as padding. -/
theorem fillResult_roundTrip {iter : List (Int × Nat) → List (Int × Nat)}
    (hiter : ∀ l, (iter l).Perm l) {t : DraftTree} (hbuilt : DraftTree.BuiltBy n t)
    (lastToken : Int) :
    ∃ r nodes p, fillResult (fun v => iter (t.next v)) lastToken n = some r ∧
      Filled t (fun v => iter (t.next v)) lastToken n nodes p r ∧
      nodes = (List.range t.cursor).flatMap
        (BreadthFirst.level (fun v => (iter (t.next v)).map Prod.snd) 0) ∧
      (∀ (a : MaskArgs) (bs : Nat) (b : IndexBuffers), a.draftTokenNum = n →
        ∃ b', a.launchReconstruct bs b = some b' ∧ ∀ bid, bid < bs → a.Stores bid r →
          ∀ tid, tid < n → a.Reads p bid tid b') ∧
      ∃ paths, List.Forall₂ (Path fun v => iter (t.next v))
          (nodes.filter fun v => v ≠ 0 ∧ iter (t.next v) = []) paths ∧
        r.extractLeafPaths = some (paths.filter (· ≠ [0])) := by
  obtain ⟨hwf, hroom⟩ := hbuilt.fits
  obtain ⟨r, nodes, p, hfill, hf⟩ := fillResult_spec hwf (fun v => hiter (t.next v)) hroom lastToken
  refine ⟨r, nodes, p, hfill, hf, ?_, ?_, hf.extractLeafPaths hwf (fun v => hiter _) hroom⟩
  · refine hf.visits.eq_levels id (fun v c hc => ?_) fun v hv => ?_
    · obtain ⟨⟨token, c⟩, hmem, rfl⟩ := List.mem_map.mp hc
      exact (hwf.child ((hiter _).mem_iff.mp hmem)).1
    · exact List.mem_range.mp (hf.perm.mem_iff.mp hv)
  · rintro a bs b rfl
    obtain ⟨b', hrun, hreads⟩ := MaskArgs.launchReconstruct_spec (a := a) bs b
    exact ⟨b', hrun, fun bid hbid hstores tid htid =>
      hreads bid hbid p (hstores.holds hf.marks) tid htid⟩

/-- Two children of the root and one padded token. -/
theorem fillResult_roundTrip_pad : ∃ t r p, DraftTree.BuiltBy 4 t ∧ t.next 0 = [(5, 1), (9, 2)] ∧
    fillResult (fun v => t.next v) 7 4 = some r ∧ ∀ i, i < 4 → Marks p 4 r.mask i := by
  have hbuilt : DraftTree.BuiltBy 4 _ := .recency
    (fun v : Nat => if v = 0 then [((5 : Int), 1), (9, 2)] else []) (id : Nat → Nat) id 4
      3 [(2, 0)] rfl
  obtain ⟨r, _, p, hfill, hf, _⟩ := fillResult_roundTrip (fun l => .refl l) hbuilt 7
  exact ⟨_, r, p, hbuilt, by decide, hfill, hf.marks⟩

/-- A tree whose only leaf carries token `0` loses its path. -/
theorem extractLeafPaths_drops_zero : ∃ t r, DraftTree.BuiltBy 2 t ∧
    fillResult (fun v => t.next v) 7 2 = some r ∧ t.next 1 = [] ∧ Path t.next 1 [0] ∧
      r.extractLeafPaths = some [] := by
  have hbuilt : DraftTree.BuiltBy 2 _ := .recency
    (fun v : Nat => if v = 0 then [((0 : Int), 1)] else []) (id : Nat → Nat) id 3 1 [(1, 0)] rfl
  refine ⟨_, _, hbuilt, rfl, by decide, ?_, by decide⟩
  exact .child .root (by decide)

end SpecDecode.Ngram
