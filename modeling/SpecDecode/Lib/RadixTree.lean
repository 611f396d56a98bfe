import SpecDecode.Lib.Pages
import Mathlib.Data.Finset.Erase
import Mathlib.Data.Finset.Filter
import Mathlib.Data.Finset.Insert
import Mathlib.Data.Finset.Max
import Mathlib.Data.List.Basic
import Mathlib.Logic.Function.Basic
import Mathlib.Logic.Relation

/-!
# Radix trees in a heap of nodes

A node carries the label of the edge that leads to it, one value for each symbol of
the label, its parent and its children by their first symbol. `Wf` says that the nodes
of a finite set form a tree below `root`.

`Spells` are the root paths of nodes and `Reads` follows a word down to a position
inside a label; a tree stores the value at that position under the word (`Entry`).
`Chain` follows the parents up and `Below` the children down. Splitting a node, adding a
leaf and removing a leaf keep a tree well-formed, and their effects on words, paths and
chains are stated as one lemma each.
-/

namespace SpecDecode

open Function

namespace RadixTree

variable {α β : Type}

structure Node (α β : Type) where
  parent : Option Nat
  child : α → Option Nat
  label : List α
  vals : List β

inductive Chain (t : Nat → Node α β) (root : Nat) : Nat → List Nat → Prop where
  | root : Chain t root root []
  | node {v u : Nat} {l : List Nat} (hv : v ≠ root) (hparent : (t v).parent = some u)
      (h : Chain t root u l) : Chain t root v (v :: l)

/-- The label of the path from the root to a node. -/
inductive Spells (t : Nat → Node α β) (root : Nat) : Nat → List α → Prop where
  | root : Spells t root root []
  | child {u v : Nat} {p : List α} {a : α} (h : Spells t root u p)
      (hchild : (t u).child a = some v) : Spells t root v (p ++ (t v).label)

/-- Reading a word down from `u` ends behind the first `i` symbols of the label of `v`. -/
inductive Reads (t : Nat → Node α β) : Nat → List α → Nat → Nat → Prop where
  | here {u v i : Nat} {a : α} (hchild : (t u).child a = some v) (hpos : 0 < i)
      (hle : i ≤ (t v).label.length) : Reads t u ((t v).label.take i) v i
  | step {u v w i : Nat} {a : α} {p : List α} (hchild : (t u).child a = some v)
      (h : Reads t v p w i) : Reads t u ((t v).label ++ p) w i

/-- The tree stores `b` under the word `p`. -/
def Entry (t : Nat → Node α β) (root : Nat) (p : List α) (b : β) : Prop :=
  ∃ v i, Reads t root p v (i + 1) ∧ (t v).vals[i]? = some b

structure Wf (t : Nat → Node α β) (root : Nat) (live : Finset Nat) : Prop where
  root_notMem : root ∉ live
  child : ∀ u a v, u = root ∨ u ∈ live → (t u).child a = some v →
    v ∈ live ∧ (t v).parent = some u ∧ (t v).label.head? = some a
  parent : ∀ v ∈ live, ∃ u a, (u = root ∨ u ∈ live) ∧ (t v).parent = some u ∧
    (t u).child a = some v
  chain : ∀ v ∈ live, ∃ l, Chain t root v l
  vals : ∀ v ∈ live, (t v).vals.length = (t v).label.length

section Basic

variable {t : Nat → Node α β} {root : Nat} {live : Finset Nat}

variable {v : Nat} {l : List Nat}

theorem Reads.congr {t' : Nat → Node α β} (hchild : ∀ v a, (t' v).child a = (t v).child a)
    (hlabel : ∀ v, (t' v).label = (t v).label) {u i : Nat} {p : List α} (h : Reads t u p v i) :
    Reads t' u p v i := by
  induction h with
  | here hc hpos hle =>
      rw [← hlabel] at hle ⊢
      exact .here ((hchild _ _).trans hc) hpos hle
  | step hc _ ih =>
      rw [← hlabel]
      exact .step ((hchild _ _).trans hc) ih

theorem Chain.unique {l' : List Nat} (h : Chain t root v l) (h' : Chain t root v l') : l = l' := by
  induction h generalizing l' with
  | root =>
      cases h' with
      | root => rfl
      | node hv => exact absurd rfl hv
  | node hv hparent _ ih =>
      cases h' with
      | root => exact absurd rfl hv
      | node _ hparent' h' =>
          rw [hparent] at hparent'
          obtain rfl := Option.some.inj hparent'
          rw [ih h']

theorem Chain.start_eq {w : Nat} (h : Chain t root v l) (h' : Chain t root w l) : v = w := by
  cases h <;> cases h' <;> rfl

theorem Chain.of_mem {w : Nat} (h : Chain t root v l) (hw : w ∈ l) :
    ∃ l', Chain t root w l' ∧ l'.length ≤ l.length := by
  induction h with
  | root => cases hw
  | node hv hparent h ih =>
      rcases List.mem_cons.mp hw with rfl | hw
      · exact ⟨_, .node hv hparent h, Nat.le_refl _⟩
      · obtain ⟨l', hl', hle⟩ := ih hw
        exact ⟨l', hl', Nat.le_succ_of_le hle⟩

theorem Chain.nodup (h : Chain t root v l) : l.Nodup := by
  induction h with
  | root => exact List.nodup_nil
  | node hv hparent h ih =>
      refine List.nodup_cons.mpr ⟨fun hmem => ?_, ih⟩
      obtain ⟨l', hl', hle⟩ := h.of_mem hmem
      have hlen := congrArg List.length (hl'.unique (.node hv hparent h))
      rw [List.length_cons] at hlen
      omega

namespace Wf

variable {v u i : Nat} {p q : List α}

section

variable (h : Wf t root live)

include h

theorem label_ne_nil (hv : v ∈ live) : (t v).label ≠ [] := by
  obtain ⟨u, a, hu, _, hchild⟩ := h.parent v hv
  intro hnil
  have hhead := (h.child u a v hu hchild).2.2
  simp [hnil] at hhead

theorem head?_label_append {a : α} (hu : u = root ∨ u ∈ live)
    (hchild : (t u).child a = some v) (p : List α) : ((t v).label ++ p).head? = some a := by
  obtain ⟨hv, _, hhead⟩ := h.child u a v hu hchild
  rw [List.head?_append_of_ne_nil _ (h.label_ne_nil hv), hhead]

theorem head?_label_take {a : α} (hu : u = root ∨ u ∈ live)
    (hchild : (t u).child a = some v) (hi : 0 < i) : ((t v).label.take i).head? = some a := by
  rw [List.head?_take, if_neg (by omega), (h.child u a v hu hchild).2.2]

theorem spells_live (hs : Spells t root v p) : v = root ∨ v ∈ live := by
  induction hs with
  | root => exact .inl rfl
  | child _ hchild ih => exact .inr (h.child _ _ _ ih hchild).1

theorem exists_chain (hv : v = root ∨ v ∈ live) :
    ∃ l, Chain t root v l := by
  rcases hv with rfl | hv
  · exact ⟨[], .root⟩
  · exact h.chain v hv

theorem chain_live {l : List Nat} (hl : Chain t root v l)
    (hv : v = root ∨ v ∈ live) : ∀ w ∈ l, w ∈ live := by
  induction hl with
  | root => simp
  | @node v u l hne hparent _ ih =>
      have hmem := hv.resolve_left hne
      obtain ⟨u', a, hu', hparent', _⟩ := h.parent v hmem
      rw [hparent] at hparent'
      obtain rfl := Option.some.inj hparent'
      intro w hw
      rcases List.mem_cons.mp hw with rfl | hw
      · exact hmem
      · exact ih hu' w hw

theorem exists_spells (hv : v = root ∨ v ∈ live) :
    ∃ p, Spells t root v p := by
  obtain ⟨l, hl⟩ := h.exists_chain hv
  induction hl with
  | root => exact ⟨[], .root⟩
  | @node v u l hne hparent _ ih =>
      obtain ⟨u', a, hu', hparent', hchild⟩ := h.parent v (hv.resolve_left hne)
      rw [hparent] at hparent'
      obtain rfl := Option.some.inj hparent'
      obtain ⟨p, hp⟩ := ih hu'
      exact ⟨_, .child hp hchild⟩

theorem spells_unique (hp : Spells t root v p) (hq : Spells t root v q) : p = q := by
  induction hp generalizing q with
  | root =>
      cases hq with
      | root => rfl
      | child hu hchild =>
          exact absurd (h.child _ _ _ (h.spells_live hu) hchild).1 h.root_notMem
  | @child u v p a hu hchild ih =>
      have hv := h.child _ _ _ (h.spells_live hu) hchild
      cases hq with
      | root => exact absurd hv.1 h.root_notMem
      | @child u' _ p' a' hu' hchild' =>
          have hv' := h.child _ _ _ (h.spells_live hu') hchild'
          obtain rfl : u = u' := Option.some.inj (hv.2.1.symm.trans hv'.2.1)
          rw [ih hu']

theorem reads_live (hr : Reads t u p v i)
    (hu : u = root ∨ u ∈ live) : v ∈ live ∧ 0 < i ∧ i ≤ (t v).label.length := by
  induction hr with
  | here hchild hpos hle => exact ⟨(h.child _ _ _ hu hchild).1, hpos, hle⟩
  | step hchild _ ih => exact ih (.inr (h.child _ _ _ hu hchild).1)

theorem reads_ne_nil (hr : Reads t u p v i) (hu : u = root ∨ u ∈ live) : p ≠ [] := by
  induction hr with
  | here hchild hpos hle =>
      intro hnil
      have hlen := congrArg List.length hnil
      rw [List.length_take, List.length_nil] at hlen
      omega
  | step hchild _ ih =>
      intro hnil
      exact ih (.inr (h.child _ _ _ hu hchild).1) (List.append_eq_nil_iff.mp hnil).2

theorem reads_head (hr : Reads t u p v i)
    (hu : u = root ∨ u ∈ live) : ∃ a w, (t u).child a = some w ∧ p.head? = some a := by
  cases hr with
  | here hchild hpos hle => exact ⟨_, _, hchild, h.head?_label_take hu hchild hpos⟩
  | step hchild hr => exact ⟨_, _, hchild, h.head?_label_append hu hchild _⟩

theorem reads_child {w : Nat} {a : α}
    (hu : u = root ∨ u ∈ live) (hchild : (t u).child a = some w) (hp : p.head? = some a) :
    Reads t u p v i ↔
      (v = w ∧ 0 < i ∧ i ≤ (t w).label.length ∧ p = (t w).label.take i) ∨
        ∃ q, p = (t w).label ++ q ∧ Reads t w q v i := by
  constructor
  · intro hr
    cases hr with
    | @here _ v i b hchild' hpos hle =>
        rw [h.head?_label_take hu hchild' hpos] at hp
        rw [Option.some.inj hp, hchild] at hchild'
        obtain rfl := Option.some.inj hchild'
        exact .inl ⟨rfl, hpos, hle, rfl⟩
    | @step _ w' _ _ b q hchild' hr =>
        rw [h.head?_label_append hu hchild'] at hp
        rw [Option.some.inj hp, hchild] at hchild'
        obtain rfl := Option.some.inj hchild'
        exact .inr ⟨q, rfl, hr⟩
  · rintro (⟨rfl, hpos, hle, rfl⟩ | ⟨q, rfl, hr⟩)
    · exact .here hchild hpos hle
    · exact .step hchild hr

end

/-- A label with more behind it is not the beginning of that label. -/
theorem append_ne_take {l : List α} (hp : p ≠ []) (i : Nat) : l ++ p ≠ l.take i := by
  intro heq
  have hlen := congrArg List.length heq
  rw [List.length_take, List.length_append] at hlen
  exact hp (List.length_eq_zero_iff.mp (by omega))

theorem reads_unique (h : Wf t root live) {w j : Nat} (hv : Reads t u p v i)
    (hw : Reads t u p w j) (hu : u = root ∨ u ∈ live) : v = w ∧ i = j := by
  induction hv generalizing w j with
  | @here u v i a hchild hpos hle =>
      have hlive := (h.child _ _ _ hu hchild).1
      rcases (h.reads_child hu hchild (h.head?_label_take hu hchild hpos)).mp hw
        with ⟨rfl, hpos', hle', heq⟩ | ⟨q, heq, hq⟩
      · have hlen := congrArg List.length heq
        rw [List.length_take, List.length_take] at hlen
        exact ⟨rfl, by omega⟩
      · exact absurd heq.symm (append_ne_take (h.reads_ne_nil hq (.inr hlive)) i)
  | @step u v w' i a p hchild hr ih =>
      have hlive := (h.child _ _ _ hu hchild).1
      rcases (h.reads_child hu hchild (h.head?_label_append hu hchild p)).mp hw
        with ⟨rfl, hpos', hle', heq⟩ | ⟨q, heq, hq⟩
      · exact absurd heq (append_ne_take (h.reads_ne_nil hr (.inr hlive)) j)
      · rw [List.append_cancel_left_eq] at heq
        subst heq
        exact ih hq (.inr hlive)

theorem reads_append (h : Wf t root live) (hu : Spells t root u q)
    (hp : p ≠ []) : Reads t root (q ++ p) v i ↔ Reads t u p v i := by
  induction hu generalizing p with
  | root => rfl
  | @child u w q a hu hchild ih =>
      have hlive := h.spells_live hu
      rw [List.append_assoc, ih (fun hnil => hp (List.append_eq_nil_iff.mp hnil).2),
        h.reads_child hlive hchild (h.head?_label_append hlive hchild p)]
      constructor
      · rintro (⟨rfl, _, _, heq⟩ | ⟨p', heq, hr⟩)
        · exact absurd heq (append_ne_take hp i)
        · rw [List.append_cancel_left_eq] at heq
          exact heq ▸ hr
      · intro hr
        exact .inr ⟨p, rfl, hr⟩

theorem reads_spells (hr : Reads t u p v i)
    (hq : Spells t root u q) : 0 < i ∧ i ≤ (t v).label.length ∧ ∃ w a q', Spells t root w q' ∧
      (t w).child a = some v ∧ q ++ p = q' ++ (t v).label.take i := by
  induction hr generalizing q with
  | here hchild hpos hle => exact ⟨hpos, hle, _, _, q, hq, hchild, rfl⟩
  | step hchild _ ih =>
      rw [← List.append_assoc]
      exact ih (.child hq hchild)

theorem reads_iff_spells (h : Wf t root live) :
    Reads t root p v i ↔ 0 < i ∧ i ≤ (t v).label.length ∧ ∃ u a q, Spells t root u q ∧
      (t u).child a = some v ∧ p = q ++ (t v).label.take i := by
  constructor
  · intro hr
    exact reads_spells hr .root
  · rintro ⟨hpos, hle, u, a, q, hu, hchild, rfl⟩
    have hne : (t v).label.take i ≠ [] := by
      intro hnil
      have hlen := congrArg List.length hnil
      rw [List.length_take, List.length_nil] at hlen
      omega
    exact (h.reads_append hu hne).mpr (.here hchild hpos hle)

/-- The path of a node is the word that is read to the end of its label. -/
theorem spells_iff_reads (h : Wf t root live) (hv : v ∈ live) :
    Spells t root v p ↔ Reads t root p v (t v).label.length := by
  rw [h.reads_iff_spells, List.take_length]
  constructor
  · intro hp
    cases hp with
    | root => exact absurd hv h.root_notMem
    | child hu hchild =>
        exact ⟨List.length_pos_of_ne_nil (h.label_ne_nil hv), Nat.le_refl _, _, _, _,
          hu, hchild, rfl⟩
  · rintro ⟨_, _, u, a, q, hu, hchild, rfl⟩
    exact .child hu hchild

theorem reads_take (h : Wf t root live) {j : Nat} {w : List α} (hv : v ∈ live)
    (hs : Spells t root v (q ++ w)) (hlen : w.length = (t v).label.length) (hpos : 0 < j)
    (hj : j ≤ w.length) : Reads t root (q ++ w.take j) v j := by
  obtain ⟨_, _, u, a, p, hu, hchild, heq⟩ := h.reads_iff_spells.mp ((h.spells_iff_reads hv).mp hs)
  rw [List.take_length] at heq
  obtain ⟨rfl, rfl⟩ := List.append_inj' heq hlen
  exact h.reads_iff_spells.mpr ⟨hpos, hj, u, a, q, hu, hchild, rfl⟩

theorem parent_ne (h : Wf t root live) (hv : v ∈ live) : (t v).parent ≠ some v := by
  intro hparent
  obtain ⟨l, hl⟩ := h.chain v hv
  have hne : v ≠ root := fun heq => h.root_notMem (heq ▸ hv)
  have hlen := congrArg List.length ((Chain.node hne hparent hl).unique hl)
  rw [List.length_cons] at hlen
  omega

theorem entry_unique (h : Wf t root live) {b b' : β} (hb : Entry t root p b)
    (hb' : Entry t root p b') : b = b' := by
  obtain ⟨v, i, hr, hget⟩ := hb
  obtain ⟨v', i', hr', hget'⟩ := hb'
  obtain ⟨rfl, hi⟩ := h.reads_unique hr hr' (.inl rfl)
  obtain rfl : i = i' := by omega
  exact Option.some.inj (hget.symm.trans hget')

theorem reads_of_append (hr : Reads t u (p ++ q) v i) (hp : p ≠ []) :
    ∃ v' j, Reads t u p v' (j + 1) := by
  have hpos := List.length_pos_of_ne_nil hp
  generalize hw : p ++ q = w at hr
  -- the prefix ends inside the label of the first child, or further down
  have hinside : ∀ {u v : Nat} {a : α} {p : List α}, (t u).child a = some v → 0 < p.length →
      p.length ≤ (t v).label.length → (t v).label.take p.length = p →
      ∃ v' j, Reads t u p v' (j + 1) := by
    intro u v a p hchild hpos hle htake
    have hr : Reads t u ((t v).label.take p.length) v p.length := .here hchild hpos hle
    rw [htake] at hr
    exact ⟨v, p.length - 1, by rwa [Nat.sub_add_cancel hpos]⟩
  induction hr generalizing p with
  | @here u v i a hchild _ hle =>
      have hlen := congrArg List.length hw
      rw [List.length_append, List.length_take] at hlen
      refine hinside hchild hpos (by omega) ?_
      have htake := congrArg (List.take p.length) hw
      rw [List.take_left, List.take_take, Nat.min_eq_left (by omega)] at htake
      exact htake.symm
  | @step u v w i a r hchild hr ih =>
      rcases List.append_eq_append_iff.mp hw with ⟨m, hlabel, _⟩ | ⟨m, rfl, hrest⟩
      · refine hinside hchild hpos ?_ (by rw [hlabel, List.take_left])
        rw [hlabel, List.length_append]
        omega
      · by_cases hm : m = []
        · subst hm
          rw [List.append_nil] at hpos ⊢
          exact hinside hchild hpos (Nat.le_refl _) (List.take_length)
        · obtain ⟨v', j, hr'⟩ := ih hm (List.length_pos_of_ne_nil hm) hrest.symm
          exact ⟨v', j, .step hchild hr'⟩

/-- Something is stored under each prefix of a word that is read. -/
theorem entry_of_reads (h : Wf t root live)
    (hr : Reads t root (p ++ q) v i) (hp : p ≠ []) : ∃ b, Entry t root p b := by
  obtain ⟨v', j, hr'⟩ := reads_of_append hr hp
  obtain ⟨_, hle, u, a, w, hu, hchild, _⟩ := h.reads_iff_spells.mp hr'
  have hv := (h.child _ _ _ (h.spells_live hu) hchild).1
  have hlt : j < (t v').vals.length := by
    rw [h.vals v' hv]
    omega
  exact ⟨(t v').vals[j], v', j, hr', List.getElem?_eq_getElem hlt⟩

theorem entry_of_append (h : Wf t root live) {b : β}
    (hb : Entry t root (p ++ q) b) (hp : p ≠ []) : ∃ b', Entry t root p b' := by
  obtain ⟨v, i, hr, _⟩ := hb
  exact h.entry_of_reads hr hp

end Wf

theorem Wf.entry_iff (h : Wf t root live) {p : List α} {b : β} :
    Entry t root p b ↔ ∃ u a q v i, Spells t root u q ∧ (t u).child a = some v ∧
      p = q ++ (t v).label.take (i + 1) ∧ (t v).vals[i]? = some b := by
  constructor
  · rintro ⟨v, i, hr, hget⟩
    obtain ⟨_, _, u, a, q, hu, hchild, rfl⟩ := h.reads_iff_spells.mp hr
    exact ⟨u, a, q, v, i, hu, hchild, rfl, hget⟩
  · rintro ⟨u, a, q, v, i, hu, hchild, rfl, hget⟩
    obtain ⟨hi, _⟩ := List.getElem?_eq_some_iff.mp hget
    have hv := (h.child _ _ _ (h.spells_live hu) hchild).1
    rw [h.vals v hv] at hi
    exact ⟨v, i, h.reads_iff_spells.mpr ⟨by omega, by omega, u, a, q, hu, hchild, rfl⟩, hget⟩

/-- The values `bs` are stored under the words that continue `q` by `w`, and `w` goes on
with a symbol under which nothing is stored. -/
structure Longest (t : Nat → Node α β) (root : Nat) (q w : List α) (bs : List β) : Prop where
  length_le : bs.length ≤ w.length
  entry : ∀ i b, bs[i]? = some b → Entry t root (q ++ w.take (i + 1)) b
  stop : bs.length < w.length → ∀ b, ¬ Entry t root (q ++ w.take (bs.length + 1)) b

namespace Longest

variable {u v : Nat} {a : α} {q w : List α} {bs bs' : List β}

theorem of_no_child (h : Wf t root live) (hu : Spells t root u q)
    (hstop : ∀ a, w.head? = some a → (t u).child a = none) : Longest t root q w [] := by
  refine ⟨Nat.zero_le _, by simp, fun hw b he => ?_⟩
  obtain ⟨v, i, hr, _⟩ := he
  have hne : w.take (([] : List β).length + 1) ≠ [] := by
    intro hnil
    rw [List.take_eq_nil_iff] at hnil
    rcases hnil with hnil | hnil
    · cases hnil
    · simp [hnil] at hw
  rw [h.reads_append hu hne] at hr
  obtain ⟨a, v', hchild, hhead⟩ := h.reads_head hr (h.spells_live hu)
  rw [List.head?_take, if_neg (Nat.succ_ne_zero _)] at hhead
  rw [hstop a hhead] at hchild
  cases hchild

/-- A continuation stays the longest in a tree that stores it and nothing new. -/
theorem shrink {t' : Nat → Node α β} (hs : Longest t root q w bs)
    (hkept : ∀ i b, bs[i]? = some b → Entry t' root (q ++ w.take (i + 1)) b)
    (hless : ∀ p b, Entry t' root p b → Entry t root p b) : Longest t' root q w bs where
  length_le := hs.length_le
  entry := hkept
  stop hlt b he := hs.stop hlt b (hless _ b he)

theorem congr {t' : Nat → Node α β} (hs : Longest t' root q w bs)
    (heq : ∀ p b, Entry t' root p b ↔ Entry t root p b) : Longest t root q w bs :=
  hs.shrink (fun i b hget => (heq _ b).mp (hs.entry i b hget)) fun p b => (heq p b).mpr

/-- One of two longest continuations is no longer than the other. -/
theorem length_le_of (hs : Longest t root q w bs) (hs' : Longest t root q w bs') :
    bs'.length ≤ bs.length := by
  by_contra hlt
  have hget := List.getElem?_eq_getElem (Nat.lt_of_not_le hlt)
  exact hs.stop (by have := hs'.length_le; omega) _ (hs'.entry bs.length _ hget)

theorem unique (h : Wf t root live) (hs : Longest t root q w bs) (hs' : Longest t root q w bs') :
    bs = bs' := by
  have hlen := Nat.le_antisymm (hs'.length_le_of hs) (hs.length_le_of hs')
  refine List.ext_getElem hlen fun i hi hi' => ?_
  exact h.entry_unique (hs.entry i _ (List.getElem?_eq_getElem hi))
    (hs'.entry i _ (List.getElem?_eq_getElem hi'))

theorem le_of_take (h : Wf t root live) (hs : Longest t root [] w bs) {p : List α} {k : Nat}
    (hu : Spells t root u p) (hk : k ≤ w.length) (htake : p.take k = w.take k) : k ≤ bs.length := by
  by_contra hlt
  have hne : w.take (bs.length + 1) ≠ [] := by
    intro hnil
    have hlen := congrArg List.length hnil
    rw [List.length_take, List.length_nil] at hlen
    omega
  have hcut : p = w.take (bs.length + 1) ++ p.drop (bs.length + 1) := by
    have hmore := congrArg (List.take (bs.length + 1)) htake
    rw [List.take_take, List.take_take, Nat.min_eq_left (by omega)] at hmore
    rw [← hmore, List.take_append_drop]
  rcases h.spells_live hu with rfl | hlive
  · have hnil := h.spells_unique hu .root
    rw [hcut] at hnil
    exact hne (List.append_eq_nil_iff.mp hnil).1
  · have hr := (h.spells_iff_reads hlive).mp hu
    rw [hcut] at hr
    obtain ⟨b, hb⟩ := h.entry_of_reads hr hne
    exact hs.stop (by omega) b hb

theorem le_of_spells (h : Wf t root live) (hs : Longest t root [] w bs) {k : Nat}
    (hu : Spells t root u (w.take k)) (hk : k ≤ w.length) : k ≤ bs.length :=
  hs.le_of_take h hu hk (List.take_take.trans (by rw [Nat.min_self]))

/-- Stored values come before the longest continuation from where they end. -/
theorem append (hlen : bs.length ≤ w.length)
    (hentry : ∀ i b, bs[i]? = some b → Entry t root (q ++ w.take (i + 1)) b)
    (hrest : Longest t root (q ++ w.take bs.length) (w.drop bs.length) bs') :
    Longest t root q w (bs ++ bs') := by
  have htake : ∀ i, q ++ w.take bs.length ++ (w.drop bs.length).take i =
      q ++ w.take (bs.length + i) := by
    intro i
    rw [List.append_assoc, ← List.take_add]
  have hrestlen := hrest.length_le
  rw [List.length_drop] at hrestlen
  refine ⟨by rw [List.length_append]; omega, fun i b hget => ?_, fun hlt b => ?_⟩
  · by_cases hi : i < bs.length
    · rw [List.getElem?_append_left hi] at hget
      exact hentry i b hget
    · rw [List.getElem?_append_right (by omega)] at hget
      have he := hrest.entry _ b hget
      rwa [htake, show bs.length + (i - bs.length + 1) = i + 1 by omega] at he
  · rw [List.length_append] at hlt ⊢
    have hs := hrest.stop (by rw [List.length_drop]; omega) b
    rwa [htake] at hs

theorem entry_child (h : Wf t root live) (hu : Spells t root u q)
    (hchild : (t u).child a = some v) {n : Nat} (htake : (t v).label.take n = w.take n) :
    ∀ i b, ((t v).vals.take n)[i]? = some b → Entry t root (q ++ w.take (i + 1)) b := by
  intro i b hget
  rw [List.getElem?_take] at hget
  split at hget
  · next hi =>
      refine h.entry_iff.mpr ⟨u, a, q, v, i, hu, hchild, ?_, hget⟩
      have htake' := congrArg (List.take (i + 1)) htake
      rw [List.take_take, List.take_take, Nat.min_eq_left (by omega)] at htake'
      rw [htake']
  · cases hget

theorem of_inside [DecidableEq α] (h : Wf t root live) (hu : Spells t root u q)
    (hchild : (t u).child a = some v) (hhead : w.head? = some a)
    (hlt : commonPrefixLen (t v).label w < (t v).label.length) :
    Longest t root q w ((t v).vals.take (commonPrefixLen (t v).label w)) := by
  have hv := (h.child _ _ _ (h.spells_live hu) hchild).1
  have hle := commonPrefixLen_le (t v).label w
  have hlen : ((t v).vals.take (commonPrefixLen (t v).label w)).length =
      commonPrefixLen (t v).label w := by
    rw [List.length_take, h.vals v hv]
    omega
  refine ⟨by omega, entry_child h hu hchild (take_commonPrefixLen _ _), fun hw b he => ?_⟩
  rw [hlen] at hw he
  obtain ⟨v', i, hr, _⟩ := he
  have hne : w.take (commonPrefixLen (t v).label w + 1) ≠ [] := by
    intro hnil
    rw [List.take_eq_nil_iff] at hnil
    rcases hnil with hnil | hnil
    · cases hnil
    · simp [hnil] at hw
  rw [h.reads_append hu hne, h.reads_child (h.spells_live hu) hchild
    (by rw [List.head?_take, if_neg (Nat.succ_ne_zero _), hhead])] at hr
  rcases hr with ⟨_, _, hi, heq⟩ | ⟨p, heq, hr⟩
  · have hlen' := congrArg List.length heq
    rw [List.length_take, List.length_take, Nat.min_eq_left (by omega),
      Nat.min_eq_left (by omega)] at hlen'
    rw [← hlen'] at heq
    have hmore := (le_commonPrefixLen_iff (t v).label w _).mpr ⟨hlt, hw, heq.symm⟩
    omega
  · have hlen' := congrArg List.length heq
    rw [List.length_take, List.length_append] at hlen'
    have hpos := List.length_pos_of_ne_nil (h.reads_ne_nil hr (.inr hv))
    omega

end Longest

/-- The node `v` lies on the chain of `w`. -/
def Under (t : Nat → Node α β) (root v w : Nat) : Prop := ∃ l, Chain t root w l ∧ v ∈ l

theorem Chain.under_iff {w : Nat} (h : Chain t root w l) : Under t root v w ↔ v ∈ l := by
  constructor
  · rintro ⟨l', hl', hmem⟩
    rw [h.unique hl']
    exact hmem
  · intro hmem
    exact ⟨l, h, hmem⟩

section Paths

variable {u v w i : Nat} {p q : List α}

theorem Under.self (h : Wf t root live) (hv : v ∈ live) : Under t root v v := by
  obtain ⟨l, hl⟩ := h.chain v hv
  refine ⟨l, hl, ?_⟩
  cases hl with
  | root => exact absurd hv h.root_notMem
  | node => exact List.mem_cons_self

theorem Under.of_parent (hne : w ≠ root) (hparent : (t w).parent = some u)
    (h : Under t root v u) : Under t root v w := by
  obtain ⟨l, hl, hmem⟩ := h
  exact ⟨w :: l, .node hne hparent hl, List.mem_cons_of_mem _ hmem⟩

theorem Wf.under_live (h : Wf t root live) (hw : w = root ∨ w ∈ live) (hv : Under t root v w) :
    v ∈ live := by
  obtain ⟨l, hl, hmem⟩ := hv
  exact h.chain_live hl hw v hmem

/-- A node other than `w` above `w` is above its parent. -/
theorem Under.parent (hne : v ≠ w) (hparent : (t w).parent = some u) (h : Under t root v w) :
    Under t root v u := by
  obtain ⟨l, hl, hmem⟩ := h
  cases hl with
  | root => cases hmem
  | node hw hparent' hl =>
      obtain rfl := Option.some.inj (hparent.symm.trans hparent')
      exact ⟨_, hl, List.mem_of_ne_of_mem hne hmem⟩

namespace Wf

section

variable (h : Wf t root live)

include h

theorem spells_parent (hv : v ∈ live) (hparent : (t v).parent = some u)
    (hq : Spells t root v q) : ∃ p, Spells t root u p ∧ q = p ++ (t v).label := by
  cases hq with
  | root => exact absurd hv h.root_notMem
  | @child u' _ p a hu hchild =>
      have hparent' := (h.child u' a v (h.spells_live hu) hchild).2.1
      obtain rfl := Option.some.inj (hparent.symm.trans hparent')
      exact ⟨p, hu, rfl⟩

/-- The prefixes of the path of a node are read in the nodes above it. -/
theorem reads_under (hw : Spells t root w p) (hq : q <+: p) (hne : q ≠ []) :
    ∃ v i, Reads t root q v i ∧ Under t root v w := by
  induction hw with
  | root => exact absurd (List.prefix_nil.mp hq) hne
  | @child u w p a hu hchild ih =>
      have hlive := h.spells_live hu
      obtain ⟨hw, hparent, _⟩ := h.child u a w hlive hchild
      have hwroot : w ≠ root := fun heq => h.root_notMem (heq ▸ hw)
      by_cases hle : q.length ≤ p.length
      · obtain ⟨v, i, hr, hv⟩ := ih
          (List.prefix_of_prefix_length_le hq (List.prefix_append _ _) hle)
        exact ⟨v, i, hr, hv.of_parent hwroot hparent⟩
      · obtain ⟨m, rfl⟩ := List.prefix_of_prefix_length_le (List.prefix_append _ _) hq (by omega)
        have hm : m <+: (t w).label := (List.prefix_append_right_inj _).mp hq
        have hpos : 0 < m.length := by
          rw [List.length_append] at hle
          omega
        refine ⟨w, m.length, h.reads_iff_spells.mpr ⟨hpos, hm.length_le, u, a, p, hu, hchild, ?_⟩,
          .self h hw⟩
        rw [← List.prefix_iff_eq_take.mp hm]

theorem reads_prefix (hr : Reads t root q v i) (hp : Spells t root v p) : q <+: p := by
  obtain ⟨_, _, u, a, r, hu, hchild, rfl⟩ := h.reads_iff_spells.mp hr
  rw [h.spells_unique hp (.child hu hchild)]
  exact (List.prefix_append_right_inj _).mpr (List.take_prefix _ _)

/-- The nodes above a node are those whose paths are prefixes of its path. -/
theorem prefix_iff_under (hv : v ∈ live) (hq : Spells t root v q)
    (hw : Spells t root w p) : q <+: p ↔ Under t root v w := by
  have hr := (h.spells_iff_reads hv).mp hq
  constructor
  · intro hpre
    obtain ⟨v', i, hr', hunder⟩ := h.reads_under hw hpre (h.reads_ne_nil hr (.inl rfl))
    obtain ⟨rfl, _⟩ := h.reads_unique hr hr' (.inl rfl)
    exact hunder
  · intro hunder
    induction hw with
    | root =>
        obtain ⟨l, hl, hmem⟩ := hunder
        cases hl with
        | root => cases hmem
        | node hne => exact absurd rfl hne
    | @child u w p a hu hchild ih =>
        by_cases hvw : v = w
        · subst hvw
          rw [h.spells_unique hq (.child hu hchild)]
        · have hparent := (h.child u a w (h.spells_live hu) hchild).2.1
          exact (ih (hunder.parent hvw hparent)).trans (List.prefix_append _ _)

/-- Two nodes above one whose labels begin at the same place are the same. -/
theorem under_unique {v' : Nat} {q' : List α} (hw : w = root ∨ w ∈ live)
    (hv : Under t root v w) (hv' : Under t root v' w) (hq : Spells t root v q)
    (hq' : Spells t root v' q')
    (hlen : q.length + (t v').label.length = q'.length + (t v).label.length) : v = v' := by
  obtain ⟨p, hp⟩ := h.exists_spells hw
  have hpre := (h.prefix_iff_under (h.under_live hw hv) hq hp).mpr hv
  have hpre' := (h.prefix_iff_under (h.under_live hw hv') hq' hp).mpr hv'
  -- the longer path would begin inside the label of the shorter one
  have hshort : ∀ {v v' : Nat} {q q' : List α}, v ∈ live → v' ∈ live → Spells t root v q →
      Spells t root v' q' → q <+: q' →
      q.length + (t v').label.length = q'.length + (t v).label.length → v = v' := by
    intro v v' q q' hv hv' hq hq' hpre hlen
    by_contra hne
    obtain ⟨u, a, hu, hparent, hchild⟩ := h.parent v' hv'
    have hunder := ((h.prefix_iff_under hv hq hq').mp hpre).parent hne hparent
    obtain ⟨r, hr, rfl⟩ := h.spells_parent hv' hparent hq'
    have hle := ((h.prefix_iff_under hv hq hr).mpr hunder).length_le
    have hpos := List.length_pos_of_ne_nil (h.label_ne_nil hv)
    rw [List.length_append] at hlen
    omega
  rcases List.prefix_or_prefix_of_prefix hpre hpre' with hqq | hqq
  · exact hshort (h.under_live hw hv) (h.under_live hw hv') hq hq' hqq hlen
  · exact (hshort (h.under_live hw hv') (h.under_live hw hv) hq' hq hqq hlen.symm).symm

/-- Where a chain is cut: the path of the node there separates the paths of the two parts. -/
theorem chain_append {l₁ l₂ : List Nat} (hl : Chain t root v (l₁ ++ l₂))
    (hp : Spells t root v p) : ∃ u r, Chain t root u l₂ ∧ Spells t root u r ∧ r.length ≤ p.length ∧
      (∀ x ∈ l₁, ∀ q, Spells t root x q → r.length + (t x).label.length ≤ q.length) ∧
      ∀ b, l₁.getLast? = some b → ∀ q, Spells t root b q →
      q.length = r.length + (t b).label.length := by
  induction l₁ generalizing v p with
  | nil => exact ⟨v, p, hl, hp, Nat.le_refl _, by simp, by simp⟩
  | cons x l₁ ih =>
      cases hl with
      | @node _ u _ hne hparent hl =>
        have hvlive := (h.spells_live hp).resolve_left hne
        obtain ⟨p', hp', rfl⟩ := h.spells_parent hvlive hparent hp
        obtain ⟨w, r, hw, hr, hle, hpart, hlast⟩ := ih hl hp'
        have hlen : (p' ++ (t x).label).length = p'.length + (t x).label.length :=
          List.length_append
        refine ⟨w, r, hw, hr, by omega, fun y hy q hq => ?_, fun b hb q hq => ?_⟩
        · rcases List.mem_cons.mp hy with rfl | hy
          · rw [h.spells_unique hq hp]
            omega
          · exact hpart y hy q hq
        · cases l₁ with
          | nil =>
              obtain rfl : x = b := Option.some.inj hb
              obtain rfl := hw.start_eq hl
              rw [h.spells_unique hq hp, h.spells_unique hr hp', hlen]
          | cons y l₁ =>
              rw [List.getLast?_cons_cons] at hb
              exact hlast b hb q hq

end

end Wf

end Paths

end Basic

section Restrict

variable {t : Nat → Node α β} {root : Nat} {live : Finset Nat} {keep : Nat → Bool}

def restrict (keep : Nat → Bool) (t : Nat → Node α β) (v : Nat) : Node α β :=
  { t v with child := fun a => ((t v).child a).filter keep }

theorem restrict_child {u v : Nat} {a : α} :
    (restrict keep t u).child a = some v ↔ (t u).child a = some v ∧ keep v = true :=
  Option.filter_eq_some_iff

/-- The kept nodes form a tree when their parents are kept. -/
theorem Wf.restrict (h : Wf t root live) (hkeep : ∀ u a v, u = root ∨ u ∈ live →
    (t u).child a = some v → keep v = true → u = root ∨ keep u = true) :
    Wf (restrict keep t) root (live.filter fun v => keep v = true) := by
  have hold {v : Nat} (hv : v = root ∨ v ∈ live.filter fun v => keep v = true) :
      v = root ∨ v ∈ live :=
    hv.imp_right fun hmem => (Finset.mem_filter.mp hmem).1
  have hparent {v : Nat} (hv : v ∈ live) (hk : keep v = true) : ∃ u a,
      (u = root ∨ u ∈ live.filter fun v => keep v = true) ∧ (t v).parent = some u ∧
        (t u).child a = some v := by
    obtain ⟨u, a, hu, hparent, hchild⟩ := h.parent v hv
    refine ⟨u, a, ?_, hparent, hchild⟩
    rcases hu with hroot | hu
    · exact .inl hroot
    · exact (hkeep u a v (.inr hu) hchild hk).imp_right fun hk => Finset.mem_filter.mpr ⟨hu, hk⟩
  refine ⟨fun hroot => h.root_notMem (Finset.mem_filter.mp hroot).1, fun u a v hu hchild => ?_,
    fun v hv => ?_, fun v hv => ?_, fun v hv => h.vals v (Finset.mem_filter.mp hv).1⟩
  · obtain ⟨hchild, hk⟩ := restrict_child.mp hchild
    obtain ⟨hv, hparent, hhead⟩ := h.child u a v (hold hu) hchild
    exact ⟨Finset.mem_filter.mpr ⟨hv, hk⟩, hparent, hhead⟩
  · obtain ⟨hv, hk⟩ := Finset.mem_filter.mp hv
    obtain ⟨u, a, hu, hparent, hchild⟩ := hparent hv hk
    exact ⟨u, a, hu, hparent, restrict_child.mpr ⟨hchild, hk⟩⟩
  · obtain ⟨l, hl⟩ := h.chain v (Finset.mem_filter.mp hv).1
    refine ⟨l, ?_⟩
    clear hv
    induction hl with
    | root => exact .root
    | node hne hparent _ ih => exact .node hne hparent ih

theorem Wf.spells_restrict (h : Wf t root live) (hkeep : ∀ u a v, u = root ∨ u ∈ live →
    (t u).child a = some v → keep v = true → u = root ∨ keep u = true) {v : Nat} {p : List α} :
    Spells (RadixTree.restrict keep t) root v p ↔ Spells t root v p ∧
    (v = root ∨ keep v = true) := by
  constructor
  · intro hv
    induction hv with
    | root => exact ⟨.root, .inl rfl⟩
    | child _ hchild ih =>
        obtain ⟨hchild, hk⟩ := restrict_child.mp hchild
        exact ⟨.child ih.1 hchild, .inr hk⟩
  · rintro ⟨hv, hk⟩
    induction hv with
    | root => exact .root
    | @child u v p a hu hchild ih =>
        have hlive := h.spells_live hu
        have hk : keep v = true := hk.resolve_left fun hroot =>
          h.root_notMem (hroot ▸ (h.child u a v hlive hchild).1)
        exact .child (ih (hkeep u a v hlive hchild hk)) (restrict_child.mpr ⟨hchild, hk⟩)

end Restrict

variable [DecidableEq α]

/-- The node `w` is reached from `v` by going down. -/
def Below (t : Nat → Node α β) (v w : Nat) : Prop :=
  Relation.ReflTransGen (fun u w => ∃ a, (t u).child a = some w) v w

namespace Wf

variable {v : Nat}

theorem below_live (h : Wf t root live) {w : Nat} (hv : v = root ∨ v ∈ live)
    (hw : Below t v w) : w = root ∨ w ∈ live := by
  induction hw with
  | refl => exact hv
  | tail _ hchild ih =>
      obtain ⟨a, hchild⟩ := hchild
      exact .inr (h.child _ _ _ ih hchild).1

theorem below_of_chain (h : Wf t root live) {w : Nat} {l : List Nat} (hl : Chain t root w l)
    (hw : w = root ∨ w ∈ live) (hv : v = root ∨ v ∈ l) : Below t v w := by
  induction hl with
  | root =>
      rcases hv with rfl | hv
      · exact .refl
      · cases hv
  | @node w u l hne hparent _ ih =>
      obtain ⟨u', a, hu, hparent', hchild⟩ := h.parent w (hw.resolve_left hne)
      obtain rfl := Option.some.inj (hparent.symm.trans hparent')
      by_cases hvw : v = w
      · rw [hvw]
        exact .refl
      · exact .tail (ih hu (hv.imp_right fun hmem => List.mem_of_ne_of_mem hvw hmem)) ⟨a, hchild⟩

theorem below_root_iff (h : Wf t root live) : Below t root v ↔ v = root ∨ v ∈ live := by
  refine ⟨h.below_live (.inl rfl), fun hv => ?_⟩
  obtain ⟨l, hl⟩ := h.exists_chain hv
  exact h.below_of_chain hl hv (.inl rfl)

/-- A property that passes on to the children, and holds of some node, holds of a leaf. -/
theorem exists_leaf (h : Wf t root live) {P : Nat → Prop} [DecidablePred P]
    (hP : ∀ u ∈ live, P u → ∀ a w, (t u).child a = some w → P w) (hv : v ∈ live)
    (hPv : P v) : ∃ x ∈ live, P x ∧ ∀ a, (t x).child a = none := by
  have hchain : ∀ v, ∃ l, v ∈ live → Chain t root v l := fun v => by
    by_cases hv : v ∈ live
    · obtain ⟨l, hl⟩ := h.chain v hv
      exact ⟨l, fun _ => hl⟩
    · exact ⟨[], fun hmem => absurd hmem hv⟩
  choose chain hchain using hchain
  obtain ⟨x, hx, hmax⟩ := (live.filter P).exists_max_image (fun v => (chain v).length)
    ⟨v, Finset.mem_filter.mpr ⟨hv, hPv⟩⟩
  obtain ⟨hxlive, hPx⟩ := Finset.mem_filter.mp hx
  refine ⟨x, hxlive, hPx, fun a => ?_⟩
  by_contra hne
  obtain ⟨w, hw⟩ := Option.ne_none_iff_exists'.mp hne
  obtain ⟨hwlive, hparent, _⟩ := h.child x a w (.inr hxlive) hw
  have hwroot : w ≠ root := fun heq => h.root_notMem (heq ▸ hwlive)
  -- the child is deeper
  have hlonger : chain w = w :: chain x :=
    (hchain w hwlive).unique (.node hwroot hparent (hchain x hxlive))
  have hdeep := hmax w (Finset.mem_filter.mpr ⟨hwlive, hP x hxlive hPx a w hw⟩)
  rw [hlonger, List.length_cons] at hdeep
  omega

theorem under_iff_below (h : Wf t root live) {w : Nat} (hv : v ∈ live)
    (hw : w = root ∨ w ∈ live) : Under t root v w ↔ Below t v w := by
  constructor
  · rintro ⟨l, hl, hmem⟩
    exact h.below_of_chain hl hw (.inr hmem)
  · intro hbelow
    induction hbelow with
    | refl =>
        obtain ⟨l, hl⟩ := h.chain v hv
        refine ⟨l, hl, ?_⟩
        cases hl with
        | root => exact absurd hv h.root_notMem
        | node => exact List.mem_cons_self
    | @tail u w hu hchild ih =>
        have hulive := h.below_live (.inr hv) hu
        obtain ⟨a, hchild⟩ := hchild
        obtain ⟨hwlive, hparent, _⟩ := h.child _ _ _ hulive hchild
        obtain ⟨l, hl, hmem⟩ := ih hulive
        have hne : w ≠ root := fun heq => h.root_notMem (heq ▸ hwlive)
        exact ⟨w :: l, .node hne hparent hl, List.mem_cons_of_mem _ hmem⟩

end Wf

/-- `new` takes over the first `n` symbols of `c`, a child of `u` under `a`; the rest of
the label of `c` begins with `a'`. -/
structure Split (t t' : Nat → Node α β) (root : Nat) (live : Finset Nat) (u c new n : Nat)
    (a a' : α) : Prop where
  parentLive : u = root ∨ u ∈ live
  edge : (t u).child a = some c
  fresh : new ≠ root ∧ new ∉ live
  pos : 0 < n
  head : ((t c).label.drop n).head? = some a'
  atParent : t' u = { t u with child := update (t u).child a (some new) }
  atNew : t' new = ⟨some u, update (fun _ => none) a' (some c), (t c).label.take n,
    (t c).vals.take n⟩
  atChild : t' c = ⟨some new, (t c).child, (t c).label.drop n, (t c).vals.drop n⟩
  other : ∀ v, v ≠ u → v ≠ new → v ≠ c → t' v = t v

namespace Split

variable {t t' : Nat → Node α β} {root : Nat} {live : Finset Nat} {u c new n : Nat} {a a' : α}
variable (hs : Split t t' root live u c new n a a') (h : Wf t root live)

include hs

variable {v : Nat} {p : List α}

theorem ne_new (hv : v = root ∨ v ∈ live) : v ≠ new := by
  rintro rfl
  rcases hv with hv | hv
  · exact hs.fresh.1 hv
  · exact hs.fresh.2 hv

theorem fields (hv : v ≠ new) (hvc : v ≠ c) : (t' v).parent = (t v).parent ∧
    (t' v).label = (t v).label ∧ (t' v).vals = (t v).vals := by
  by_cases hvu : v = u
  · subst hvu
    rw [hs.atParent]
    exact ⟨rfl, rfl, rfl⟩
  · rw [hs.other v hvu hv hvc]
    exact ⟨rfl, rfl, rfl⟩

theorem child_of_ne (hv : v ≠ new) {b : α} (hb : v ≠ u ∨ b ≠ a) :
    (t' v).child b = (t v).child b := by
  by_cases hvu : v = u
  · subst hvu
    rw [hs.atParent]
    exact update_of_ne (hb.resolve_left (fun hne => hne rfl)) _ _
  · by_cases hvc : v = c
    · subst hvc
      rw [hs.atChild]
    · rw [hs.other v hvu hv hvc]

include h

theorem chain {l : List Nat} (hl : Chain t root v l) (hv : v = root ∨ v ∈ live) :
    ∃ l', Chain t' root v l' ∧ ∀ w, w ∈ l' ↔ w ∈ l ∨ w = new ∧ c ∈ l := by
  obtain ⟨hc, hcu, _⟩ := h.child _ _ _ hs.parentLive hs.edge
  induction hl with
  | root => exact ⟨[], .root, by simp⟩
  | @node v p l hne hparent _ ih =>
      obtain ⟨p', b, hp', hparent', _⟩ := h.parent v (hv.resolve_left hne)
      rw [hparent] at hparent'
      obtain rfl := Option.some.inj hparent'
      obtain ⟨l', hl', hmem⟩ := ih hp'
      by_cases hvc : v = c
      · subst hvc
        rw [hcu] at hparent
        obtain rfl := Option.some.inj hparent
        refine ⟨v :: new :: l', .node hne (by rw [hs.atChild])
          (.node hs.fresh.1 (by rw [hs.atNew]) hl'), ?_⟩
        intro w
        simp only [List.mem_cons, hmem, true_or, and_true]
        tauto
      · refine ⟨v :: l', .node hne ?_ hl', ?_⟩
        · rw [(hs.fields (hs.ne_new hv) hvc).1, hparent]
        · intro w
          simp only [List.mem_cons, hmem, Ne.symm hvc, false_or]
          tauto

theorem wf : Wf t' root (insert new live) := by
  obtain ⟨hc, hcu, hca⟩ := h.child _ _ _ hs.parentLive hs.edge
  have hlive : ∀ {v : Nat}, v = root ∨ v ∈ live → v ≠ new := fun hv => hs.ne_new hv
  have hmono : ∀ {v : Nat}, v = root ∨ v ∈ live → v = root ∨ v ∈ insert new live := fun hv =>
    hv.imp_right (Finset.mem_insert_of_mem)
  have hkept : ∀ {v w : Nat} {b : α}, (v ≠ u ∨ b ≠ a) → v = root ∨ v ∈ live →
      (t v).child b = some w → w ∈ insert new live ∧ (t' w).parent = some v ∧
        (t' w).label.head? = some b := by
    intro v w b hb hv hw
    obtain ⟨hmem, hparent, hlabel⟩ := h.child _ _ _ hv hw
    have hwc : w ≠ c := by
      rintro rfl
      rcases hb with hb | hb
      · exact hb (Option.some.inj (hparent.symm.trans hcu))
      · exact hb (Option.some.inj (hlabel.symm.trans hca))
    obtain ⟨hp, hl, _⟩ := hs.fields (hlive (.inr hmem)) hwc
    exact ⟨Finset.mem_insert_of_mem hmem, hp.trans hparent, by rw [hl, hlabel]⟩
  refine ⟨?_, ?_, ?_, ?_, ?_⟩
  · rw [Finset.mem_insert, not_or]
    exact ⟨hs.fresh.1.symm, h.root_notMem⟩
  · intro x b v hx hb
    by_cases hxn : x = new
    · subst hxn
      rw [hs.atNew] at hb
      by_cases hba : b = a'
      · subst hba
        have hb : some c = some v := by simpa using hb
        obtain rfl := Option.some.inj hb
        exact ⟨Finset.mem_insert_of_mem hc, by rw [hs.atChild], by rw [hs.atChild]; exact hs.head⟩
      · simp [update_of_ne hba] at hb
    · have hx : x = root ∨ x ∈ live := hx.imp_right fun hmem =>
        Finset.mem_of_mem_insert_of_ne hmem hxn
      by_cases hsplit : x = u ∧ b = a
      · obtain ⟨rfl, rfl⟩ := hsplit
        rw [hs.atParent] at hb
        have hb : some new = some v := by simpa using hb
        obtain rfl := Option.some.inj hb
        refine ⟨Finset.mem_insert_self _ _, by rw [hs.atNew], ?_⟩
        rw [hs.atNew, List.head?_take, if_neg (Nat.ne_of_gt hs.pos), hca]
      · have hor : x ≠ u ∨ b ≠ a := by tauto
        rw [hs.child_of_ne hxn hor] at hb
        exact hkept hor hx hb
  · intro v hv
    rcases Finset.mem_insert.mp hv with rfl | hv
    · exact ⟨u, a, hmono hs.parentLive, by rw [hs.atNew], by rw [hs.atParent]; simp⟩
    · by_cases hvc : v = c
      · subst hvc
        refine ⟨new, a', .inr (Finset.mem_insert_self _ _), by rw [hs.atChild], ?_⟩
        rw [hs.atNew]
        simp
      · obtain ⟨x, b, hx, hparent, hb⟩ := h.parent v hv
        have hor : x ≠ u ∨ b ≠ a := by
          by_contra hcon
          rw [not_or, not_not, not_not] at hcon
          rw [hcon.1, hcon.2, hs.edge] at hb
          exact hvc (Option.some.inj hb).symm
        refine ⟨x, b, hmono hx, ?_, ?_⟩
        · rw [(hs.fields (hlive (.inr hv)) hvc).1, hparent]
        · rw [hs.child_of_ne (hlive hx) hor, hb]
  · intro v hv
    rcases Finset.mem_insert.mp hv with rfl | hv
    · obtain ⟨l, hl⟩ := h.exists_chain hs.parentLive
      obtain ⟨l', hl', _⟩ := hs.chain h hl hs.parentLive
      exact ⟨v :: l', .node hs.fresh.1 (by rw [hs.atNew]) hl'⟩
    · obtain ⟨l, hl⟩ := h.chain v hv
      obtain ⟨l', hl', _⟩ := hs.chain h hl (.inr hv)
      exact ⟨l', hl'⟩
  · intro v hv
    rcases Finset.mem_insert.mp hv with rfl | hv
    · rw [hs.atNew, List.length_take, List.length_take, h.vals c hc]
    · by_cases hvc : v = c
      · subst hvc
        rw [hs.atChild, List.length_drop, List.length_drop, h.vals v hv]
      · obtain ⟨_, hl, hv'⟩ := hs.fields (hlive (.inr hv)) hvc
        rw [hl, hv', h.vals v hv]

theorem spells (hv : Spells t root v p) : Spells t' root v p := by
  obtain ⟨hc, hcu, hca⟩ := h.child _ _ _ hs.parentLive hs.edge
  induction hv with
  | root => exact .root
  | @child x v p b hx hb ih =>
      have hxlive := h.spells_live hx
      obtain ⟨hv, hparent, hlabel⟩ := h.child _ _ _ hxlive hb
      by_cases hvc : v = c
      · subst hvc
        obtain rfl := Option.some.inj (hparent.symm.trans hcu)
        have hmid : Spells t' root new (p ++ (t' new).label) :=
          .child ih (show (t' x).child a = some new by rw [hs.atParent]; simp)
        have hend : Spells t' root v (p ++ (t' new).label ++ (t' v).label) :=
          .child hmid (show (t' new).child a' = some v by rw [hs.atNew]; simp)
        rw [hs.atNew, hs.atChild, List.append_assoc, List.take_append_drop] at hend
        exact hend
      · have hor : x ≠ u ∨ b ≠ a := by
          by_contra hcon
          rw [not_or, not_not, not_not] at hcon
          rw [hcon.1, hcon.2, hs.edge] at hb
          exact hvc (Option.some.inj hb).symm
        have hstep : Spells t' root v (p ++ (t' v).label) :=
          .child ih (by rw [hs.child_of_ne (hs.ne_new hxlive) hor]; exact hb)
        rwa [(hs.fields (hs.ne_new (.inr hv)) hvc).2.1] at hstep

theorem spells_iff (hv : v = root ∨ v ∈ live) : Spells t' root v p ↔ Spells t root v p := by
  constructor
  · intro hp
    obtain ⟨q, hq⟩ := h.exists_spells hv
    rw [(hs.wf h).spells_unique hp (hs.spells h hq)]
    exact hq
  · exact hs.spells h

theorem spells_new (hu : Spells t root u p) : Spells t' root new (p ++ (t c).label.take n) := by
  have hstep : Spells t' root new (p ++ (t' new).label) :=
    .child (hs.spells h hu) (show (t' u).child a = some new by rw [hs.atParent]; simp)
  rwa [hs.atNew] at hstep

omit h in
/-- A node of the tree other than `u` keeps its children, and `u` all but one. -/
theorem edge_of_ne {x : Nat} {b : α} (hx : x = root ∨ x ∈ live) (hv : (t x).child b = some v)
    (hvc : v ≠ c) : (t' x).child b = some v := by
  have hor : x ≠ u ∨ b ≠ a := by
    by_contra hcon
    rw [not_or, not_not, not_not] at hcon
    rw [hcon.1, hcon.2, hs.edge] at hv
    exact hvc (Option.some.inj hv).symm
  rwa [hs.child_of_ne (hs.ne_new hx) hor]

/-- The words that were read in `c` are read in `new` and in what is left of `c`. -/
theorem reads_iff {i : Nat} : Reads t' root p v i ↔
    (v = new ∧ i ≤ n ∧ Reads t root p c i) ∨ (v = c ∧ 0 < i ∧ Reads t root p c (n + i)) ∨
      (v ≠ new ∧ v ≠ c ∧ Reads t root p v i) := by
  obtain ⟨hc, hcu, hca⟩ := h.child _ _ _ hs.parentLive hs.edge
  have hn : n < (t c).label.length := by
    by_contra hle
    have hhead := hs.head
    rw [List.drop_eq_nil_of_le (by omega)] at hhead
    cases hhead
  obtain ⟨q, hq⟩ := h.exists_spells hs.parentLive
  have hnew : (t' u).child a = some new := by rw [hs.atParent]; simp
  have hchild : (t' new).child a' = some c := by rw [hs.atNew]; simp
  have hlabel : (t' new).label = (t c).label.take n := by rw [hs.atNew]
  have hrest : (t' c).label = (t c).label.drop n := by rw [hs.atChild]
  have htake : ∀ i, (t c).label.take n ++ ((t c).label.drop n).take i = (t c).label.take (n + i) :=
    fun i => List.take_add.symm
  constructor
  · intro hr
    obtain ⟨hpos, hle, x, b, r, hx, hv, rfl⟩ := (hs.wf h).reads_iff_spells.mp hr
    have hparent := ((hs.wf h).child _ _ _ ((hs.wf h).spells_live hx) hv).2.1
    by_cases hvn : v = new
    · subst hvn
      rw [hs.atNew] at hparent
      obtain rfl := Option.some.inj hparent
      rw [hlabel, List.length_take] at hle
      refine .inl ⟨rfl, by omega, h.reads_iff_spells.mpr ⟨hpos, by omega, u, a, r,
        (hs.spells_iff h hs.parentLive).mp hx, hs.edge, ?_⟩⟩
      rw [hlabel, List.take_take, Nat.min_eq_left (by omega)]
    · by_cases hvc : v = c
      · subst hvc
        rw [hs.atChild] at hparent
        obtain rfl := Option.some.inj hparent
        rw [hrest, List.length_drop] at hle
        refine .inr
          (.inl ⟨rfl, hpos, h.reads_iff_spells.mpr ⟨by omega, by omega, u, a, q, hq, hs.edge, ?_⟩⟩)
        rw [(hs.wf h).spells_unique hx (hs.spells_new h hq), hrest, List.append_assoc, htake]
      · have hxn : x ≠ new := by
          rintro rfl
          rw [hs.atNew] at hv
          by_cases hb : b = a'
          · subst hb
            exact hvc (by simpa using hv.symm)
          · simp [update_of_ne hb] at hv
        have hxlive : x = root ∨ x ∈ live := ((hs.wf h).spells_live hx).imp_right fun hmem =>
          Finset.mem_of_mem_insert_of_ne hmem hxn
        have hor : x ≠ u ∨ b ≠ a := by
          by_contra hcon
          rw [not_or, not_not, not_not] at hcon
          rw [hcon.1, hcon.2, hnew] at hv
          exact hvn (Option.some.inj hv).symm
        rw [hs.child_of_ne hxn hor] at hv
        rw [(hs.fields hvn hvc).2.1] at hle ⊢
        exact .inr (.inr ⟨hvn, hvc, h.reads_iff_spells.mpr
          ⟨hpos, hle, x, b, r, (hs.spells_iff h hxlive).mp hx, hv, rfl⟩⟩)
  · rintro (⟨rfl, hi, hr⟩ | ⟨rfl, hi, hr⟩ | ⟨hvn, hvc, hr⟩)
    · obtain ⟨hpos, _, x, b, r, hx, hv, rfl⟩ := h.reads_iff_spells.mp hr
      obtain rfl := Option.some.inj ((h.child _ _ _ (h.spells_live hx) hv).2.1.symm.trans hcu)
      refine (hs.wf h).reads_iff_spells.mpr ⟨hpos, ?_, x, a, r, hs.spells h hx, hnew, ?_⟩
      · rw [hlabel, List.length_take]
        omega
      · rw [hlabel, List.take_take, Nat.min_eq_left hi]
    · obtain ⟨_, hle, x, b, r, hx, hv, rfl⟩ := h.reads_iff_spells.mp hr
      obtain rfl := Option.some.inj ((h.child _ _ _ (h.spells_live hx) hv).2.1.symm.trans hcu)
      refine (hs.wf h).reads_iff_spells.mpr ⟨hi, ?_, new, a', _, hs.spells_new h hx, hchild, ?_⟩
      · rw [hrest, List.length_drop]
        omega
      · rw [hrest, List.append_assoc, htake]
    · obtain ⟨hpos, hle, x, b, r, hx, hv, rfl⟩ := h.reads_iff_spells.mp hr
      have hl := (hs.fields hvn hvc).2.1
      exact (hs.wf h).reads_iff_spells.mpr ⟨hpos, by rwa [hl], x, b, r, hs.spells h hx,
        hs.edge_of_ne (h.spells_live hx) hv hvc, by rw [hl]⟩

theorem entry_iff {b : β} : Entry t' root p b ↔ Entry t root p b := by
  have hc := (h.child _ _ _ hs.parentLive hs.edge).1
  constructor
  · rintro ⟨v, i, hr, hget⟩
    rcases (hs.reads_iff h).mp hr with ⟨rfl, hi, hr⟩ | ⟨rfl, hi, hr⟩ | ⟨hvn, hvc, hr⟩
    · rw [hs.atNew, List.getElem?_take, if_pos (Nat.lt_of_succ_le hi)] at hget
      exact ⟨c, i, hr, hget⟩
    · rw [hs.atChild, List.getElem?_drop] at hget
      exact ⟨v, n + i, hr, hget⟩
    · rw [(hs.fields hvn hvc).2.2] at hget
      exact ⟨v, i, hr, hget⟩
  · rintro ⟨v, i, hr, hget⟩
    by_cases hvc : v = c
    · subst hvc
      by_cases hi : i < n
      · refine ⟨new, i, (hs.reads_iff h).mpr (.inl ⟨rfl, hi, hr⟩), ?_⟩
        rw [hs.atNew, List.getElem?_take, if_pos hi, hget]
      · refine ⟨v, i - n, (hs.reads_iff h).mpr (.inr (.inl ⟨rfl, Nat.succ_pos _, ?_⟩)), ?_⟩
        · rwa [show n + (i - n + 1) = i + 1 by omega]
        · rw [hs.atChild, List.getElem?_drop]
          rwa [show n + (i - n) = i by omega]
    · have hvn := hs.ne_new (.inr (h.reads_live hr (.inl rfl)).1)
      refine ⟨v, i, (hs.reads_iff h).mpr (.inr (.inr ⟨hvn, hvc, hr⟩)), ?_⟩
      rw [(hs.fields hvn hvc).2.2, hget]

/-- The subtrees of old nodes stay, and `new` has the subtree of `c`. -/
theorem under_iff {w : Nat} (hw : w = root ∨ w ∈ live) :
    Under t' root v w ↔ Under t root v w ∨ v = new ∧ Under t root c w := by
  obtain ⟨l, hl⟩ := h.exists_chain hw
  obtain ⟨l', hl', hmem⟩ := hs.chain h hl hw
  rw [hl'.under_iff, hl.under_iff, hl.under_iff, hmem]

end Split

structure AddLeaf (t t' : Nat → Node α β) (root : Nat) (live : Finset Nat) (u new : Nat) (a : α)
    (label : List α) (vals : List β) : Prop where
  parentLive : u = root ∨ u ∈ live
  free : (t u).child a = none
  fresh : new ≠ root ∧ new ∉ live
  head : label.head? = some a
  length : vals.length = label.length
  atParent : t' u = { t u with child := update (t u).child a (some new) }
  atNew : t' new = ⟨some u, fun _ => none, label, vals⟩
  other : ∀ v, v ≠ u → v ≠ new → t' v = t v

namespace AddLeaf

variable {t t' : Nat → Node α β} {root : Nat} {live : Finset Nat} {u new : Nat} {a : α}
variable {label : List α} {vals : List β}
variable (hs : AddLeaf t t' root live u new a label vals) (h : Wf t root live)

include hs

variable {v : Nat}

theorem ne_new (hv : v = root ∨ v ∈ live) : v ≠ new := by
  rintro rfl
  rcases hv with hv | hv
  · exact hs.fresh.1 hv
  · exact hs.fresh.2 hv

theorem fields (hv : v ≠ new) : (t' v).parent = (t v).parent ∧
    (t' v).label = (t v).label ∧ (t' v).vals = (t v).vals := by
  by_cases hvu : v = u
  · subst hvu
    rw [hs.atParent]
    exact ⟨rfl, rfl, rfl⟩
  · rw [hs.other v hvu hv]
    exact ⟨rfl, rfl, rfl⟩

theorem child_iff {w : Nat} (hv : v ≠ new) {b : α} :
    (t' v).child b = some w ↔ (t v).child b = some w ∨ v = u ∧ b = a ∧ w = new := by
  by_cases hvu : v = u
  · subst hvu
    rw [hs.atParent]
    by_cases hb : b = a
    · subst hb
      simp [hs.free, eq_comm]
    · simp [hb]
  · rw [hs.other v hvu hv]
    simp [hvu]

include h

theorem chain {l : List Nat} (hl : Chain t root v l) (hv : v = root ∨ v ∈ live) :
    Chain t' root v l := by
  induction hl with
  | root => exact .root
  | @node v p l hne hparent _ ih =>
      obtain ⟨p', b, hp', hparent', _⟩ := h.parent v (hv.resolve_left hne)
      rw [hparent] at hparent'
      obtain rfl := Option.some.inj hparent'
      exact .node hne (by rw [(hs.fields (hs.ne_new hv)).1, hparent]) (ih hp')

theorem wf : Wf t' root (insert new live) := by
  have hmono : ∀ {v : Nat}, v = root ∨ v ∈ live → v = root ∨ v ∈ insert new live := fun hv =>
    hv.imp_right Finset.mem_insert_of_mem
  refine ⟨?_, ?_, ?_, ?_, ?_⟩
  · rw [Finset.mem_insert, not_or]
    exact ⟨hs.fresh.1.symm, h.root_notMem⟩
  · intro x b v hx hb
    by_cases hxn : x = new
    · rw [hxn, hs.atNew] at hb
      cases hb
    · have hx : x = root ∨ x ∈ live := hx.imp_right fun hmem =>
        Finset.mem_of_mem_insert_of_ne hmem hxn
      rcases (hs.child_iff hxn).mp hb with hb | ⟨rfl, rfl, rfl⟩
      · obtain ⟨hmem, hparent, hhead⟩ := h.child _ _ _ hx hb
        obtain ⟨hp, hl, _⟩ := hs.fields (hs.ne_new (.inr hmem))
        exact ⟨Finset.mem_insert_of_mem hmem, hp.trans hparent, by rw [hl, hhead]⟩
      · rw [hs.atNew]
        exact ⟨Finset.mem_insert_self _ _, rfl, hs.head⟩
  · intro v hv
    rcases Finset.mem_insert.mp hv with rfl | hv
    · exact ⟨u, a, hmono hs.parentLive, by rw [hs.atNew], by rw [hs.atParent]; simp⟩
    · obtain ⟨x, b, hx, hparent, hb⟩ := h.parent v hv
      exact ⟨x, b, hmono hx, by rw [(hs.fields (hs.ne_new (.inr hv))).1, hparent],
        (hs.child_iff (hs.ne_new hx)).mpr (.inl hb)⟩
  · intro v hv
    rcases Finset.mem_insert.mp hv with rfl | hv
    · obtain ⟨l, hl⟩ := h.exists_chain hs.parentLive
      exact ⟨v :: l, .node hs.fresh.1 (by rw [hs.atNew]) (hs.chain h hl hs.parentLive)⟩
    · obtain ⟨l, hl⟩ := h.chain v hv
      exact ⟨l, hs.chain h hl (.inr hv)⟩
  · intro v hv
    rcases Finset.mem_insert.mp hv with rfl | hv
    · rw [hs.atNew]
      exact hs.length
    · obtain ⟨_, hl, hval⟩ := hs.fields (hs.ne_new (.inr hv))
      rw [hl, hval, h.vals v hv]

theorem spells {p : List α} (hv : Spells t root v p) : Spells t' root v p := by
  induction hv with
  | root => exact .root
  | @child x v p b hx hb ih =>
      have hxlive := h.spells_live hx
      have hmem := (h.child _ _ _ hxlive hb).1
      have hstep : Spells t' root v (p ++ (t' v).label) :=
        .child ih ((hs.child_iff (hs.ne_new hxlive)).mpr (.inl hb))
      rwa [(hs.fields (hs.ne_new (.inr hmem))).2.1] at hstep

theorem spells_iff {p : List α} (hv : v = root ∨ v ∈ live) :
    Spells t' root v p ↔ Spells t root v p := by
  constructor
  · intro hp
    obtain ⟨q, hq⟩ := h.exists_spells hv
    rw [(hs.wf h).spells_unique hp (hs.spells h hq)]
    exact hq
  · exact hs.spells h

theorem spells_new {q : List α} (hq : Spells t root u q) : Spells t' root new (q ++ label) := by
  have hstep : Spells t' root new (q ++ (t' new).label) :=
    .child (hs.spells h hq) ((hs.child_iff (hs.ne_new hs.parentLive)).mpr (.inr ⟨rfl, rfl, rfl⟩))
  rwa [hs.atNew] at hstep

/-- What is read in the leaf is read behind the path of its parent. -/
theorem reads_iff {q p : List α} {i : Nat} (hq : Spells t root u q) :
    Reads t' root p v i ↔ Reads t root p v i ∨
      v = new ∧ 0 < i ∧ i ≤ label.length ∧ p = q ++ label.take i := by
  rw [(hs.wf h).reads_iff_spells, h.reads_iff_spells]
  constructor
  · rintro ⟨hpos, hle, x, b, q', hx, hv, rfl⟩
    have hxn : x ≠ new := by
      rintro rfl
      rw [hs.atNew] at hv
      cases hv
    have hxlive : x = root ∨ x ∈ live := ((hs.wf h).spells_live hx).imp_right fun hmem =>
      Finset.mem_of_mem_insert_of_ne hmem hxn
    have hx' := (hs.spells_iff h hxlive).mp hx
    rcases (hs.child_iff hxn).mp hv with hv | ⟨rfl, rfl, rfl⟩
    · have hl := (hs.fields (hs.ne_new (.inr (h.child _ _ _ hxlive hv).1))).2.1
      exact .inl ⟨hpos, hl ▸ hle, x, b, q', hx', hv, by rw [hl]⟩
    · rw [hs.atNew] at hle ⊢
      exact .inr ⟨rfl, hpos, hle, by rw [h.spells_unique hx' hq]⟩
  · rintro (⟨hpos, hle, x, b, q', hx, hv, rfl⟩ | ⟨rfl, hpos, hle, rfl⟩)
    · have hxlive := h.spells_live hx
      have hl := (hs.fields (hs.ne_new (.inr (h.child _ _ _ hxlive hv).1))).2.1
      exact ⟨hpos, hl ▸ hle, x, b, q', hs.spells h hx,
        (hs.child_iff (hs.ne_new hxlive)).mpr (.inl hv), by rw [hl]⟩
    · rw [hs.atNew]
      exact ⟨hpos, hle, u, a, q, hs.spells h hq,
        (hs.child_iff (hs.ne_new hs.parentLive)).mpr (.inr ⟨rfl, rfl, rfl⟩), rfl⟩

theorem not_reads {q : List α} {i j : Nat} (hq : Spells t root u q) (hpos : 0 < i) :
    ¬ Reads t root (q ++ label.take i) v j := by
  intro hr
  have hhead : (label.take i).head? = some a := by
    rw [List.head?_take, if_neg (by omega), hs.head]
  have hne : label.take i ≠ [] := fun hnil => by
    rw [hnil] at hhead
    cases hhead
  obtain ⟨b, w, hchild, hb⟩ := h.reads_head ((h.reads_append hq hne).mp hr) (h.spells_live hq)
  obtain rfl := Option.some.inj (hhead.symm.trans hb)
  rw [hs.free] at hchild
  cases hchild

/-- The tree stores the values of the leaf besides what it stored. -/
theorem entry_iff {q p : List α} {b : β} (hq : Spells t root u q) :
    Entry t' root p b ↔ Entry t root p b ∨
      ∃ i, p = q ++ label.take (i + 1) ∧ vals[i]? = some b := by
  constructor
  · rintro ⟨v, i, hr, hget⟩
    rcases (hs.reads_iff h hq).mp hr with hr | ⟨rfl, _, _, rfl⟩
    · have hv := (h.reads_live hr (.inl rfl)).1
      rw [(hs.fields (hs.ne_new (.inr hv))).2.2] at hget
      exact .inl ⟨v, i, hr, hget⟩
    · rw [hs.atNew] at hget
      exact .inr ⟨i, rfl, hget⟩
  · rintro (⟨v, i, hr, hget⟩ | ⟨i, rfl, hget⟩)
    · have hv := (h.reads_live hr (.inl rfl)).1
      refine ⟨v, i, (hs.reads_iff h hq).mpr (.inl hr), ?_⟩
      rw [(hs.fields (hs.ne_new (.inr hv))).2.2, hget]
    · have hlt := (List.getElem?_eq_some_iff.mp hget).1
      rw [hs.length] at hlt
      exact ⟨new, i, (hs.reads_iff h hq).mpr
        (.inr ⟨rfl, Nat.succ_pos i, hlt, rfl⟩), by rw [hs.atNew, hget]⟩

theorem under_iff {w : Nat} (hw : w = root ∨ w ∈ live) : Under t' root v w ↔ Under t root v w := by
  obtain ⟨l, hl⟩ := h.exists_chain hw
  rw [(hs.chain h hl hw).under_iff, hl.under_iff]

end AddLeaf

structure RemoveLeaf (t t' : Nat → Node α β) (root : Nat) (live : Finset Nat) (u x : Nat)
    (a : α) : Prop where
  parentLive : u = root ∨ u ∈ live
  edge : (t u).child a = some x
  leaf : ∀ b, (t x).child b = none
  atParent : t' u = { t u with child := update (t u).child a none }
  other : ∀ v, v ≠ u → t' v = t v

namespace RemoveLeaf

variable {t t' : Nat → Node α β} {root : Nat} {live : Finset Nat} {u x : Nat} {a : α}
variable (hs : RemoveLeaf t t' root live u x a) (h : Wf t root live)

include hs

theorem fields (v : Nat) : (t' v).parent = (t v).parent ∧
    (t' v).label = (t v).label ∧ (t' v).vals = (t v).vals := by
  by_cases hvu : v = u
  · subst hvu
    rw [hs.atParent]
    exact ⟨rfl, rfl, rfl⟩
  · rw [hs.other v hvu]
    exact ⟨rfl, rfl, rfl⟩

variable {v : Nat}

theorem chain {l : List Nat} (hl : Chain t root v l) : Chain t' root v l := by
  induction hl with
  | root => exact .root
  | node hne hparent _ ih => exact .node hne (by rw [(hs.fields _).1, hparent]) ih

theorem ne_of_child {w : Nat} {b : α} (hw : (t v).child b = some w) : v ≠ x := by
  rintro rfl
  rw [hs.leaf] at hw
  cases hw

include h

theorem child_iff {w : Nat} {b : α} (hv : v = root ∨ v ∈ live) :
    (t' v).child b = some w ↔ (t v).child b = some w ∧ w ≠ x := by
  obtain ⟨hx, hxu, hxa⟩ := h.child _ _ _ hs.parentLive hs.edge
  by_cases hvu : v = u
  · subst hvu
    rw [hs.atParent]
    by_cases hb : b = a
    · subst hb
      simp [hs.edge]
      exact fun heq => heq.symm
    · simp only [update_of_ne hb]
      refine ⟨fun hw => ⟨hw, ?_⟩, fun hw => hw.1⟩
      rintro rfl
      exact hb (Option.some.inj ((h.child _ _ _ hv hw).2.2.symm.trans hxa))
  · rw [hs.other v hvu]
    refine ⟨fun hw => ⟨hw, ?_⟩, fun hw => hw.1⟩
    rintro rfl
    exact hvu (Option.some.inj ((h.child _ _ _ hv hw).2.1.symm.trans hxu))

theorem wf : Wf t' root (live.erase x) := by
  have hxroot : root ≠ x := fun heq =>
    h.root_notMem (heq ▸ (h.child _ _ _ hs.parentLive hs.edge).1)
  have hold : ∀ {v : Nat}, v = root ∨ v ∈ live.erase x → v = root ∨ v ∈ live := fun hv =>
    hv.imp_right Finset.mem_of_mem_erase
  refine ⟨fun hmem => h.root_notMem (Finset.mem_of_mem_erase hmem), ?_, ?_, ?_, ?_⟩
  · intro y b v hy hb
    obtain ⟨hb, hvx⟩ := (hs.child_iff h (hold hy)).mp hb
    obtain ⟨hmem, hparent, hhead⟩ := h.child _ _ _ (hold hy) hb
    obtain ⟨hp, hl, _⟩ := hs.fields v
    exact ⟨Finset.mem_erase_of_ne_of_mem hvx hmem, hp.trans hparent, by rw [hl, hhead]⟩
  · intro v hv
    obtain ⟨hvx, hv⟩ := Finset.mem_erase.mp hv
    obtain ⟨y, b, hy, hparent, hb⟩ := h.parent v hv
    refine ⟨y, b, ?_, by rw [(hs.fields v).1, hparent], (hs.child_iff h hy).mpr ⟨hb, hvx⟩⟩
    exact hy.imp_right (Finset.mem_erase_of_ne_of_mem (hs.ne_of_child hb))
  · intro v hv
    obtain ⟨l, hl⟩ := h.chain v (Finset.mem_of_mem_erase hv)
    exact ⟨l, hs.chain hl⟩
  · intro v hv
    obtain ⟨_, hl, hval⟩ := hs.fields v
    rw [hl, hval, h.vals v (Finset.mem_of_mem_erase hv)]

theorem spells_iff {p : List α} : Spells t' root v p ↔ Spells t root v p ∧ v ≠ x := by
  have hxroot : root ≠ x := fun heq =>
    h.root_notMem (heq ▸ (h.child _ _ _ hs.parentLive hs.edge).1)
  constructor
  · intro hv
    induction hv with
    | root => exact ⟨.root, hxroot⟩
    | @child y v p b hy hb ih =>
        obtain ⟨hb, hvx⟩ := (hs.child_iff h (h.spells_live ih.1)).mp hb
        rw [(hs.fields v).2.1]
        exact ⟨.child ih.1 hb, hvx⟩
  · rintro ⟨hv, hvx⟩
    induction hv with
    | root => exact .root
    | @child y v p b hy hb ih =>
        have hstep : Spells t' root v (p ++ (t' v).label) :=
          .child (ih (hs.ne_of_child hb)) ((hs.child_iff h (h.spells_live hy)).mpr ⟨hb, hvx⟩)
        rwa [(hs.fields v).2.1] at hstep

theorem reads_iff {p : List α} {i : Nat} : Reads t' root p v i ↔ Reads t root p v i ∧ v ≠ x := by
  rw [(hs.wf h).reads_iff_spells, h.reads_iff_spells, (hs.fields v).2.1]
  constructor
  · rintro ⟨hpos, hle, y, b, q, hy, hv, rfl⟩
    obtain ⟨hy, _⟩ := (hs.spells_iff h).mp hy
    obtain ⟨hv, hvx⟩ := (hs.child_iff h (h.spells_live hy)).mp hv
    exact ⟨⟨hpos, hle, y, b, q, hy, hv, rfl⟩, hvx⟩
  · rintro ⟨⟨hpos, hle, y, b, q, hy, hv, rfl⟩, hvx⟩
    exact ⟨hpos, hle, y, b, q, (hs.spells_iff h).mpr ⟨hy, hs.ne_of_child hv⟩,
      (hs.child_iff h (h.spells_live hy)).mpr ⟨hv, hvx⟩, rfl⟩

theorem under_iff {w : Nat} (hw : w = root ∨ w ∈ live) : Under t' root v w ↔ Under t root v w := by
  obtain ⟨l, hl⟩ := h.exists_chain hw
  rw [(hs.chain hl).under_iff, hl.under_iff]

end RemoveLeaf

end RadixTree

end SpecDecode
