import SpecDecode.Ngram.MaskRoundTrip
import Mathlib.Algebra.Order.BigOperators.Group.List
import Mathlib.Algebra.Order.Ring.Int
import Mathlib.Algebra.Order.Ring.Nat

/-!
# What the paths of a draft tree spell

Several anchors grow one tree, and a child that another anchor has made already is shared. All
the same, every path of the tree is one that some anchor can read in the index.
-/

namespace SpecDecode.Ngram

section Path

variable {t : DraftTree} {v w parent : Nat} {p q : List Int} {token : Int}

theorem Path.lt (h : t.Wf) (hp : Path t.next v p) : v < t.cursor := by
  cases hp with
  | root => exact h.pos
  | child _ hchild => exact (h.child hchild).2

theorem Path.unique (h : t.Wf) (hp : Path t.next v p) (hq : Path t.next v q) : p = q := by
  induction hp generalizing q with
  | root =>
      generalize hzero : 0 = u at hq
      cases hq with
      | root => rfl
      | child _ hchild => exact absurd (h.child hchild).1 (hzero ▸ Nat.not_lt_zero _)
  | child _ hchild ih =>
      cases hq with
      | root => exact absurd (h.child hchild).1 (Nat.not_lt_zero _)
      | child hq hchild' =>
          obtain ⟨rfl, rfl⟩ := h.unique hchild hchild'
          rw [ih hq]

theorem Path.findOrInsert (hp : Path t.next parent p) (token : Int) :
    Path (t.findOrInsert parent token).2.next (t.findOrInsert parent token).1 (p ++ [token]) ∧
      ∀ v q, Path t.next v q → Path (t.findOrInsert parent token).2.next v q := by
  unfold DraftTree.findOrInsert
  split
  · next pos hfound => exact ⟨.child hp (DraftTree.mem_of_lookup hfound), fun _ _ h => h⟩
  · have hold : ∀ v q, Path t.next v q → Path (Function.update t.next parent
        (t.next parent ++ [(token, t.cursor)])) v q := by
      intro v q hq
      induction hq with
      | root => exact .root
      | child _ hchild ih => exact .child ih (DraftTree.mem_update.mpr (.inl hchild))
    exact ⟨.child (hold _ _ hp) (DraftTree.mem_update.mpr (.inr ⟨rfl, rfl, rfl⟩)), hold⟩

theorem Path.of_findOrInsert (h : t.Wf) (hp : Path t.next parent p)
    (hq : Path (t.findOrInsert parent token).2.next v q) : Path t.next v q ∨ q = p ++ [token] := by
  unfold DraftTree.findOrInsert at hq
  split at hq
  · exact .inl hq
  · have hnew : Path t.next v q ∨ v = t.cursor ∧ q = p ++ [token] := by
      induction hq with
      | root => exact .inl .root
      | @child v c token' q _ hchild ih =>
          rcases DraftTree.mem_update.mp hchild with hchild | ⟨rfl, rfl, rfl⟩
          · rcases ih with hold | ⟨rfl, _⟩
            · exact .inl (.child hold hchild)
            · exact absurd (Nat.lt_trans (h.child hchild).1 (h.child hchild).2) (Nat.lt_irrefl _)
          · rcases ih with hold | ⟨heq, _⟩
            · exact .inr ⟨rfl, by rw [hold.unique h hp]⟩
            · exact absurd (hp.lt h) (heq ▸ Nat.lt_irrefl _)
    exact hnew.imp_right And.right

end Path

namespace DraftTree

variable {ν β : Type} {children : ν → List (Int × ν)} {draftTokenNum fuel : Nat}
variable {t t' : DraftTree} {reads : List Int → ν → Prop} {weight : ν → Nat}

/-- Every path of the tree is one that is read in the index. -/
def Sound (reads : List Int → ν → Prop) (t : DraftTree) : Prop :=
  ∀ v p, Path t.next v p → p ≠ [] → ∃ node, reads p node

structure Index (children : ν → List (Int × ν)) (reads : List Int → ν → Prop) (weight : ν → Nat) :
    Prop where
  child : ∀ p node token child, reads p node → (token, child) ∈ children node →
    reads (p ++ [token]) child
  weight : ∀ p node, reads p node →
    ((children node).map fun entry => weight entry.2).sum < weight node

/-- The paths down from a node, counted as far as `n` steps. -/
def weigh (kids : ν → List ν) : Nat → ν → Nat
  | 0, _ => 1
  | n + 1, node => ((kids node).map (weigh kids n)).sum + 1

section Weigh

variable {kids : ν → List ν} {live : ν → Prop} {rank : ν → Nat}
variable (hrank : ∀ node, live node → ∀ kid ∈ kids node, live kid ∧ rank kid < rank node)
include hrank

theorem weigh_eq {n : Nat} {node : ν} (hlive : live node) (hn : rank node ≤ n) :
    weigh kids n node = ((kids node).map fun kid => weigh kids (rank kid) kid).sum + 1 := by
  induction n using Nat.strong_induction_on generalizing node with
  | _ n ih =>
      have hleaf : rank node = 0 → kids node = [] := fun hzero =>
        List.eq_nil_iff_forall_not_mem.mpr fun kid hkid => by
          have hlt := (hrank node hlive kid hkid).2
          omega
      cases n with
      | zero =>
          rw [weigh, hleaf (Nat.le_zero.mp hn)]
          rfl
      | succ n =>
          rw [weigh]
          congr 2
          refine List.map_congr_left fun kid hkid => ?_
          obtain ⟨hkidlive, hlt⟩ := hrank node hlive kid hkid
          have hle : rank kid ≤ n := by omega
          rw [ih n (Nat.lt_succ_self n) hkidlive hle,
            ih (rank kid) (by omega) hkidlive (Nat.le_refl _)]

/-- Where the children are some of the kids, and those have smaller ranks, the work is bounded. -/
theorem Index.of_rank (hlive : ∀ p node, reads p node → live node)
    (hsub : ∀ node, live node → ((children node).map Prod.snd).Subperm (kids node))
    (hchild : ∀ p node token child, reads p node → (token, child) ∈ children node →
      reads (p ++ [token]) child) :
    Index children reads fun node => weigh kids (rank node) node where
  child := hchild
  weight p node hread := by
    have hnode := hlive p node hread
    rw [weigh_eq hrank hnode (Nat.le_refl _)]
    obtain ⟨l, hperm, hsublist⟩ := hsub node hnode
    have hle := (hsublist.map fun kid => weigh kids (rank kid) kid).sum_le_sum
      fun _ _ => Nat.zero_le _
    rw [(hperm.map _).sum_eq, List.map_map] at hle
    exact Nat.lt_succ_of_le hle

end Weigh

theorem sound_new : Sound reads new := by
  intro v p hp hne
  cases hp with
  | root => exact absurd rfl hne
  | child _ hchild => cases hchild

theorem Sound.findOrInsert (hs : Sound reads t) (h : t.Wf) {parent : Nat} {token : Int}
    {p : List Int} {child : ν} (hp : Path t.next parent p) (hread : reads (p ++ [token]) child) :
    Sound reads (t.findOrInsert parent token).2 := by
  intro v q hq hne
  rcases Path.of_findOrInsert h hp hq with hold | rfl
  · exact hs v q hold hne
  · exact ⟨child, hread⟩

/-- An entry of the queue: its node of the index reads the path of its node of the tree. -/
def Queued (reads : List Int → ν → Prop) (t : DraftTree) (e : Nat × β × ν) : Prop :=
  ∃ p, Path t.next e.1 p ∧ reads p e.2.2

def work (weight : ν → Nat) (queue : List (Nat × β × ν)) : Nat :=
  (queue.map fun e => weight e.2.2).sum

theorem expandRecency_spec (weight : ν → Nat) {score : β} {parent i : Nat} {nodes : List (Int × ν)}
    {queue : List (Nat × β × ν)} {p : List Int} (h : t.Wf) (hs : Sound reads t)
    (hqueue : ∀ e ∈ queue, Queued reads t e) (hp : Path t.next parent p)
    (hnodes : ∀ token child, (token, child) ∈ nodes → reads (p ++ [token]) child) :
    (expandRecency draftTokenNum parent score i nodes queue t).2.Wf ∧
      Sound reads (expandRecency draftTokenNum parent score i nodes queue t).2 ∧
      (∀ e ∈ (expandRecency draftTokenNum parent score i nodes queue t).1,
        Queued reads (expandRecency draftTokenNum parent score i nodes queue t).2 e) ∧
      work weight (expandRecency draftTokenNum parent score i nodes queue t).1 ≤
        work weight queue + (nodes.map fun entry => weight entry.2).sum := by
  induction nodes generalizing i queue t with
  | nil => cases i <;> exact ⟨h, hs, hqueue, Nat.le_add_right _ _⟩
  | cons node nodes ih =>
      cases i with
      | zero => exact ⟨h, hs, hqueue, Nat.le_add_right _ _⟩
      | succ i =>
          obtain ⟨token, child⟩ := node
          have hread := hnodes token child List.mem_cons_self
          simp only [expandRecency]
          split
          · obtain ⟨hpos, hold⟩ := hp.findOrInsert token
            have hqueue' : ∀ e ∈ queue ++ [((t.findOrInsert parent token).1, score, child)],
                Queued reads (t.findOrInsert parent token).2 e := by
              intro e he
              rcases List.mem_append.mp he with he | he
              · obtain ⟨q, hq, hqread⟩ := hqueue e he
                exact ⟨q, hold _ _ hq, hqread⟩
              · rw [List.mem_singleton.mp he]
                exact ⟨p ++ [token], hpos, hread⟩
            obtain ⟨hwf, hsound, hentries, hwork⟩ := ih (i := i) (h.findOrInsert (hp.lt h) token).1
              (hs.findOrInsert h hp hread) hqueue' (hold _ _ hp)
              fun token child hmem => hnodes token child (List.mem_cons_of_mem _ hmem)
            refine ⟨hwf, hsound, hentries, Nat.le_trans hwork ?_⟩
            simp only [work, List.map_append, List.map_cons, List.map_nil, List.sum_append,
              List.sum_cons, List.sum_nil]
            omega
          · exact ⟨h, hs, hqueue, Nat.le_add_right _ _⟩

section Recency

variable {breadth : β → Nat} {narrow : β → β}

theorem recencyLoop_spec (hi : Index children reads weight) {queue : List (Nat × β × ν)}
    (h : t.Wf) (hs : Sound reads t) (hqueue : ∀ e ∈ queue, Queued reads t e)
    (hfuel : work weight queue ≤ fuel) :
    ∃ t', recencyLoop children breadth narrow draftTokenNum fuel queue t = some t' ∧ t'.Wf ∧
      Sound reads t' := by
  induction fuel generalizing queue t with
  | zero =>
      cases queue with
      | nil => exact ⟨t, by simp [recencyLoop], h, hs⟩
      | cons e queue =>
          obtain ⟨p, _, hread⟩ := hqueue e List.mem_cons_self
          have hpos := hi.weight p e.2.2 hread
          simp only [work, List.map_cons, List.sum_cons] at hfuel
          omega
  | succ fuel ih =>
      cases queue with
      | nil => exact ⟨t, rfl, h, hs⟩
      | cons e queue =>
          obtain ⟨parent, score, node⟩ := e
          obtain ⟨p, hp, hread⟩ := hqueue _ List.mem_cons_self
          simp only [recencyLoop]
          split
          · obtain ⟨h', hs', hqueue', hwork⟩ := expandRecency_spec weight h hs
              (fun e he => hqueue e (List.mem_cons_of_mem _ he)) hp (hi.child p node · · hread)
            refine ih h' hs' hqueue' ?_
            have hlt := hi.weight p node hread
            simp only [work, List.map_cons, List.sum_cons] at hfuel
            exact Nat.le_of_lt_succ (Nat.lt_of_le_of_lt hwork (by unfold work; omega))
          · exact ⟨t, rfl, h, hs⟩

/-- The loops of all anchors end, and what they build is read from the anchors. -/
theorem buildRecency_spec (breadth : β → Nat) (narrow : β → β) (draftTokenNum : Nat)
    (hi : Index children reads weight) {anchors : List (β × ν)}
    (hanchors : ∀ a ∈ anchors, reads [] a.2 ∧ weight a.2 ≤ fuel) :
    ∃ t, buildRecency children breadth narrow draftTokenNum fuel anchors = some t ∧
      Sound reads t := by
  have hstep : ∀ anchor ∈ anchors, ∀ t : DraftTree, t.Wf ∧ Sound reads t →
      ∃ t', recencyLoop children breadth narrow draftTokenNum fuel [(0, anchor.1, anchor.2)] t =
        some t' ∧ t'.Wf ∧ Sound reads t' := by
    intro anchor hmem t ht
    obtain ⟨hread, hweight⟩ := hanchors anchor hmem
    refine recencyLoop_spec hi ht.1 ht.2 (fun e he => ?_) ?_
    · rw [List.mem_singleton.mp he]
      exact ⟨[], .root, hread⟩
    · simpa [work] using hweight
  obtain ⟨t, ht, _, hs⟩ := Launch.launch_ends hstep ⟨new_wf, sound_new⟩
  exact ⟨t, ht, hs⟩

end Recency

structure PriorityQueue (ε : Type) where
  pop : List ε → Option (ε × List ε)
  perm : ∀ {heap e rest}, pop heap = some (e, rest) → (e :: rest).Perm heap
  empty : ∀ {heap}, pop heap = none → heap = []

/-- An entry of the heap: its node of the index reads the path of a child of its node of the
tree. -/
def Heaped (reads : List Int → ν → Prop) (t : DraftTree) (e : Nat × Int × ν × β) : Prop :=
  ∃ p, Path t.next e.1 p ∧ reads (p ++ [e.2.1]) e.2.2.1

def heapWork (weight : ν → Nat) (heap : List (Nat × Int × ν × β)) : Nat :=
  (heap.map fun e => weight e.2.2.1).sum

section Frequency

variable (share : ν → ν → β → β) (queue : PriorityQueue (Nat × Int × ν × β))

theorem addToHeap_spec (hi : Index children reads weight) {heap : List (Nat × Int × ν × β)}
    (hheap : ∀ e ∈ heap, Heaped reads t e) {parent : Nat} {node : ν} {p : List Int}
    (hp : Path t.next parent p) (hread : reads p node) (prob : β) :
    (∀ e ∈ addToHeap children share parent node prob heap, Heaped reads t e) ∧
      heapWork weight (addToHeap children share parent node prob heap) <
        heapWork weight heap + weight node := by
  constructor
  · intro e he
    rcases List.mem_append.mp he with he | he
    · exact hheap e he
    · obtain ⟨⟨token, child⟩, hmem, rfl⟩ := List.mem_map.mp he
      exact ⟨p, hp, hi.child p node token child hread hmem⟩
  · have hlt := hi.weight p node hread
    simp only [heapWork, addToHeap, List.map_append, List.sum_append, List.map_map]
    exact Nat.add_lt_add_left hlt _

private theorem heapWork_pop {heap rest : List (Nat × Int × ν × β)} {e : Nat × Int × ν × β}
    (htop : queue.pop heap = some (e, rest)) :
    heapWork weight heap = weight e.2.2.1 + heapWork weight rest := by
  rw [heapWork, ← ((queue.perm htop).map _).sum_eq, List.map_cons, List.sum_cons]
  rfl

theorem frequencyLoop_spec (hi : Index children reads weight) {heap : List (Nat × Int × ν × β)}
    (h : t.Wf) (hs : Sound reads t) (hheap : ∀ e ∈ heap, Heaped reads t e)
    (hfuel : t.cursor ≤ draftTokenNum → heapWork weight heap ≤ fuel) :
    ∃ heap' t', frequencyLoop children share queue.pop draftTokenNum fuel heap t =
        some (heap', t') ∧ t'.Wf ∧ Sound reads t' ∧ (∀ e ∈ heap', Heaped reads t' e) ∧
      (t'.cursor ≤ draftTokenNum → heap' = []) := by
  induction fuel generalizing heap t with
  | zero =>
      unfold frequencyLoop
      by_cases hroom : t.cursor ≤ draftTokenNum
      · rw [if_pos hroom]
        cases htop : queue.pop heap with
        | none => exact ⟨heap, t, rfl, h, hs, hheap, fun _ => queue.empty htop⟩
        | some top =>
            obtain ⟨e, rest⟩ := top
            have hmem := (queue.perm htop).mem_iff.mp List.mem_cons_self
            obtain ⟨p, _, hread⟩ := hheap e hmem
            have hpos := hi.weight _ _ hread
            have hzero := hfuel hroom
            rw [heapWork_pop queue htop] at hzero
            omega
      · rw [if_neg hroom]
        exact ⟨heap, t, rfl, h, hs, hheap, fun hle => absurd hle hroom⟩
  | succ fuel ih =>
      unfold frequencyLoop
      by_cases hroom : t.cursor ≤ draftTokenNum
      · rw [if_pos hroom]
        cases htop : queue.pop heap with
        | none => exact ⟨heap, t, rfl, h, hs, hheap, fun _ => queue.empty htop⟩
        | some top =>
            obtain ⟨⟨parent, token, child, prob⟩, rest⟩ := top
            have hperm := queue.perm htop
            obtain ⟨p, hp, hread⟩ := hheap _ (hperm.mem_iff.mp List.mem_cons_self)
            obtain ⟨hpos, hold⟩ := hp.findOrInsert token
            have hrest : ∀ e ∈ rest, Heaped reads (t.findOrInsert parent token).2 e := by
              intro e he
              obtain ⟨q, hq, hqread⟩ := hheap e (hperm.mem_iff.mp (List.mem_cons_of_mem _ he))
              exact ⟨q, hold _ _ hq, hqread⟩
            obtain ⟨hheap', hwork⟩ := addToHeap_spec share hi hrest hpos hread prob
            have hle : heapWork weight
              (addToHeap children share (t.findOrInsert parent token).1 child
                prob rest) ≤ fuel := by
              have hzero := hfuel hroom
              rw [heapWork_pop queue htop] at hzero
              exact Nat.le_of_lt_succ (Nat.lt_of_lt_of_le hwork (by rw [Nat.add_comm]; exact hzero))
            exact ih (h.findOrInsert (hp.lt h) token).1 (hs.findOrInsert h hp hread) hheap'
              fun _ => hle
      · rw [if_neg hroom]
        exact ⟨heap, t, rfl, h, hs, hheap, fun hle => absurd hle hroom⟩

/-- The loops of all anchors end, and what they build is read from the anchors. -/
theorem buildFrequency_spec (draftTokenNum : Nat) (one : β) (hi : Index children reads weight)
    {anchors : List ν} (hanchors : ∀ a ∈ anchors, reads [] a ∧ weight a ≤ fuel) :
    ∃ t, buildFrequency children share queue.pop draftTokenNum fuel one anchors = some t ∧
      Sound reads t := by
  have hstep : ∀ anchor ∈ anchors, ∀ s : List (Nat × Int × ν × β) × DraftTree,
      (s.2.Wf ∧ Sound reads s.2 ∧ (∀ e ∈ s.1, Heaped reads s.2 e) ∧
        (s.2.cursor ≤ draftTokenNum → s.1 = [])) →
      ∃ s', frequencyLoop children share queue.pop draftTokenNum fuel
          (addToHeap children share 0 anchor one s.1) s.2 = some s' ∧ s'.2.Wf ∧ Sound reads s'.2 ∧
        (∀ e ∈ s'.1, Heaped reads s'.2 e) ∧ (s'.2.cursor ≤ draftTokenNum → s'.1 = []) := by
    rintro anchor hmem s ⟨h, hs, hheap, hempty⟩
    obtain ⟨hread, hweight⟩ := hanchors anchor hmem
    obtain ⟨hheap', hwork⟩ := addToHeap_spec share hi hheap .root hread one
    have hle : s.2.cursor ≤ draftTokenNum →
        heapWork weight (addToHeap children share 0 anchor one s.1) ≤ fuel := by
      intro hroom
      rw [hempty hroom] at hwork ⊢
      have hzero : heapWork weight ([] : List (Nat × Int × ν × β)) = 0 := rfl
      omega
    obtain ⟨heap', t', hloop, hrest⟩ := frequencyLoop_spec share queue hi h hs hheap' hle
    exact ⟨(heap', t'), hloop, hrest⟩
  obtain ⟨s, hs, hspec⟩ := Launch.launch_ends hstep (s := ([], new))
    ⟨new_wf, sound_new, fun e he => absurd he List.not_mem_nil, fun _ => rfl⟩
  have hfold : anchors.foldlM (fun (s : List (Nat × Int × ν × β) × DraftTree) node =>
      frequencyLoop children share queue.pop draftTokenNum fuel
        (addToHeap children share 0 node one s.1) s.2) ([], new) = some s := hs
  exact ⟨s.2, by rw [buildFrequency, hfold]; rfl, hspec.2.1⟩

end Frequency

/-- What a draft tree has to be: within the budget, without two siblings of one token, and with no
path but those that continue the context. -/
structure Drafts (t : DraftTree) (draftTokenNum : Nat) (continues : List Int → Prop) : Prop where
  wf : t.Wf
  budget : t.cursor ≤ draftTokenNum + 1
  siblings : ∀ v, ((t.next v).map Prod.fst).Nodup
  path : ∀ v p, Path t.next v p → p ≠ [] → continues p

theorem BuiltBy.drafts (h : BuiltBy (draftTokenNum + 1) t) (hs : Sound reads t)
    {continues : List Int → Prop} (hreads : ∀ p node, reads p node → continues p) :
    t.Drafts draftTokenNum continues where
  wf := h.fits.1
  budget := h.fits.2
  siblings := h.fits.1.keys
  path v p hp hne := by
    obtain ⟨node, hread⟩ := hs v p hp hne
    exact hreads p node hread

end DraftTree

end SpecDecode.Ngram
