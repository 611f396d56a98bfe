import SpecDecode.Gateway.TreeEvict
import SpecDecode.Gateway.TreeMatch

/-!
# Runs of the gateway's tree

Every run keeps the accounts of the tenants exact. The matches are longest in every run; the
tenant they report is a real one as long as no match writes a time back into a tree without
tenants, which would put the placeholder on the root.
-/

namespace SpecDecode.Gateway

open RadixTree

namespace Tree

variable {t t' : Tree} {live : Finset Nat} {u v w : Nat} {x y tenant : String} {o : Order}
variable {p q text : List Char} {epoch : Nat}

theorem new_inv : Tree.new.Inv ∅ := by
  have hchild {u : Nat} {c : Char} : (Tree.new.nodes u).children.lookup c = none :=
    AList.lookup_empty c
  have hcarries {v : Nat} {x : String} : ¬ Tree.new.Carries v x := AList.notMem_empty x
  refine ⟨⟨⟨Finset.notMem_empty _, fun u c v _ hc => ?_, by simp, by simp, by simp⟩, fun v hv => ?_,
    fun v _ => rfl, fun u c v x _ hc => ?_, by simp, fun v x hx => absurd hx hcarries, rfl, rfl⟩,
      fun x => ?_⟩
  · have hc : (Tree.new.nodes u).children.lookup c = some v := hc
    rw [hchild] at hc
    cases hc
  · rcases hv with rfl | hv
    · exact Nat.one_pos
    · exact absurd hv (Finset.notMem_empty _)
  · rw [hchild] at hc
    cases hc
  · rfl

theorem Inv.apply (h : t.Inv live) (op : TreeOp) : ∃ live', (t.apply op).Inv live' := by
  cases op with
  | insert text tenant epoch => exact (h.insert text tenant epoch).1.inv
  | prefixMatchWithCounts o text epoch =>
      obtain ⟨curr, hm⟩ := h.prefixMatchWithCounts o text epoch
      exact ⟨live, hm.inv h⟩
  | prefixMatchTenant text tenant epoch =>
    exact ⟨live, (h.prefixMatchTenant text tenant epoch).inv h⟩
  | evictTenantBySize o maxSize => exact (h.evictTenantBySize o maxSize).inv
  | removeTenant o tenant => exact (h.removeTenant o tenant).inv

theorem run_inv (ops : List TreeOp) : ∃ live, (Tree.new.run ops).Inv live := by
  have hrun (t : Tree) (h : ∃ live, t.Inv live) : ∃ live, (t.run ops).Inv live := by
    induction ops generalizing t with
    | nil => exact h
    | cons op ops ih =>
        obtain ⟨live, h⟩ := h
        exact ih (t.apply op) (h.apply op)
  exact hrun Tree.new ⟨∅, new_inv⟩

/-- The accounts of a tree: over the nodes reached from its root, the count of a tenant is the
number of characters on its nodes, and the cached numbers and the keys are right. -/
structure Accounted (t : Tree) : Prop where
  counted : ∃ all : Finset Nat, (∀ v, v ∈ all ↔ Below t.shape root v) ∧
    ∀ x, t.count x = ∑ v ∈ all, if t.containsKey v x then (t.nodes v).text.text.length else 0
  recomputed o x : ((t.getUsedSizePerTenant o).lookup x).getD 0 = t.count x
  ancestors u v x : Below t.shape root u → Below t.shape u v → t.Carries v x → t.Carries u x
  keyed u c v : Below t.shape root u → (t.nodes u).children.lookup c = some v →
    (t.nodes v).text.firstChar = some c ∧ (t.nodes v).text.text ≠ []
  charCount v : Below t.shape root v → (t.nodes v).text.charCount = (t.nodes v).text.text.length

theorem Inv.counts_accounted (h : t.Inv live) : t.Accounted := by
  have hmem (v : Nat) : v ∈ Insert.insert root live ↔ Below t.shape root v := by
    rw [Finset.mem_insert, h.wf.below_root_iff]
  refine ⟨⟨Insert.insert root live, hmem, fun x => ?_⟩, fun o x => ?_, fun u v x hu huv hx => ?_,
    fun u c v hu hc => ?_, fun v hv => ?_⟩
  · rw [Finset.sum_insert h.wf.root_notMem, h.rootText, List.length_nil, ite_self, Nat.zero_add,
      h.counted, used]
    refine Finset.sum_congr rfl fun v hv => ?_
    rw [weight, h.charCount v (.inr hv)]
  · rw [h.getUsedSizePerTenant, h.counted]
  · exact h.carries_of_below (h.wf.below_root_iff.mp hu) huv hx
  · obtain ⟨hv, _, hhead⟩ := h.child (h.wf.below_root_iff.mp hu) hc
    exact ⟨hhead, h.wf.label_ne_nil hv⟩
  · exact h.charCount v (h.wf.below_root_iff.mp hv)

/-- After every run the accounts are exact; evicting then leaves every tenant within the size,
and removing a tenant takes it off every node and leaves the texts of the others alone. -/
theorem accounting (ops : List TreeOp) :
    (Tree.new.run ops).Accounted ∧
    (∀ o maxSize x, ((Tree.new.run ops).evictTenantBySize o maxSize).count x ≤ maxSize) ∧
    ∀ o tenant, (∀ v, ¬ ((Tree.new.run ops).removeTenant o tenant).Carries v tenant) ∧
      ∀ y p, y ≠ tenant → (((Tree.new.run ops).removeTenant o tenant).Holds y p ↔
        (Tree.new.run ops).Holds y p) := by
  obtain ⟨live, h⟩ := run_inv ops
  refine ⟨h.counts_accounted, fun o maxSize => (h.evictTenantBySize o maxSize).count_le,
    fun o tenant => ?_⟩
  exact ⟨(h.removeTenant o tenant).not_carries, (h.removeTenant o tenant).holds⟩

/-- The tenants that were inserted and not removed since. -/
def enrol (tenants : List String) : TreeOp → List String
  | .insert _ tenant _ => tenant :: tenants
  | .prefixMatchWithCounts _ _ _ => tenants
  | .prefixMatchTenant _ _ _ => tenants
  | .evictTenantBySize _ _ => tenants
  | .removeTenant _ tenant => tenants.filter (· ≠ tenant)

def enrolled (ops : List TreeOp) : List String := ops.foldl enrol []

/-- A match with an epoch at which times are written back finds a tenant in the tree. -/
def OwnedWrite (tenants : List String) : TreeOp → Prop
  | .prefixMatchWithCounts _ _ epoch => epoch % 8 = 0 → tenants ≠ []
  | _ => True

/-- Every write-back of a run is into a tree with tenants. -/
def OwnedWrites : List String → List TreeOp → Prop
  | _, [] => True
  | tenants, op :: ops => OwnedWrite tenants op ∧ OwnedWrites (enrol tenants op) ops

structure Enrolled (t : Tree) (tenants : List String) : Prop where
  inv : ∃ live, t.Inv live
  root_iff x : t.Carries root x ↔ x ∈ tenants
  listed x : x ∈ tenants → x ∈ t.tenantCharCount

theorem Shape.holds_nil (h : t.Shape live) : t.Holds x [] ↔ t.Carries root x := by
  constructor
  · rintro ⟨v, q, hv, hx, _⟩
    exact h.carries_of_below (.inl rfl) (h.wf.below_root_iff.mpr (h.wf.spells_live hv)) hx
  · intro hx
    exact ⟨root, [], .root, hx, List.nil_prefix⟩

theorem Enrolled.apply {tenants : List String} {op : TreeOp} (h : t.Enrolled tenants)
    (hop : OwnedWrite tenants op) : (t.apply op).Enrolled (enrol tenants op) := by
  obtain ⟨⟨live, hinv⟩, hroot, hlisted⟩ := h
  cases op with
  | insert text tenant epoch =>
      obtain ⟨hs, hnew⟩ := hinv.insert text tenant epoch
      obtain ⟨live', hinv'⟩ := hs.inv
      refine ⟨⟨live', hinv'⟩, fun x => ?_, fun x hx => ?_⟩
      · rw [Tree.apply, ← hinv'.holds_nil, hs.holds, hinv.holds_nil, hroot, enrol,
          List.mem_cons, or_comm]
        simp
      · rcases List.mem_cons.mp hx with rfl | hx
        · exact hnew
        · exact hs.listed x (hlisted x hx)
  | prefixMatchWithCounts o text epoch =>
      obtain ⟨curr, hm⟩ := hinv.prefixMatchWithCounts o text epoch
      refine ⟨⟨live, hm.inv hinv⟩, fun x => ?_, fun x hx => ?_⟩
      · rw [Tree.apply, hm.carries, enrol, ← hroot]
        refine ⟨fun hor => ?_, .inl⟩
        rcases hor with hx | ⟨hepoch, rfl, rfl⟩
        · exact hx
        · -- the tree has a tenant, so what is written back is one of the root's
          refine hm.tenant.resolve_right fun hnone => hop hepoch ?_
          exact List.eq_nil_iff_forall_not_mem.mpr fun y hy => hnone.1 y ((hroot y).mpr hy)
      · rw [Tree.apply, hm.counts]
        exact hlisted x hx
  | prefixMatchTenant text tenant epoch =>
      have hm := hinv.prefixMatchTenant text tenant epoch
      refine ⟨⟨live, hm.inv hinv⟩, fun x => ?_, fun x hx => ?_⟩
      · rw [Tree.apply, hm.carries, hroot]
        rfl
      · rw [Tree.apply, hm.counts]
        exact hlisted x hx
  | evictTenantBySize o maxSize =>
      have hs := hinv.evictTenantBySize o maxSize
      obtain ⟨live', hinv'⟩ := hs.inv
      refine ⟨⟨live', hinv'⟩, fun x => ⟨fun hx => ?_, fun hx => ?_⟩, fun x hx => ?_⟩
      · exact (hroot x).mp (hinv.holds_nil.mp (hs.holds x [] (hinv'.holds_nil.mpr hx)))
      · exact hs.rootKept x (hlisted x hx) ((hroot x).mpr hx)
      · exact (hs.listed x).mpr (hlisted x hx)
  | removeTenant o tenant =>
      have hs := hinv.removeTenant o tenant
      obtain ⟨live', hinv'⟩ := hs.inv
      have hmem (x : String) : x ∈ enrol tenants (.removeTenant o tenant) ↔ x ∈ tenants ∧
          x ≠ tenant := by
        rw [enrol, List.mem_filter, decide_eq_true_iff]
      refine ⟨⟨live', hinv'⟩, fun x => ?_, fun x hx => ?_⟩
      · rw [hmem, ← hroot]
        by_cases hx : x = tenant
        · subst hx
          exact ⟨fun hcarries => absurd hcarries (hs.not_carries root), fun hne => absurd rfl hne.2⟩
        · rw [Tree.apply, ← hinv'.holds_nil, hs.holds x [] hx, hinv.holds_nil]
          exact ⟨fun hcarries => ⟨hcarries, hx⟩, fun hcarries => hcarries.1⟩
      · obtain ⟨hx, hne⟩ := (hmem x).mp hx
        exact (hs.listed x hne).mpr (hlisted x hx)

theorem Enrolled.run {tenants : List String} {ops : List TreeOp} (h : t.Enrolled tenants)
    (hops : OwnedWrites tenants ops) : (t.run ops).Enrolled (ops.foldl enrol tenants) := by
  induction ops generalizing t tenants with
  | nil => exact h
  | cons op ops ih => exact ih (h.apply hops.1) hops.2

theorem new_enrolled : Tree.new.Enrolled [] :=
  ⟨⟨∅, new_inv⟩, fun x => ⟨fun hx => absurd hx (AList.notMem_empty x), nofun⟩, nofun⟩

/-- `n` characters are the most that the root paths of the tree share with the text. -/
def LongestMatch (t : Tree) (text : List Char) (n : Nat) : Prop :=
  (∃ v p, Spells t.shape root v p ∧ commonPrefixLen p text = n) ∧
    ∀ v p, Spells t.shape root v p → commonPrefixLen p text ≤ n

/-- The longest beginning of the text that the tenant holds. -/
def LongestHeld (t : Tree) (tenant : String) (text matched : List Char) : Prop :=
  matched <+: text ∧ (matched = [] ∨ t.Holds tenant matched) ∧
    ∀ p, p <+: text → t.Holds tenant p → p <+: matched

/-- When every write-back of a run is into a tree with tenants, a match is the longest one, and its
tenant is enrolled and holds what was matched. -/
theorem matching_of_ownedWrites (ops : List TreeOp) (h : OwnedWrites [] ops) (o : Order)
    (text : List Char) (epoch : Nat) :
    (Tree.new.run ops).LongestMatch text
      ((Tree.new.run ops).prefixMatchWithCounts o text epoch).1.matchedCharCount ∧
    (enrolled ops ≠ [] →
      ((Tree.new.run ops).prefixMatchWithCounts o text epoch).1.tenant ∈ enrolled ops ∧
      (Tree.new.run ops).Holds ((Tree.new.run ops).prefixMatchWithCounts o text epoch).1.tenant
        (text.take ((Tree.new.run ops).prefixMatchWithCounts o text epoch).1.matchedCharCount)) ∧
    ∀ tenant, (Tree.new.run ops).LongestHeld tenant text
      ((Tree.new.run ops).prefixMatchTenant text tenant epoch).1 := by
  obtain ⟨⟨live, hinv⟩, hroot, -⟩ := new_enrolled.run h
  obtain ⟨curr, hm⟩ := hinv.prefixMatchWithCounts o text epoch
  refine ⟨⟨?_, fun v p hv => hm.longest.le v p hv (.inr trivial)⟩, fun hne => ?_, fun tenant => ?_⟩
  · obtain ⟨v, p, hv, _, hn⟩ := hm.longest.shared
    exact ⟨v, p, hv, hn⟩
  · obtain ⟨q, hq, hpath⟩ := hm.path
    have hcurr := hinv.wf.spells_live hq
    have htenant := hm.tenant.resolve_right fun hnone => hne <| by
      obtain rfl := hinv.root_of_empty hcurr hnone.1
      exact List.eq_nil_iff_forall_not_mem.mpr fun y hy => hnone.1 y ((hroot y).mpr hy)
    refine ⟨(hroot _).mp ?_, curr, q, hq, htenant, hpath⟩
    exact hinv.carries_of_below (.inl rfl) (hinv.wf.below_root_iff.mpr hcurr) htenant
  · have hs := hinv.prefixMatchTenant text tenant epoch
    exact ⟨hs.isPrefix, hs.holds, hs.longest⟩

def popFirst : List EvictionEntry → Option (EvictionEntry × List EvictionEntry)
  | [] => none
  | e :: pq =>
      match popFirst pq with
      | none => some (e, pq)
      | some (e', pq') => if e.timestamp ≤ e'.timestamp then some (e, pq) else some (e', e :: pq')

theorem popFirst_cons (e : EvictionEntry) (pq : List EvictionEntry) :
    ∃ e' pq', popFirst (e :: pq) = some (e', pq') ∧ (e :: pq).Perm (e' :: pq') ∧
      ∀ e'' ∈ pq', e'.timestamp ≤ e''.timestamp := by
  induction pq generalizing e with
  | nil => exact ⟨e, [], rfl, .refl _, nofun⟩
  | cons d pq ih =>
      obtain ⟨e', pq', hpop, hperm, hle⟩ := ih d
      by_cases he : e.timestamp ≤ e'.timestamp
      · refine ⟨e, d :: pq, by rw [popFirst, hpop]; exact if_pos he, .refl _, fun e'' hmem => ?_⟩
        rcases List.mem_cons.mp (hperm.mem_iff.mp hmem) with rfl | hmem
        · exact he
        · exact Nat.le_trans he (hle e'' hmem)
      · refine ⟨e', e :: pq', by rw [popFirst, hpop]; exact if_neg he, ?_, fun e'' hmem => ?_⟩
        · exact (hperm.cons e).trans (.swap _ _ _)
        · rcases List.mem_cons.mp hmem with rfl | hmem
          · omega
          · exact hle e'' hmem

/-- Maps iterated in the order of their entries. -/
def listOrder : Order where
  iter m := m.entries
  iter_perm _ := .refl _
  pop := popFirst
  pop_nil := rfl
  pop_cons := popFirst_cons

theorem matching_twoTenants :
    OwnedWrites [] [.insert ['a', 'b'] "t1" 0, .insert ['a', 'c'] "t2" 1] ∧
    ((Tree.new.run [.insert ['a', 'b'] "t1" 0, .insert ['a', 'c'] "t2" 1]).prefixMatchWithCounts
      listOrder ['a', 'c', 'd'] 8).1.tenant ∈ ["t2", "t1"] :=
  ⟨⟨trivial, trivial, trivial⟩,
    ((matching_of_ownedWrites [.insert ['a', 'b'] "t1" 0, .insert ['a', 'c'] "t2" 1]
      ⟨trivial, trivial, trivial⟩ listOrder ['a', 'c', 'd'] 8).2.1 (by decide)).1⟩

/-- A match on the empty tree at epoch `0` puts the placeholder on the root, and a later match
that ends there reports it although a tenant has been inserted. -/
theorem placeholder_reported :
    enrolled [.prefixMatchWithCounts listOrder [] 0, .insert ['a', 'b'] "t1" 1] = ["t1"] ∧
    (Tree.new.run [.prefixMatchWithCounts listOrder [] 0,
      .insert ['a', 'b'] "t1" 1]).Holds "t1" ['a', 'b'] ∧
    ((Tree.new.run [.prefixMatchWithCounts listOrder [] 0,
      .insert ['a', 'b'] "t1" 1]).prefixMatchWithCounts listOrder ['x'] 2).1.tenant = "empty" := by
  refine ⟨rfl, ⟨1, ['a', 'b'], ?_, containsKey_iff.mp (by decide), List.prefix_rfl⟩, by decide⟩
  exact .child (a := 'a') (p := []) .root (by decide)

end Tree

end SpecDecode.Gateway
