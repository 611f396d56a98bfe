import Mathlib.Data.Finset.Card
import Mathlib.Logic.Relation

/-!
# Depth first traversal with a stack

`collect kids` pops a node, puts its kids on the stack and goes on. In a tree it visits
every node below the first one, each once, as soon as the fuel covers their number.
-/

namespace SpecDecode.DepthFirst

variable {α : Type}

def collect (kids : α → List α) : Nat → List α → List α
  | 0, _ => []
  | _ + 1, [] => []
  | fuel + 1, v :: stack => v :: collect kids fuel ((kids v).reverse ++ stack)

structure Rooted (kids : α → List α) (root : α) (all : Finset α) : Prop where
  root_mem : root ∈ all
  closed {v w : α} : v ∈ all → w ∈ kids v → w ∈ all
  nodup {v : α} : v ∈ all → (kids v).Nodup
  parent {u v w : α} : u ∈ all → v ∈ all → w ∈ kids u → w ∈ kids v → u = v
  root_notMem {v : α} : v ∈ all → root ∉ kids v

structure Visiting (kids : α → List α) (root : α) (all : Finset α) (visited stack : List α) :
    Prop where
  nodup : (visited ++ stack).Nodup
  all_of_mem {w : α} : w ∈ visited ++ stack → w ∈ all
  reached {w : α} : w ∈ visited ++ stack → Relation.ReflTransGen (fun u w => w ∈ kids u) root w
  parent {w : α} : w ∈ visited ++ stack → w = root ∨ ∃ u ∈ visited, w ∈ kids u
  pushed {u w : α} : u ∈ visited → w ∈ kids u → w ∈ visited ++ stack

variable {kids : α → List α} {root : α} {all : Finset α} {visited stack : List α} {v : α}

theorem Visiting.step (h : Rooted kids root all)
    (hv : Visiting kids root all visited (v :: stack)) :
    Visiting kids root all (visited ++ [v]) ((kids v).reverse ++ stack) := by
  have hmem : v ∈ visited ++ v :: stack := List.mem_append_right _ List.mem_cons_self
  have hall := hv.all_of_mem hmem
  have hold {w : α} : w ∈ visited ++ [v] ++ ((kids v).reverse ++ stack) ↔
      w ∈ visited ++ v :: stack ∨ w ∈ kids v := by
    simp only [List.mem_append, List.mem_cons, List.mem_reverse, List.not_mem_nil, or_false]
    tauto
  -- a kid of `v` that was met before would have been pushed by `v`
  have hnew {w : α} (hw : w ∈ kids v) : w ∉ visited ++ v :: stack := by
    intro hmet
    rcases hv.parent hmet with rfl | ⟨u, hu, hkid⟩
    · exact h.root_notMem hall hw
    · have huv := h.parent (hv.all_of_mem (List.mem_append_left _ hu)) hall hkid hw
      subst huv
      exact (List.nodup_append.mp hv.nodup).2.2 u hu u List.mem_cons_self rfl
  refine ⟨?_, fun hw => ?_, fun hw => ?_, fun hw => ?_, fun {u w} hu hw => ?_⟩
  · have hperm : (visited ++ [v] ++ ((kids v).reverse ++ stack)).Perm
        (kids v ++ (visited ++ v :: stack)) := by
      have hswap : (visited ++ [v] ++ ((kids v).reverse ++ stack)).Perm
          ((kids v).reverse ++ (visited ++ [v]) ++ stack) := by
        rw [← List.append_assoc]
        exact .append_right _ List.perm_append_comm
      refine hswap.trans ?_
      rw [List.append_assoc, List.append_assoc]
      exact .append_right _ (List.reverse_perm _)
    refine hperm.nodup_iff.mpr (List.nodup_append.mpr ⟨h.nodup hall, hv.nodup, ?_⟩)
    rintro w hw _ hmet rfl
    exact hnew hw hmet
  · rcases hold.mp hw with hw | hw
    · exact hv.all_of_mem hw
    · exact h.closed hall hw
  · rcases hold.mp hw with hw | hw
    · exact hv.reached hw
    · exact (hv.reached hmem).tail hw
  · rcases hold.mp hw with hw | hw
    · rcases hv.parent hw with hroot | ⟨u, hu, hkid⟩
      · exact .inl hroot
      · exact .inr ⟨u, List.mem_append_left _ hu, hkid⟩
    · exact .inr ⟨v, List.mem_append_right _ List.mem_cons_self, hw⟩
  · rw [hold]
    rcases List.mem_append.mp hu with hu | hu
    · exact .inl (hv.pushed hu hw)
    · rw [List.mem_singleton.mp hu] at hw
      exact .inr hw

theorem Visiting.collect [DecidableEq α] (h : Rooted kids root all)
    (hv : Visiting kids root all visited stack) {fuel : Nat}
    (hfuel : all.card ≤ visited.length + fuel) :
    Visiting kids root all (visited ++ collect kids fuel stack) [] := by
  induction fuel generalizing visited stack with
  | zero =>
      have hlen : (visited ++ stack).length ≤ all.card := by
        rw [← List.toFinset_card_of_nodup hv.nodup]
        exact Finset.card_le_card fun w hw => hv.all_of_mem (List.mem_toFinset.mp hw)
      have hnil : stack = [] := by
        rw [List.length_append] at hlen
        exact List.length_eq_zero_iff.mp (by omega)
      rw [hnil] at hv
      simpa [DepthFirst.collect] using hv
  | succ fuel ih =>
      cases stack with
      | nil => simpa [DepthFirst.collect] using hv
      | cons v stack =>
          have hnext := ih (hv.step h) (by rw [List.length_append, List.length_singleton]; omega)
          rwa [List.append_assoc] at hnext

theorem collect_root [DecidableEq α] (h : Rooted kids root all) {fuel : Nat}
    (hfuel : all.card ≤ fuel) : (collect kids fuel [root]).Nodup ∧
      ∀ v, v ∈ collect kids fuel [root] ↔ Relation.ReflTransGen (fun u w => w ∈ kids u) root v := by
  have hstart : Visiting kids root all [] [root] := by
    refine ⟨List.nodup_singleton _, fun hw => ?_, fun hw => ?_, fun hw => ?_, nofun⟩
    · rw [List.mem_singleton.mp hw]
      exact h.root_mem
    · rw [List.mem_singleton.mp hw]
    · exact .inl (List.mem_singleton.mp hw)
  have hend : Visiting kids root all ([] ++ collect kids fuel [root]) [] :=
    hstart.collect h (by rw [List.length_nil]; omega)
  rw [List.nil_append] at hend
  have hnodup := hend.nodup
  rw [List.append_nil] at hnodup
  refine ⟨hnodup, fun v => ⟨fun hv => hend.reached (List.mem_append_left _ hv), fun hv => ?_⟩⟩
  induction hv with
  | refl =>
      cases fuel with
      | zero =>
          have hpos := Finset.card_pos.mpr ⟨root, h.root_mem⟩
          omega
      | succ fuel => exact List.mem_cons_self
  | tail _ hkid ih =>
      have hmem := hend.pushed ih hkid
      rwa [List.append_nil] at hmem

end SpecDecode.DepthFirst
