import SpecDecode.Lib.WeightedOrder
import Mathlib.Algebra.BigOperators.Group.List.Basic
import Mathlib.Data.List.Induction
import Mathlib.Order.Lattice

/-!
# Sums along links

Every state but some roots has a link. `absorb` adds the value of a state to that of its link;
done for all states, each behind the states that link to it, it leaves at every state the sum
over the states from which links lead to it. The same holds for maxima.
-/

namespace SpecDecode.LinkSums

open Function WeightedOrder

variable {α β : Type}

theorem foldl_add (l : List α) (f : α → Nat) (b : Nat) :
    l.foldl (fun b u => b + f u) b = b + (l.map f).sum := by
  induction l generalizing b with
  | nil => rfl
  | cons u l ih => rw [List.foldl_cons, ih, List.map_cons, List.sum_cons, Nat.add_assoc]

theorem le_foldl_max [LinearOrder β] (l : List α) (f : α → β) (b c : β) :
    l.foldl (fun b u => max b (f u)) b ≤ c ↔ b ≤ c ∧ ∀ u ∈ l, f u ≤ c := by
  induction l generalizing b with
  | nil => simp
  | cons u l ih => simp [ih, and_assoc]

variable [DecidableEq α]

def absorb (link : α → Option α) (op : β → β → β) (value : α → β) (s : α) : α → β :=
  match link s with
  | none => value
  | some u => update value u (op (value u) (value s))

def linking (link : α → Option α) (order : List α) (v : α) : List α :=
  order.filter fun u => link u = some v

def Behind (link : α → Option α) (order : List α) : Prop :=
  order.Pairwise fun x y => link y ≠ some x

variable {link : α → Option α} {op : β → β → β} {order : List α} {value : α → β} {v : α}

/-- Each value is the first one with the values of the linking states added to it. -/
theorem foldl_absorb (horder : Behind link order) (hself : ∀ s ∈ order, link s ≠ some s) (v : α) :
    order.foldl (absorb link op) value v =
      (linking link order v).foldl
        (fun b u => op b (order.foldl (absorb link op) value u)) (value v) := by
  induction order using List.reverseRecOn generalizing v with
  | nil => rfl
  | append_singleton order s ih =>
      obtain ⟨hfront, _, hlast⟩ := List.pairwise_append.mp horder
      have ih := ih hfront fun u hu => hself u (List.mem_append_left _ hu)
      rw [List.foldl_append, List.foldl_cons, List.foldl_nil]
      cases hs : link s with
      | none =>
          have hlinking : linking link (order ++ [s]) v = linking link order v := by
            simp [linking, hs]
          rw [hlinking, absorb, hs]
          exact ih v
      | some t =>
          have hst : s ≠ t := fun heq => hself s (by simp) (heq ▸ hs)
          have habsorb : absorb link op (order.foldl (absorb link op) value) s =
              update (order.foldl (absorb link op) value) t
                (op (order.foldl (absorb link op) value t)
                  (order.foldl (absorb link op) value s)) := by
            rw [absorb, hs]
          -- the states in front are not touched any more
          have hsame : ∀ u ∈ linking link order v,
              absorb link op (order.foldl (absorb link op) value) s u =
                order.foldl (absorb link op) value u := by
            intro u hu
            have hut : u ≠ t := fun heq => hlast u (List.mem_filter.mp hu).1 s
              (List.mem_singleton_self s) (heq ▸ hs)
            rw [habsorb, update_of_ne hut]
          have hold : (linking link order v).foldl (fun b u =>
              op b (absorb link op (order.foldl (absorb link op) value) s u)) (value v) =
                order.foldl (absorb link op) value v := by
            rw [ih v]
            exact List.foldl_ext _ _ _ fun b u hu => by rw [hsame u hu]
          by_cases hvt : v = t
          · subst hvt
            have hlinking : linking link (order ++ [s]) v = linking link order v ++ [s] := by
              simp [linking, hs]
            rw [hlinking, List.foldl_append, List.foldl_cons, List.foldl_nil, hold, habsorb,
              update_self, update_of_ne hst]
          · have hlinking : linking link (order ++ [s]) v = linking link order v := by
              have hne : ¬ t = v := fun heq => hvt heq.symm
              simp [linking, hs, hne]
            rw [hlinking, hold, habsorb, update_of_ne hvt]

section Below

variable {all : α → Prop} {rank : α → Nat}

theorem linking_nodup (hnodup : order.Nodup) (v : α) : (linking link order v).Nodup :=
  hnodup.filter _

/-- The links of states of `order`, where they lead to smaller ranks, make a tree. -/
theorem ranked_linking (hnodup : order.Nodup) {depth : α → Nat} {bound : Nat}
    (hdepth : ∀ s ∈ order, depth s ≤ bound)
    (hlt : ∀ s ∈ order, ∀ u, link s = some u → u ∈ order ∧ depth u < depth s) :
    Ranked (linking link order) (· ∈ order) fun s => bound - depth s where
  closed _ hw := (List.mem_filter.mp hw).1
  lt {v w} _ hw := by
    obtain ⟨hmem, hlink⟩ := List.mem_filter.mp hw
    have hdeeper := (hlt w hmem v (by simpa using hlink)).2
    have hbound := hdepth w hmem
    omega
  nodup _ := linking_nodup hnodup _
  parent _ _ hw hw' := by
    have hlink := (List.mem_filter.mp hw).2
    have hlink' := (List.mem_filter.mp hw').2
    simp only [decide_eq_true_eq] at hlink hlink'
    exact Option.some.inj (hlink.symm.trans hlink')

theorem filter_eq_self_of_mem (hnodup : order.Nodup) (hv : v ∈ order) :
    order.filter (fun s => s = v) = [v] := by
  have heq : (fun s => decide (s = v)) = (· == v) := by
    funext s
    rw [Bool.beq_eq_decide_eq]
  rw [heq, List.filter_beq, List.count_eq_one_of_mem hnodup hv]
  rfl

theorem absorb_sum (h : Ranked (linking link order) (· ∈ order) rank) (hnodup : order.Nodup)
    (horder : Behind link order) (hself : ∀ s ∈ order, link s ≠ some s) {value : α → Nat}
    (hv : v ∈ order) :
    order.foldl (absorb link (· + ·)) value v =
      ((below (linking link order) id order v).map value).sum := by
  induction hn : rank v using Nat.strong_induction_on generalizing v with
  | _ n ih =>
      rw [foldl_absorb horder hself, foldl_add,
        ((below_perm h id order hv).map value).sum_eq, List.map_append, List.sum_append,
        Nat.add_comm]
      congr 1
      · rw [List.map_flatMap, List.flatMap_def, List.sum_flatten, List.map_map]
        refine congrArg List.sum (List.map_congr_left fun u hu => ?_)
        exact ih _ (hn ▸ h.lt hv hu) (h.closed hv hu) rfl
      · simp only [id_eq]
        rw [filter_eq_self_of_mem hnodup hv]
        simp

/-- With maxima, every state has the largest value of the states below. -/
theorem absorb_max_le [LinearOrder β] (h : Ranked (linking link order) (· ∈ order) rank)
    (horder : Behind link order) (hself : ∀ s ∈ order, link s ≠ some s) {value : α → β}
    (hv : v ∈ order) (c : β) : order.foldl (absorb link max) value v ≤ c ↔
      ∀ s ∈ order, Below (linking link order) v s → value s ≤ c := by
  induction hn : rank v using Nat.strong_induction_on generalizing v with
  | _ n ih =>
      rw [foldl_absorb horder hself, le_foldl_max]
      have hkids : (∀ u ∈ linking link order v, order.foldl (absorb link max) value u ≤ c) ↔
          ∀ u ∈ linking link order v, ∀ s ∈ order, Below (linking link order) u s → value s ≤ c :=
        forall₂_congr fun u hu => ih _ (hn ▸ h.lt hv hu) (h.closed hv hu) rfl
      rw [hkids]
      constructor
      · rintro ⟨hself, hrest⟩ s hs hbelow
        rcases (Ranked.below_iff v s).mp hbelow with rfl | ⟨u, hu, hbelow⟩
        · exact hself
        · exact hrest u hu s hs hbelow
      · exact fun hall => ⟨hall v hv .refl, fun u hu s hs hbelow => hall s hs (.head hu hbelow)⟩

end Below

end SpecDecode.LinkSums
