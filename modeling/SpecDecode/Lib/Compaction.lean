import SpecDecode.Lib.Buffer

/-!
# Compaction by a launch

Program `i` of a launch stores a run of `len i` values, and where the runs of the programs
before it end is a sum that it computes on its own. The runs then lie one after the other from
the start of the buffer, whatever the order in which the programs are run.
-/

namespace SpecDecode.Buffer

variable {α : Type}

structure WritesFront (m m' : Nat → α) (l : List α) : Prop where
  written : (List.range l.length).map m' = l
  kept : ∀ x, l.length ≤ x → m' x = m x

theorem WritesFront.apply_map {m m' : Nat → α} {n i : Nat} {f : Nat → α}
    (h : WritesFront m m' ((List.range n).map f)) (hi : i < n) : m' i = f i := by
  have hwritten := h.written
  rw [List.length_map, List.length_range] at hwritten
  exact List.map_inj_left.mp hwritten i (List.mem_range.mpr hi)

theorem exists_window {len : Nat → Nat} {n x : Nat} (hx : x < offset len n) :
    ∃ i k, i < n ∧ k < len i ∧ x = offset len i + k := by
  induction n with
  | zero => exact absurd hx (Nat.not_lt_zero x)
  | succ n ih =>
      by_cases hn : x < offset len n
      · obtain ⟨i, k, hi, hk, rfl⟩ := ih hn
        exact ⟨i, k, Nat.lt_succ_of_lt hi, hk, rfl⟩
      · rw [offset_succ] at hx
        exact ⟨n, x - offset len n, Nat.lt_succ_self n, by omega, by omega⟩

theorem offset_add_le {len : Nat → Nat} {i j : Nat} (h : i < j) :
    offset len i + len i ≤ offset len j := by
  rw [← offset_succ]
  exact offset_mono len h

theorem offset_disjoint (len : Nat → Nat) {i j : Nat} (h : i ≠ j) :
    offset len i + len i ≤ offset len j ∨ offset len j + len j ≤ offset len i := by
  rcases Nat.lt_or_gt_of_ne h with hlt | hgt
  · exact Or.inl (offset_add_le hlt)
  · exact Or.inr (offset_add_le hgt)

theorem offset_add (f g : Nat → Nat) (n : Nat) :
    offset (fun i => f i + g i) n = offset f n + offset g n := by
  induction n with
  | zero => rfl
  | succ n ih =>
      rw [offset_succ, offset_succ, offset_succ, ih]
      omega

@[simp] theorem offset_const (c n : Nat) : offset (fun _ => c) n = n * c := by
  rw [offset, List.map_const', List.length_range, List.sum_replicate_nat]

theorem offset_div (f : Nat → Nat) {w b : Nat} (r : Nat) (hb : b ≤ w) :
    offset (fun z => f (z / w)) (r * w + b) = offset f r * w + b * f r := by
  have hgroup : ∀ r b, b ≤ w →
      offset (fun z => f (z / w)) (r * w + b) = offset (fun z => f (z / w)) (r * w) + b * f r := by
    intro r b hb
    induction b with
    | zero => rw [Nat.zero_mul, Nat.add_zero, Nat.add_zero]
    | succ b ih =>
        have hdiv : (r * w + b) / w = r := by
          rw [Nat.mul_comm, Nat.mul_add_div (by omega), Nat.div_eq_of_lt (by omega), Nat.add_zero]
        rw [← Nat.add_assoc, offset_succ, ih (by omega), hdiv, Nat.succ_mul, Nat.add_assoc]
  have hrows : ∀ r, offset (fun z => f (z / w)) (r * w) = offset f r * w := by
    intro r
    induction r with
    | zero => rw [Nat.zero_mul]; simp [offset]
    | succ r ih =>
        rw [Nat.succ_mul, hgroup r w (Nat.le_refl w), ih, offset_succ, Nat.add_mul,
          Nat.mul_comm w]
  rw [hgroup r b hb, hrows]

theorem length_windows (len : Nat → Nat) (f : Nat → Nat → α) (n : Nat) :
    ((List.range n).flatMap fun i => (List.range (len i)).map (f i)).length = offset len n := by
  simp [offset, List.length_flatMap]

theorem getElem?_runs (g : Nat → List α) {n i k : Nat} (hi : i < n) (hk : k < (g i).length) :
    ((List.range n).flatMap g)[offset (fun i => (g i).length) i + k]? = (g i)[k]? := by
  have hlength : ∀ n, ((List.range n).flatMap g).length = offset (fun i => (g i).length) n := by
    intro n
    rw [List.length_flatMap]
    rfl
  induction n with
  | zero => exact absurd hi (Nat.not_lt_zero i)
  | succ n ih =>
      rw [List.range_succ, List.flatMap_append, List.flatMap_singleton]
      rcases Nat.lt_succ_iff_lt_or_eq.mp hi with hlt | rfl
      · have hle : offset (fun i => (g i).length) i + (g i).length ≤
            offset (fun i => (g i).length) n := offset_add_le hlt
        rw [List.getElem?_append_left (by rw [hlength]; omega)]
        exact ih hlt
      · rw [List.getElem?_append_right (by rw [hlength]; omega), hlength, Nat.add_sub_cancel_left]

section Launch

variable {len : Nat → Nat} {n : Nat} {order : List Nat} (horder : order.Perm (List.range n))
  (f : Nat → Nat → α) (m : Nat → α)

include horder

theorem foldl_windows_apply {i k : Nat} (hi : i < n) (hk : k < len i) :
    order.foldl (fun m i => fill m (offset len i) (len i) (f i)) m (offset len i + k) = f i k :=
  foldl_fill_apply (fun _ _ _ _ hne => offset_disjoint len hne)
    (horder.mem_iff.mpr (List.mem_range.mpr hi)) hk m

theorem foldl_windows_outside {x : Nat} (hx : offset len n ≤ x) :
    order.foldl (fun m i => fill m (offset len i) (len i) (f i)) m x = m x := by
  refine foldl_fill_outside (fun i hi => Or.inr ?_) m
  exact Nat.le_trans (offset_add_le (List.mem_range.mp (horder.mem_iff.mp hi))) hx

theorem foldl_windows_order :
    order.foldl (fun m i => fill m (offset len i) (len i) (f i)) m =
      (List.range n).foldl (fun m i => fill m (offset len i) (len i) (f i)) m := by
  funext x
  by_cases hx : x < offset len n
  · obtain ⟨i, k, hi, hk, rfl⟩ := exists_window hx
    rw [foldl_windows_apply horder f m hi hk, foldl_windows_apply (List.Perm.refl _) f m hi hk]
  · have hle := Nat.le_of_not_lt hx
    rw [foldl_windows_outside horder f m hle, foldl_windows_outside (List.Perm.refl _) f m hle]

/-- The launch stores the runs one after the other and nothing else. -/
theorem writesFront_windows : WritesFront m
    (order.foldl (fun m i => fill m (offset len i) (len i) (f i)) m)
    ((List.range n).flatMap fun i => (List.range (len i)).map (f i)) where
  written := by
    rw [length_windows, foldl_windows_order horder]
    exact map_fill_windows len f m n
  kept := by
    intro x hx
    rw [length_windows] at hx
    exact foldl_windows_outside horder f m hx

theorem writesFront_cells (f : Nat → α) :
    WritesFront m (order.foldl (fun m i => Function.update m i (f i)) m)
      ((List.range n).map f) := by
  have hoffset : ∀ i, offset (fun _ => 1) i = i := fun i => by simp [offset]
  have hcell : ∀ (m : Nat → α) i,
      Function.update m i (f i) = fill m (offset (fun _ => 1) i) 1 fun _ => f i := by
    intro m i
    rw [fill_succ, fill_zero, Nat.add_zero, hoffset]
  have hlist : (List.range n).map f =
      (List.range n).flatMap fun i => (List.range 1).map fun _ => f i := by
    simp [List.map_eq_flatMap]
  simp only [hcell, hlist]
  exact writesFront_windows horder (fun i _ => f i) m

end Launch

end SpecDecode.Buffer
