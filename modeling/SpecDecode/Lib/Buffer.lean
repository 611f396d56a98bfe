import Mathlib.Algebra.Order.Ring.Int
import Mathlib.Logic.Function.Basic
import Mathlib.Data.List.Induction
import Mathlib.Data.List.Nodup
import Mathlib.Tactic.Common

/-!
# Flat device buffers

A device buffer is a total function from element offsets to values. Kernels
address it by `base + i`, so a read past the end of one row sees the next row,
as it does on the device. A store is `update`; nothing here depends on
the element type.

`fill` is the contiguous store loop and `findFrom` the linear search loop of a
kernel. Both come with the one equation their callers use.
-/

namespace SpecDecode.Buffer

open Function

variable {α : Type}

/-- The window of a buffer that starts at `base`, re-indexed from zero. -/
def row (m : Nat → α) (base : Nat) : Nat → α := fun i => m (base + i)

@[simp] theorem row_apply (m : Nat → α) (base i : Nat) : row m base i = m (base + i) := rfl

@[simp] theorem row_update_self (m : Nat → α) (base i : Nat) (v : α) :
    row (update m (base + i) v) base = update (row m base) i v := by
  funext j
  by_cases h : j = i
  · subst h
    simp
  · rw [row_apply, update_of_ne (by omega), update_of_ne h, row_apply]

variable {i len base : Nat} {m f : Nat → α}

/-- A cell of the `b`-th window of `n` cells lies outside the `a`-th one. -/
theorem window_outside {n a b : Nat} (hi : i < n) (h : a ≠ b) :
    b * n + i < a * n ∨ a * n + n ≤ b * n + i := by
  rcases Nat.lt_or_gt_of_ne h with hab | hba
  · have := Nat.mul_le_mul_right n hab
    rw [Nat.succ_mul] at this
    omega
  · have := Nat.mul_le_mul_right n hba
    rw [Nat.succ_mul] at this
    omega

/-- The contiguous layout of a two-dimensional tensor with rows of width `w`. -/
def ofRows (w : Nat) (rows : Nat → List α) (default : α) : Nat → α :=
  fun x => (rows (x / w)).getD (x % w) default

theorem ofRows_apply {w : Nat} (rows : Nat → List α) (default : α) {b : Nat} (hi : i < w) :
    ofRows w rows default (b * w + i) = (rows b).getD i default := by
  have hdiv : (b * w + i) / w = b := by
    rw [Nat.mul_comm, Nat.mul_add_div (by omega), Nat.div_eq_of_lt hi, Nat.add_zero]
  have hmod : (b * w + i) % w = i := by
    rw [Nat.mul_comm, Nat.mul_add_mod, Nat.mod_eq_of_lt hi]
  rw [ofRows, hdiv, hmod]

/-- `for i < len: m[base + i] = f i`. -/
def fill (m : Nat → α) (base len : Nat) (f : Nat → α) : Nat → α :=
  (List.range len).foldl (fun m i => update m (base + i) (f i)) m

@[simp] theorem fill_zero (m : Nat → α) (base : Nat) (f : Nat → α) : fill m base 0 f = m := rfl

theorem ite_fill (p : Prop) [Decidable p] (m : Nat → α) (base : Nat) (f : Nat → α)
    (h : ¬ p → len = 0) : (if p then fill m base len f else m) = fill m base len f := by
  split
  · rfl
  · next hp => rw [h hp, fill_zero]

theorem fill_succ (m : Nat → α) (base len : Nat) (f : Nat → α) :
    fill m base (len + 1) f = update (fill m base len f) (base + len) (f len) := by
  simp [fill, List.range_succ]

theorem fill_apply (m : Nat → α) (base len : Nat) (f : Nat → α) (x : Nat) :
    fill m base len f x = if base ≤ x ∧ x < base + len then f (x - base) else m x := by
  induction len with
  | zero => rw [fill_zero, if_neg (by omega)]
  | succ len ih =>
      rw [fill_succ]
      by_cases hx : x = base + len
      · subst hx
        rw [update_self, if_pos (by omega), Nat.add_sub_cancel_left]
      · rw [update_of_ne hx, ih]
        by_cases hin : base ≤ x ∧ x < base + len
        · rw [if_pos hin, if_pos (by omega)]
        · rw [if_neg hin, if_neg (by omega)]

theorem fill_outside {x : Nat} (h : x < base ∨ base + len ≤ x) : fill m base len f x = m x := by
  rw [fill_apply, if_neg (by omega)]

theorem fill_inside (h : i < len) : fill m base len f (base + i) = f i := by
  rw [fill_apply, if_pos (by omega), Nat.add_sub_cancel_left]

theorem fill_congr {g : Nat → α} (h : ∀ i, i < len → f i = g i) :
    fill m base len f = fill m base len g := by
  funext x
  rw [fill_apply, fill_apply]
  split
  · exact h _ (by omega)
  · rfl

theorem fill_append {len' : Nat} {g h : Nat → α}
    (hf : ∀ i, i < len → h i = f i) (hg : ∀ i, i < len' → h (len + i) = g i) :
    fill (fill m base len f) (base + len) len' g = fill m base (len + len') h := by
  funext x
  simp only [fill_apply]
  by_cases hx : base + len ≤ x ∧ x < base + len + len'
  · rw [if_pos hx, if_pos (by omega), ← hg _ (by omega)]
    congr 1
    omega
  · rw [if_neg hx]
    by_cases hx' : base ≤ x ∧ x < base + len
    · rw [if_pos hx', if_pos (by omega), hf _ (by omega)]
    · rw [if_neg hx', if_neg (by omega)]

theorem fill_rows {w : Nat} (hw : 0 < w) (m : Nat → α) (base n : Nat) (g : Nat → Nat → α) :
    (List.range n).foldl (fun m k => fill m (base + k * w) w (g k)) m =
      fill m base (n * w) fun j => g (j / w) (j % w) := by
  induction n with
  | zero => rw [Nat.zero_mul, fill_zero]; rfl
  | succ n ih =>
      rw [List.range_succ, List.foldl_append, List.foldl_cons, List.foldl_nil, ih, Nat.succ_mul]
      refine fill_append (fun i _ => rfl) fun i hi => ?_
      rw [Nat.mul_comm, Nat.mul_add_div hw, Nat.mul_add_mod, Nat.div_eq_of_lt hi,
        Nat.mod_eq_of_lt hi, Nat.add_zero]

/-- The same, where a row reads cells that the loop does not write. -/
theorem fill_rows_read {w : Nat} (hw : 0 < w) (m : Nat → α) (base n : Nat)
    (g : (Nat → α) → Nat → Nat → α) (hg : ∀ m', (∀ x, x < base ∨ base + n * w ≤ x → m' x = m x) →
      ∀ k, k < n → g m' k = g m k) :
    (List.range n).foldl (fun m k => fill m (base + k * w) w (g m k)) m =
      fill m base (n * w) fun j => g m (j / w) (j % w) := by
  have hrows : ∀ k, k ≤ n → (List.range k).foldl (fun m k => fill m (base + k * w) w (g m k)) m =
      (List.range k).foldl (fun m' k => fill m' (base + k * w) w (g m k)) m := by
    intro k
    induction k with
    | zero => exact fun _ => rfl
    | succ k ih =>
        intro hk
        have hle := Nat.mul_le_mul_right w (Nat.le_of_succ_le hk)
        rw [List.range_succ, List.foldl_append, List.foldl_append, ih (by omega), List.foldl_cons,
          List.foldl_nil, List.foldl_cons, List.foldl_nil, fill_rows hw, hg _ _ k hk]
        exact fun x hx => fill_outside (by omega)
  rw [hrows n (Nat.le_refl n), fill_rows hw]

/-- The lanes of `n` blocks of width `w`, of which some are masked out. -/
theorem filterMap_range_mul (n w : Nat) (f : Nat → Option α) :
    ((List.range n).flatMap fun b => (List.range w).filterMap fun k => f (b * w + k)) =
      (List.range (n * w)).filterMap f := by
  induction n with
  | zero => simp
  | succ n ih =>
      rw [List.range_succ, List.flatMap_append, ih, Nat.succ_mul, List.range_add,
        List.filterMap_append, List.flatMap_singleton, List.filterMap_map]
      rfl

theorem map_range_mul (n w : Nat) (f : Nat → α) :
    ((List.range n).flatMap fun b => (List.range w).map fun k => f (b * w + k)) =
      (List.range (n * w)).map f := by
  simp only [← List.filterMap_eq_map]
  exact filterMap_range_mul n w (some ∘ f)

def offset (len : Nat → Nat) (n : Nat) : Nat := ((List.range n).map len).sum

@[simp]
theorem offset_succ (len : Nat → Nat) (n : Nat) : offset len (n + 1) = offset len n + len n := by
  simp [offset, List.range_succ]

theorem offset_mono (len : Nat → Nat) {m n : Nat} (h : m ≤ n) : offset len m ≤ offset len n := by
  induction h with
  | refl => exact Nat.le_refl _
  | step _ ih =>
      rw [offset_succ]
      exact Nat.le_trans ih (Nat.le_add_right _ _)

theorem sum_lanes (len : Nat → Nat) {lanes pid : Nat} (h : pid ≤ lanes) :
    ((List.range lanes).map fun lane => if lane < pid then len lane else 0).sum =
      offset len pid := by
  have hsum : ∀ n, ((List.range n).map fun lane => if lane < pid then len lane else 0).sum =
      offset len (min n pid) := by
    intro n
    induction n with
    | zero => simp [offset]
    | succ n ih =>
        rw [List.range_succ, List.map_append, List.sum_append, ih, List.map_singleton,
          List.sum_singleton]
        by_cases hn : n < pid
        · rw [if_pos hn, Nat.min_eq_left (by omega), Nat.min_eq_left (by omega), offset_succ]
        · rw [if_neg hn, Nat.min_eq_right (by omega), Nat.min_eq_right (by omega), Nat.add_zero]
  rw [hsum, Nat.min_eq_right h]

theorem map_fill_windows (len : Nat → Nat) (f : Nat → Nat → α) (m : Nat → α) (n : Nat) :
    (List.range (offset len n)).map
        ((List.range n).foldl (fun m i => fill m (offset len i) (len i) (f i)) m) =
      (List.range n).flatMap fun i => (List.range (len i)).map (f i) := by
  induction n with
  | zero => rfl
  | succ n ih =>
      rw [offset_succ, List.range_succ, List.foldl_append, List.foldl_cons, List.foldl_nil,
        List.flatMap_append, List.flatMap_singleton, ← ih, List.range_add, List.map_append,
        List.map_map]
      congr 1
      · refine List.map_congr_left fun x hx => fill_outside (Or.inl ?_)
        exact List.mem_range.mp hx
      · exact List.map_congr_left fun k hk => fill_inside (List.mem_range.mp hk)

/-- Windows that do not meet, filled in any order. -/
theorem foldl_fill_apply {ι : Type} {base len : ι → Nat} {f : ι → Nat → α} {tasks : List ι}
    (hdisjoint : ∀ p ∈ tasks, ∀ q ∈ tasks, p ≠ q →
      base p + len p ≤ base q ∨ base q + len q ≤ base p) {p : ι} (hp : p ∈ tasks)
    (hi : i < len p) (m : Nat → α) :
    tasks.foldl (fun m p => fill m (base p) (len p) (f p)) m (base p + i) = f p i := by
  induction tasks using List.reverseRecOn with
  | nil => cases hp
  | append_singleton tasks q ih =>
      rw [List.foldl_append, List.foldl_cons, List.foldl_nil]
      by_cases hpq : p = q
      · subst hpq
        exact fill_inside hi
      · have hmem : p ∈ tasks := by simpa [hpq] using hp
        have hne := hdisjoint p hp q (by simp) hpq
        rw [fill_outside (by omega)]
        exact ih (fun p hp q hq => hdisjoint p (List.mem_append_left _ hp) q
          (List.mem_append_left _ hq)) hmem

theorem foldl_fill_outside {ι : Type} {base len : ι → Nat} {f : ι → Nat → α} {tasks : List ι}
    {x : Nat} (hx : ∀ p ∈ tasks, x < base p ∨ base p + len p ≤ x) (m : Nat → α) :
    tasks.foldl (fun m p => fill m (base p) (len p) (f p)) m x = m x := by
  induction tasks generalizing m with
  | nil => rfl
  | cons p tasks ih =>
      rw [List.foldl_cons, ih fun q hq => hx q (List.mem_cons_of_mem _ hq)]
      exact fill_outside (hx p List.mem_cons_self)

/-- Programs that read and write their own rows of width `w` only. -/
theorem foldl_rows {F : (Nat → α) → Nat → Nat → α} {w : Nat}
    (hout : ∀ m b x, x < b * w ∨ b * w + w ≤ x → F m b x = m x)
    (hrow : ∀ m m' b, (∀ t, t < w → m (b * w + t) = m' (b * w + t)) →
      ∀ t, t < w → F m b (b * w + t) = F m' b (b * w + t))
    {tasks : List Nat} (hnodup : tasks.Nodup) (hi : i ∈ tasks) (m : Nat → α) {t : Nat}
    (ht : t < w) : tasks.foldl F m (i * w + t) = F m i (i * w + t) := by
  have hskip : ∀ (l : List Nat) (m : Nat → α), i ∉ l → ∀ t, t < w →
      l.foldl F m (i * w + t) = m (i * w + t) := by
    intro l
    induction l with
    | nil => exact fun m _ t _ => rfl
    | cons b l ih =>
        intro m hmem t ht
        rw [List.mem_cons, not_or] at hmem
        rw [List.foldl_cons, ih _ hmem.2 t ht]
        exact hout m b _ (window_outside ht (Ne.symm hmem.1))
  obtain ⟨pre, post, rfl⟩ := List.append_of_mem hi
  obtain ⟨-, hpost, hdisj⟩ := List.nodup_append'.mp hnodup
  have hpre : i ∉ pre := fun hmem => hdisj hmem List.mem_cons_self
  rw [List.foldl_append, List.foldl_cons, hskip post _ (List.nodup_cons.mp hpost).1 t ht]
  exact hrow _ m i (hskip pre m hpre) t ht

@[simp] theorem fill_fill (m m' : Nat → α) (base len : Nat) (f : Nat → α) :
    fill m base len (fill m' 0 len f) = fill m base len f := by
  refine fill_congr fun i hi => ?_
  have hcell : fill m' 0 len f (0 + i) = f i := fill_inside hi
  rwa [Nat.zero_add] at hcell

theorem fill_self (h : ∀ i, i < len → m (base + i) = f i) : fill m base len f = m := by
  funext x
  rw [fill_apply]
  split
  · rw [← h _ (by omega)]
    exact congrArg m (by omega)
  · rfl

theorem update_fill (m : Nat → α) (base : Nat) (f : Nat → α) (v : α) (hi : i < len) :
    update (fill m base len f) (base + i) v = fill m base len (update f i v) := by
  funext x
  by_cases hx : x = base + i
  · subst hx
    rw [update_self, fill_inside hi, update_self]
  · rw [update_of_ne hx, fill_apply, fill_apply]
    split
    · rw [update_of_ne (by omega)]
    · rfl

/-- A block of `lanes` stores, of which those below `limit` are made. -/
def maskedStore (m : Nat → α) (base lanes limit : Nat) (f : Nat → α) : Nat → α :=
  (List.range lanes).foldl (fun m i => if i < limit then update m (base + i) (f i) else m) m

theorem maskedStore_eq (m : Nat → α) (base lanes limit : Nat) (f : Nat → α) :
    maskedStore m base lanes limit f = fill m base (min lanes limit) f := by
  induction lanes with
  | zero => rw [Nat.zero_min, fill_zero]; rfl
  | succ lanes ih =>
      rw [maskedStore, List.range_succ, List.foldl_append, List.foldl_cons, List.foldl_nil,
        ← maskedStore, ih]
      split
      · rw [Nat.min_eq_left (by omega), Nat.min_eq_left (by omega), fill_succ]
      · rw [Nat.min_eq_right (by omega), Nat.min_eq_right (by omega)]

def blockedStore (m : Nat → α) (base blocks size limit : Nat) (f : Nat → α) : Nat → α :=
  (List.range blocks).foldl (fun m b =>
    maskedStore m (base + b * size) size (limit - b * size) fun i => f (b * size + i)) m

theorem blockedStore_eq (m : Nat → α) (base blocks size limit : Nat) (f : Nat → α) :
    blockedStore m base blocks size limit f = fill m base (min (blocks * size) limit) f := by
  induction blocks with
  | zero => rw [Nat.zero_mul, Nat.zero_min, fill_zero]; rfl
  | succ blocks ih =>
      rw [blockedStore, List.range_succ, List.foldl_append, List.foldl_cons, List.foldl_nil,
        ← blockedStore, ih, maskedStore_eq, Nat.succ_mul]
      by_cases hle : blocks * size ≤ limit
      · rw [Nat.min_eq_left hle, fill_append (fun i _ => rfl) (fun i _ => rfl)]
        congr 1
        omega
      · rw [Nat.sub_eq_zero_of_le (by omega), Nat.min_zero, fill_zero]
        congr 1
        omega

/-- A block of `lanes` stores, of which those from `lower` up to `limit` are made, the first of
them at `base`. -/
def windowStore (m : Nat → α) (base lanes lower limit : Nat) (f : Nat → α) : Nat → α :=
  (List.range lanes).foldl (fun m i =>
    if lower ≤ i ∧ i < limit then update m (base + (i - lower)) (f i) else m) m

theorem windowStore_eq (m : Nat → α) (base lanes lower limit : Nat) (f : Nat → α) :
    windowStore m base lanes lower limit f =
      fill m base (min lanes limit - lower) fun k => f (lower + k) := by
  induction lanes with
  | zero => rw [Nat.zero_min, Nat.zero_sub, fill_zero]; rfl
  | succ lanes ih =>
      rw [windowStore, List.range_succ, List.foldl_append, List.foldl_cons, List.foldl_nil,
        ← windowStore, ih]
      split
      · next hlane =>
          have hold : min lanes limit - lower = lanes - lower := by omega
          have hnew : min (lanes + 1) limit - lower = lanes - lower + 1 := by omega
          rw [hold, hnew, fill_succ, Nat.add_sub_cancel' hlane.1]
      · congr 1
        omega

section UpdateEach

variable {ι κ : Type} [DecidableEq ι] (key : κ → ι) (g : κ → α → α)

/-- `for k in ks: m[key k] = g k m[key k]`. -/
def updateEach (ks : List κ) (m : ι → α) : ι → α :=
  ks.foldl (fun m k => update m (key k) (g k (m (key k)))) m

theorem updateEach_cons (k : κ) (ks : List κ) (m : ι → α) : updateEach key g (k :: ks) m =
    updateEach key g ks (update m (key k) (g k (m (key k)))) := rfl

theorem updateEach_notMem {ks : List κ} {i : ι} (hi : i ∉ ks.map key) (m : ι → α) :
    updateEach key g ks m i = m i := by
  induction ks generalizing m with
  | nil => rfl
  | cons k ks ih =>
      rw [List.map_cons, List.mem_cons, not_or] at hi
      rw [updateEach_cons, ih hi.2, update_of_ne hi.1]

/-- A loop over distinct keys treats each cell once. -/
theorem updateEach_mem {ks : List κ} (hnodup : (ks.map key).Nodup) {k : κ} (hk : k ∈ ks)
    (m : ι → α) : updateEach key g ks m (key k) = g k (m (key k)) := by
  induction ks generalizing m with
  | nil => cases hk
  | cons k' ks ih =>
      rw [List.map_cons, List.nodup_cons] at hnodup
      rw [updateEach_cons]
      rcases List.mem_cons.mp hk with rfl | hk
      · rw [updateEach_notMem key g hnodup.1, update_self]
      · rw [ih hnodup.2 hk, update_of_ne]
        intro heq
        exact hnodup.1 (heq ▸ List.mem_map_of_mem hk)

end UpdateEach

/-- Linear search over `fuel` consecutive indices from `i`; the index past the
last one is the answer when none of them matches. -/
def findFrom (p : Nat → Bool) : Nat → Nat → Nat
  | 0, i => i
  | fuel + 1, i => if p i then i else findFrom p fuel (i + 1)

theorem le_findFrom (p : Nat → Bool) (fuel i : Nat) : i ≤ findFrom p fuel i := by
  induction fuel generalizing i with
  | zero => exact Nat.le_refl i
  | succ fuel ih =>
      rw [findFrom]
      split
      · exact Nat.le_refl i
      · exact Nat.le_of_succ_le (ih (i + 1))

theorem findFrom_eq {p : Nat → Bool} {fuel j : Nat} (hij : i ≤ j) (hj : j < i + fuel)
    (hp : p j = true) (hmin : ∀ q, i ≤ q → q < j → p q = false) : findFrom p fuel i = j := by
  induction fuel generalizing i with
  | zero => omega
  | succ fuel ih =>
      unfold findFrom
      rcases Nat.eq_or_lt_of_le hij with rfl | hlt
      · rw [if_pos hp]
      · rw [if_neg (by rw [hmin i (Nat.le_refl i) hlt]; decide)]
        exact ih hlt (by omega) (fun q hq hqj => hmin q (by omega) hqj)

end SpecDecode.Buffer
