import SpecDecode.Lib.Buffer
import Mathlib.Data.List.Pairwise

/-!
# Workers that write windows back

A job replaces `len` cells of a shared memory. Its worker reads a window of the memory, changes
the first `len` cells of its copy and later writes `width` cells back, so it also stores the
old contents of the cells behind its own. The workers take their steps in any order.

`run_done` says when every schedule leaves each job's values and nothing else. When a job of
another worker lies behind the cells of a job, some schedule loses its store
(`exists_lost_store`), and a job longer than the window is cut (`run_cut`).
-/

namespace SpecDecode.WriteBack

open Function Buffer

variable {α : Type}

structure Job (α : Type) where
  base : Nat
  len : Nat
  value : Nat → α

namespace Job

variable (j : Job α)

def Covers (x : Nat) : Prop := j.base ≤ x ∧ x < j.base + j.len

instance (x : Nat) : Decidable (j.Covers x) := inferInstanceAs (Decidable (_ ∧ _))

/-- The cells behind them that are written back. -/
def Tail (width x : Nat) : Prop := j.base + j.len ≤ x ∧ x < j.base + width

def Reaches (width x : Nat) : Prop := j.base ≤ x ∧ x < j.base + min j.len width

/-- The write, from the copy of the window. -/
def store (width : Nat) (window mem : Nat → α) : Nat → α :=
  fill mem j.base width fun k => if k < j.len then j.value k else window k

end Job

structure Worker (α : Type) where
  todo : List (Job α)
  held : Option (Nat → α)

structure State (α : Type) where
  mem : Nat → α
  workers : Nat → Worker α

/-- The next step of worker `w`, if it has one. -/
def step (width : Nat) (s : State α) (w : Nat) : State α :=
  match (s.workers w).todo, (s.workers w).held with
  | [], _ => s
  | j :: js, none =>
      { s with workers := update s.workers w ⟨j :: js, some (row s.mem j.base)⟩ }
  | j :: js, some window =>
      ⟨j.store width window s.mem, update s.workers w ⟨js, none⟩⟩

/-- The workers step in the order of the schedule. -/
def run (width : Nat) (schedule : List Nat) (s : State α) : State α :=
  schedule.foldl (step width) s

/-- No worker has anything left to do. -/
def Done (s : State α) : Prop := ∀ w, (s.workers w).todo = []

/-- The state before the first step. -/
def start (jobs : Nat → List (Job α)) (mem : Nat → α) : State α :=
  ⟨mem, fun w => ⟨jobs w, none⟩⟩

section Steps

variable {width w : Nat} {s : State α} {j : Job α} {js : List (Job α)} {window : Nat → α}

theorem step_idle (h : (s.workers w).todo = []) : step width s w = s := by
  rw [step, h]

theorem step_read (htodo : (s.workers w).todo = j :: js) (hheld : (s.workers w).held = none) :
    step width s w =
      { s with workers := update s.workers w ⟨j :: js, some (row s.mem j.base)⟩ } := by
  rw [step, htodo, hheld]

theorem step_write (htodo : (s.workers w).todo = j :: js)
    (hheld : (s.workers w).held = some window) :
    step width s w = ⟨j.store width window s.mem, update s.workers w ⟨js, none⟩⟩ := by
  rw [step, htodo, hheld]

theorem step_workers_of_ne {w' : Nat} (h : w' ≠ w) :
    (step width s w).workers w' = s.workers w' := by
  rw [step]
  split
  · rfl
  · exact update_of_ne h _ _
  · exact update_of_ne h _ _

theorem run_append (width : Nat) (xs ys : List Nat) (s : State α) :
    run width (xs ++ ys) s = run width ys (run width xs s) := List.foldl_append

theorem run_cons (width w : Nat) (ws : List Nat) (s : State α) :
    run width (w :: ws) s = run width ws (step width s w) := rfl

end Steps

section Invariant

variable {width : Nat} {jobs : Nat → List (Job α)} {mem : Nat → α}

/-- The cells of two jobs have nothing in common. -/
def Disjoint (j j' : Job α) : Prop := ∀ x, j.Covers x → ¬ j'.Covers x

def storeAll (js : List (Job α)) (mem : Nat → α) : Nat → α :=
  js.foldl (fun m j => fill m j.base j.len j.value) mem

theorem storeAll_outside {js : List (Job α)} {x : Nat} (hx : ∀ j ∈ js, ¬ j.Covers x)
    (mem : Nat → α) : storeAll js mem x = mem x := by
  induction js generalizing mem with
  | nil => rfl
  | cons j js ih =>
      have hj : ¬ j.Covers x := hx j List.mem_cons_self
      change storeAll js (fill mem j.base j.len j.value) x = mem x
      rw [ih fun k hk => hx k (List.mem_cons_of_mem _ hk), fill_apply]
      exact if_neg hj

theorem storeAll_covers {js : List (Job α)} (hdisj : js.Pairwise Disjoint) {j : Job α}
    (hj : j ∈ js) {x : Nat} (hx : j.Covers x) (mem : Nat → α) :
    storeAll js mem x = j.value (x - j.base) := by
  induction js generalizing mem with
  | nil => cases hj
  | cons k js ih =>
      rw [List.pairwise_cons] at hdisj
      change storeAll js (fill mem k.base k.len k.value) x = _
      rcases List.mem_cons.mp hj with rfl | hj
      · rw [storeAll_outside fun k hk => fun h => hdisj.1 k hk x hx h, fill_apply]
        exact if_pos hx
      · exact ih hdisj.2 hj _

structure Compatible (width : Nat) (jobs : Nat → List (Job α)) : Prop where
  fits : ∀ w, ∀ j ∈ jobs w, j.len ≤ width
  disjoint : ∀ w, (jobs w).Pairwise Disjoint
  apart : ∀ w w', w ≠ w' → ∀ j ∈ jobs w, ∀ j' ∈ jobs w', Disjoint j j'
  behind : ∀ w w', w ≠ w' → ∀ j ∈ jobs w, ∀ j' ∈ jobs w', ∀ x, j.Tail width x → ¬ j'.Covers x

/-- After the jobs in `ended`: their values are stored, everything else is as before, and the
held windows are up to date behind the cells of their jobs. -/
structure Inv (width : Nat) (jobs : Nat → List (Job α)) (mem : Nat → α)
    (ended : Nat → List (Job α)) (s : State α) : Prop where
  split : ∀ w, jobs w = ended w ++ (s.workers w).todo
  stored : ∀ w, ∀ j ∈ ended w, ∀ x, j.Covers x → s.mem x = j.value (x - j.base)
  kept : ∀ x, (∀ w, ∀ j ∈ ended w, ¬ j.Covers x) → s.mem x = mem x
  current : ∀ w j js window, (s.workers w).todo = j :: js → (s.workers w).held = some window →
    ∀ x, j.Tail width x → window (x - j.base) = s.mem x

theorem inv_start : Inv width jobs mem (fun _ => []) (start jobs mem) where
  split _ := rfl
  stored _ _ h := absurd h List.not_mem_nil
  kept _ _ := rfl
  current _ _ _ _ _ h := by cases h

/-- With an up-to-date window a write changes the job's cells and nothing else. -/
theorem store_apply {j : Job α} {window m : Nat → α} (hfits : j.len ≤ width)
    (hcurrent : ∀ x, j.Tail width x → window (x - j.base) = m x) (x : Nat) :
    j.store width window m x = if j.Covers x then j.value (x - j.base) else m x := by
  rw [Job.store, fill_apply]
  by_cases hown : j.Covers x
  · obtain ⟨hlo, hhi⟩ := hown
    rw [if_pos ⟨hlo, by omega⟩, if_pos (by omega), if_pos ⟨hlo, hhi⟩]
  · rw [if_neg hown]
    split
    · next hin =>
        have hbehind : j.base + j.len ≤ x := Nat.le_of_not_lt fun hlt => hown ⟨hin.1, hlt⟩
        rw [if_neg (by omega)]
        exact hcurrent x ⟨hbehind, hin.2⟩
    · rfl

theorem step_inv (h : Compatible width jobs) {ended : Nat → List (Job α)} {s : State α}
    (inv : Inv width jobs mem ended s) (w : Nat) :
    ∃ ended', Inv width jobs mem ended' (step width s w) := by
  cases htodo : (s.workers w).todo with
  | nil =>
      rw [step_idle htodo]
      exact ⟨ended, inv⟩
  | cons j js =>
      cases hheld : (s.workers w).held with
      | none =>
          rw [step_read htodo hheld]
          refine ⟨ended, ?_, inv.stored, inv.kept, ?_⟩
          · intro w'
            by_cases hw : w' = w
            · subst hw
              dsimp only
              rw [inv.split, htodo, update_self]
            · dsimp only
              rw [inv.split, update_of_ne hw]
          · intro w' j' js' window htodo' hheld' x hx
            by_cases hw : w' = w
            · subst hw
              simp only [update_self, List.cons.injEq, Option.some.injEq] at htodo' hheld'
              obtain ⟨rfl, -⟩ := htodo'
              rw [← hheld', row_apply, Nat.add_sub_cancel'
                (Nat.le_trans (Nat.le_add_right _ _) hx.1)]
            · dsimp only at htodo' hheld'
              rw [update_of_ne hw] at htodo' hheld'
              exact inv.current w' j' js' window htodo' hheld' x hx
      | some window =>
          have hsplit := inv.split w
          rw [htodo] at hsplit
          have hj : j ∈ jobs w := hsplit ▸ List.mem_append_right _ List.mem_cons_self
          have happly := store_apply (h.fits w j hj) (inv.current w j js window htodo hheld)
          -- The jobs that have ended do not overlap with this one.
          have hother : ∀ w', ∀ j' ∈ ended w', Disjoint j' j := by
            intro w' j' hj'
            by_cases hw : w' = w
            · subst hw
              have hpair := h.disjoint w'
              rw [hsplit] at hpair
              exact (List.pairwise_append.mp hpair).2.2 j' hj' j List.mem_cons_self
            · exact h.apart w' w hw j' (inv.split w' ▸ List.mem_append_left _ hj') j hj
          rw [step_write htodo hheld]
          refine ⟨update ended w (ended w ++ [j]), ?_, ?_, ?_, ?_⟩
          · intro w'
            by_cases hw : w' = w
            · subst hw
              simp only [update_self, List.append_assoc, List.singleton_append]
              exact hsplit
            · dsimp only
              rw [update_of_ne hw, update_of_ne hw, inv.split]
          · intro w' j' hj' x hx
            dsimp only
            have hcases : j' ∈ ended w' ∨ j' = j := by
              by_cases hw : w' = w
              · subst hw
                rw [update_self] at hj'
                simpa using hj'
              · rw [update_of_ne hw] at hj'
                exact .inl hj'
            rw [happly]
            rcases hcases with hended | rfl
            · rw [if_neg (hother w' j' hended x hx)]
              exact inv.stored w' j' hended x hx
            · exact if_pos hx
          · intro x hx
            dsimp only
            have hself := hx w j (by simp)
            rw [happly, if_neg hself]
            refine inv.kept x fun w' j' hj' => hx w' j' ?_
            by_cases hw : w' = w
            · subst hw
              rw [update_self]
              exact List.mem_append_left _ hj'
            · rwa [update_of_ne hw]
          · intro w' j' js' window' htodo' hheld' x hx
            by_cases hw : w' = w
            · subst hw
              simp at hheld'
            · dsimp only at htodo' hheld' ⊢
              rw [update_of_ne hw] at htodo' hheld'
              have hj' : j' ∈ jobs w' := by
                rw [inv.split w', htodo']
                exact List.mem_append_right _ List.mem_cons_self
              rw [happly, if_neg (h.behind w' w hw j' hj' j hj x hx)]
              exact inv.current w' j' js' window' htodo' hheld' x hx

theorem run_inv (h : Compatible width jobs) (schedule : List Nat) {ended : Nat → List (Job α)}
    {s : State α} (inv : Inv width jobs mem ended s) :
    ∃ ended', Inv width jobs mem ended' (run width schedule s) := by
  induction schedule generalizing ended s with
  | nil => exact ⟨ended, inv⟩
  | cons w ws ih =>
      obtain ⟨ended', inv'⟩ := step_inv h inv w
      exact ih inv'

/-- Whatever the schedule, in the end each job's values are stored and nothing else changed. -/
theorem run_done (h : Compatible width jobs) (schedule : List Nat)
    (hdone : Done (run width schedule (start jobs mem))) :
    (∀ w, ∀ j ∈ jobs w, ∀ x, j.Covers x →
      (run width schedule (start jobs mem)).mem x = j.value (x - j.base)) ∧
    ∀ x, (∀ w, ∀ j ∈ jobs w, ¬ j.Covers x) →
      (run width schedule (start jobs mem)).mem x = mem x := by
  obtain ⟨ended, inv⟩ : ∃ ended, Inv width jobs mem ended (run width schedule (start jobs mem)) :=
    run_inv h schedule inv_start
  have hall : ∀ w, ended w = jobs w := by
    intro w
    have := inv.split w
    rw [hdone w, List.append_nil] at this
    exact this.symm
  exact ⟨fun w j hj => inv.stored w j (hall w ▸ hj),
    fun x hx => inv.kept x fun w j hj => hx w j (hall w ▸ hj)⟩

end Invariant

section Lost

variable {width x : Nat} {v : α}

/-- Cell `x` holds `v`, and so does every window that may be written over it. -/
structure Stale (x : Nat) (v : α) (s : State α) : Prop where
  mem : s.mem x = v
  held : ∀ w j js window, (s.workers w).todo = j :: js → (s.workers w).held = some window →
    j.base ≤ x → window (x - j.base) = v

theorem stale_start (jobs : Nat → List (Job α)) (mem : Nat → α) (x : Nat) :
    Stale x (mem x) (start jobs mem) where
  mem := rfl
  held _ _ _ _ _ h := by cases h

variable {s : State α} {w : Nat}

theorem Stale.step (h : Stale x v s)
    (hreach : ∀ j ∈ (s.workers w).todo, ¬ j.Reaches width x) : Stale x v (step width s w) := by
  cases htodo : (s.workers w).todo with
  | nil => rwa [step_idle htodo]
  | cons j js =>
      cases hheld : (s.workers w).held with
      | none =>
          rw [step_read htodo hheld]
          refine ⟨h.mem, fun w' j' js' window htodo' hheld' hbase => ?_⟩
          dsimp only at htodo' hheld'
          by_cases hw : w' = w
          · subst hw
            simp only [update_self, List.cons.injEq, Option.some.injEq] at htodo' hheld'
            obtain ⟨rfl, -⟩ := htodo'
            rw [← hheld', row_apply, Nat.add_sub_cancel' hbase]
            exact h.mem
          · rw [update_of_ne hw] at htodo' hheld'
            exact h.held w' j' js' window htodo' hheld' hbase
      | some window =>
          have hj := hreach j (htodo ▸ List.mem_cons_self)
          rw [step_write htodo hheld]
          refine ⟨?_, fun w' j' js' window' htodo' hheld' hbase => ?_⟩
          · change j.store width window s.mem x = v
            rw [Job.store, fill_apply]
            split
            · next hin =>
                have hlen : ¬ x - j.base < j.len := fun hlt => hj ⟨hin.1, by omega⟩
                rw [if_neg hlen]
                exact h.held w j js window htodo hheld hin.1
            · exact h.mem
          · dsimp only at htodo' hheld'
            by_cases hw : w' = w
            · subst hw
              simp at hheld'
            · rw [update_of_ne hw] at htodo' hheld'
              exact h.held w' j' js' window' htodo' hheld' hbase

theorem mem_todo_step {w' : Nat} {j : Job α}
    (h : j ∈ ((step width s w).workers w').todo) : j ∈ (s.workers w').todo := by
  by_cases hw : w' = w
  · subst hw
    cases htodo : (s.workers w').todo with
    | nil => rwa [step_idle htodo, htodo] at h
    | cons j' js =>
        cases hheld : (s.workers w').held with
        | none => simpa [step_read htodo hheld] using h
        | some window =>
            have hmem : j ∈ js := by simpa [step_write htodo hheld] using h
            exact List.mem_cons_of_mem _ hmem
  · rwa [step_workers_of_ne hw] at h

/-- A cell that no remaining job of the scheduled workers reaches. -/
theorem Stale.run (h : Stale x v s) {schedule : List Nat}
    (hreach : ∀ w ∈ schedule, ∀ j ∈ (s.workers w).todo, ¬ j.Reaches width x) :
    Stale x v (run width schedule s) := by
  induction schedule generalizing s with
  | nil => exact h
  | cons w ws ih =>
      refine ih (h.step (hreach w List.mem_cons_self)) fun w' hw' j hj => ?_
      exact hreach w' (List.mem_cons_of_mem _ hw') j (mem_todo_step hj)

theorem run_workers_of_notMem {schedule : List Nat} (h : w ∉ schedule) :
    (run width schedule s).workers w = s.workers w := by
  induction schedule generalizing s with
  | nil => rfl
  | cons w' ws ih =>
      rw [List.mem_cons, not_or] at h
      rw [run_cons, ih h.2, step_workers_of_ne h.1]

theorem run_alone (js rest : List (Job α))
    (htodo : (s.workers w).todo = js ++ rest) (hheld : (s.workers w).held = none) :
    (run width (List.replicate (2 * js.length) w) s).workers w = ⟨rest, none⟩ := by
  induction js generalizing s with
  | nil =>
      obtain hw : s.workers w = ⟨(s.workers w).todo, (s.workers w).held⟩ := rfl
      rw [hheld, htodo] at hw
      exact hw
  | cons j js ih =>
      rw [List.length_cons, Nat.mul_succ, List.replicate_succ, List.replicate_succ, run_cons,
        run_cons, step_read htodo hheld]
      have hread : update s.workers w ⟨j :: (js ++ rest), some (row s.mem j.base)⟩ w =
          ⟨j :: (js ++ rest), some (row s.mem j.base)⟩ := update_self ..
      rw [step_write (congrArg Worker.todo hread) (congrArg Worker.held hread)]
      exact ih (by simp) (by simp)

/-- From a state between jobs the workers can all be run to their end. -/
theorem exists_done (width count : Nat) (hheld : ∀ w, (s.workers w).held = none)
    (hidle : ∀ w, count ≤ w → (s.workers w).todo = []) :
    ∃ schedule, Done (run width schedule s) := by
  induction count generalizing s with
  | zero => exact ⟨[], fun w => hidle w (Nat.zero_le w)⟩
  | succ count ih =>
      set alone := List.replicate (2 * (s.workers count).todo.length) count
      have hworker : (run width alone s).workers count = ⟨[], none⟩ :=
        run_alone (s.workers count).todo [] (List.append_nil _).symm (hheld count)
      have hother : ∀ w, w ≠ count → (run width alone s).workers w = s.workers w := fun w hw =>
        run_workers_of_notMem fun hmem => hw (List.eq_of_mem_replicate hmem)
      obtain ⟨schedule, hdone⟩ := ih (s := run width alone s)
        (fun w => by
          by_cases hw : w = count
          · rw [hw, hworker]
          · rw [hother w hw, hheld w])
        (fun w hle => by
          by_cases hw : w = count
          · rw [hw, hworker]
          · rw [hother w hw]
            exact hidle w (by omega))
      refine ⟨alone ++ schedule, ?_⟩
      rwa [run_append]

variable {jobs : Nat → List (Job α)} {mem : Nat → α} {count : Nat}

theorem run_cut (hx : ∀ w, ∀ j ∈ jobs w, ¬ j.Reaches width x) (schedule : List Nat) :
    (run width schedule (start jobs mem)).mem x = mem x :=
  ((stale_start jobs mem x).run fun w _ => hx w).mem

theorem Job.Reaches.covers {j : Job α} (h : j.Reaches width x) : j.Covers x :=
  ⟨h.1, by
    have := h.2
    omega⟩

/-- When a job lies behind the cells of another worker's job, its store can be lost: the window
is read before the store and written back after it. -/
theorem exists_lost_store (hidle : ∀ w, count ≤ w → jobs w = []) {w' : Nat} (hne : w ≠ w')
    {j : Job α} (hj : j ∈ jobs w) (htail : j.Tail width x)
    (hapart : ∀ i, i ≠ w' → ∀ k ∈ jobs i, ¬ k.Covers x) :
    ∃ schedule, Done (run width schedule (start jobs mem)) ∧
      (run width schedule (start jobs mem)).mem x = mem x := by
  obtain ⟨pre, post, hsplit⟩ := List.append_of_mem hj
  have hreach : ∀ i, i ≠ w' → ∀ k ∈ jobs i, ¬ k.Reaches width x := fun i hi k hk h =>
    hapart i hi k hk h.covers
  -- Worker `w` runs up to the read of `j`.
  set s₁ := run width (List.replicate (2 * pre.length) w) (start jobs mem) with hs₁
  have hw₁ : s₁.workers w = ⟨j :: post, none⟩ := run_alone pre (j :: post) hsplit rfl
  have hother₁ : ∀ i, i ≠ w → s₁.workers i = ⟨jobs i, none⟩ := fun i hi =>
    run_workers_of_notMem fun hmem => hi (List.eq_of_mem_replicate hmem)
  have hstale₁ : Stale x (mem x) s₁ := (stale_start jobs mem x).run fun i hi =>
    hreach i (List.eq_of_mem_replicate hi ▸ hne)
  -- Worker `w'` does all of its jobs while `w` holds the window.
  have hs₂ : (step width s₁ w).workers w = ⟨j :: post, some (row s₁.mem j.base)⟩ := by
    rw [step_read (by rw [hw₁]) (by rw [hw₁])]
    exact update_self ..
  have hother₂ : ∀ i, i ≠ w → (step width s₁ w).workers i = ⟨jobs i, none⟩ := fun i hi => by
    rw [step_workers_of_ne hi, hother₁ i hi]
  set s₃ := run width (List.replicate (2 * (jobs w').length) w') (step width s₁ w) with hs₃
  have hw₃ : s₃.workers w' = ⟨[], none⟩ :=
    run_alone (jobs w') [] (by rw [hother₂ w' (Ne.symm hne), List.append_nil])
      (by rw [hother₂ w' (Ne.symm hne)])
  have hother₃ : ∀ i, i ≠ w' → s₃.workers i = (step width s₁ w).workers i := fun i hi =>
    run_workers_of_notMem fun hmem => hi (List.eq_of_mem_replicate hmem)
  -- The write stores what `w` had read at `x`.
  have hwrite : step width s₃ w =
      ⟨j.store width (row s₁.mem j.base) s₃.mem, update s₃.workers w ⟨post, none⟩⟩ :=
    step_write (by rw [hother₃ w hne, hs₂]) (by rw [hother₃ w hne, hs₂])
  set s₄ := step width s₃ w with hs₄
  have hheld : ∀ i, (s₄.workers i).held = none := by
    intro i
    rw [hwrite]
    dsimp only
    by_cases hi : i = w
    · rw [hi, update_self]
    · rw [update_of_ne hi]
      by_cases hi' : i = w'
      · rw [hi', hw₃]
      · rw [hother₃ i hi', hother₂ i hi]
  have htodo : ∀ i, i ≠ w' → (s₄.workers i).todo ⊆ jobs i := by
    intro i hi' k hk
    rw [hwrite] at hk
    dsimp only at hk
    by_cases hi : i = w
    · subst hi
      rw [update_self] at hk
      rw [hsplit]
      exact List.mem_append_right _ (List.mem_cons_of_mem _ hk)
    · rw [update_of_ne hi, hother₃ i hi', hother₂ i hi] at hk
      exact hk
  have hended : (s₄.workers w').todo = [] := by
    rw [hs₄, step_workers_of_ne (Ne.symm hne), hw₃]
  have hstale : Stale x (mem x) s₄ := by
    refine ⟨?_, fun i k ks window _ h => by rw [hheld i] at h; cases h⟩
    rw [hwrite]
    change j.store width (row s₁.mem j.base) s₃.mem x = mem x
    have hbase : j.base ≤ x := Nat.le_trans (Nat.le_add_right _ _) htail.1
    have hbehind := htail.1
    rw [Job.store, fill_apply, if_pos ⟨hbase, htail.2⟩, if_neg (by omega), row_apply,
      Nat.add_sub_cancel' hbase]
    exact hstale₁.mem
  obtain ⟨schedule, hdone⟩ := exists_done width count hheld fun i hi => by
    by_cases hi' : i = w'
    · rw [hi', hended]
    · exact List.eq_nil_of_subset_nil (hidle i hi ▸ htodo i hi')
  have hlast : Stale x (mem x) (run width schedule s₄) := hstale.run fun i _ k hk => by
    by_cases hi' : i = w'
    · rw [hi', hended] at hk
      cases hk
    · exact hreach i hi' k (htodo i hi' hk)
  refine ⟨List.replicate (2 * pre.length) w ++ w :: (List.replicate (2 * (jobs w').length) w' ++
    w :: schedule), ?_⟩
  rw [run_append, run_cons, run_append, run_cons]
  exact ⟨hdone, hlast.mem⟩

end Lost

end SpecDecode.WriteBack
