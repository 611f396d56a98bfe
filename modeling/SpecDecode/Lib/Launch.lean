import Mathlib.Data.List.Nodup
import Mathlib.Tactic.Common

/-!
# Launching independent programs over a shared state

A kernel launch is a list of program indices, each of which transforms the
shared device state and may fail to terminate (`none`). `launch` runs them one
after another.

`Local` states what makes the order irrelevant: started from its own
precondition a program reaches its own postcondition, and its effect keeps the
pre- and postconditions of every other program. `Local.launch_post` then gives
the postconditions of all programs at once, for any duplicate-free list of
them.
-/

namespace SpecDecode.Launch

variable {ι σ : Type}

/-- Run the listed programs one after another. -/
def launch (step : ι → σ → Option σ) (programs : List ι) (s : σ) : Option σ :=
  programs.foldlM (fun s p => step p s) s

@[simp] theorem launch_nil (step : ι → σ → Option σ) (s : σ) : launch step [] s = some s := rfl

@[simp] theorem launch_cons (step : ι → σ → Option σ) (p : ι) (ps : List ι) (s : σ) :
    launch step (p :: ps) s = (step p s).bind (launch step ps) := rfl

theorem launch_append (step : ι → σ → Option σ) (ps qs : List ι) (s : σ) :
    launch step (ps ++ qs) s = (launch step ps s).bind (launch step qs) := by
  simp only [launch, List.foldlM_append]
  rfl

theorem launch_flatMap {κ : Type} (step : ι → σ → Option σ) (f : κ → List ι) (ks : List κ)
    (s : σ) : launch (fun k => launch step (f k)) ks s = launch step (ks.flatMap f) s := by
  induction ks generalizing s with
  | nil => rfl
  | cons k ks ih =>
      rw [launch_cons, List.flatMap_cons, launch_append]
      congr 1
      funext s'
      exact ih s'

variable {step : ι → σ → Option σ} {ps : List ι}

/-- Two step functions that agree on the launched programs launch alike. -/
theorem launch_congr {step' : ι → σ → Option σ} (h : ∀ p ∈ ps, ∀ s, step p s = step' p s) (s : σ) :
    launch step ps s = launch step' ps s := by
  induction ps generalizing s with
  | nil => rfl
  | cons p ps ih =>
      rw [launch_cons, launch_cons, h p (List.mem_cons_self ..)]
      congr 1
      funext s'
      exact ih (fun q hq => h q (List.mem_cons_of_mem _ hq)) s'

theorem launch_map {κ : Type} (step : ι → σ → Option σ) (f : κ → ι) (ks : List κ) (s : σ) :
    launch step (ks.map f) s = launch (fun k => step (f k)) ks s := by
  simp only [launch, List.foldlM_map]

theorem launch_preserves {P : σ → Prop}
    (h : ∀ p ∈ ps, ∀ s s', P s → step p s = some s' → P s') {s s' : σ} (hs : P s)
    (run : launch step ps s = some s') : P s' := by
  induction ps generalizing s with
  | nil =>
      obtain rfl : s = s' := by simpa using run
      exact hs
  | cons p ps ih =>
      rw [launch_cons, Option.bind_eq_some_iff] at run
      obtain ⟨m, hm, rest⟩ := run
      exact ih (fun q hq => h q (List.mem_cons_of_mem _ hq))
        (h p (List.mem_cons_self ..) s m hs hm) rest

/-- Where every program ends and keeps a property, so does the launch. -/
theorem launch_ends {P : σ → Prop}
    (h : ∀ p ∈ ps, ∀ s, P s → ∃ s', step p s = some s' ∧ P s') {s : σ} (hs : P s) :
    ∃ s', launch step ps s = some s' ∧ P s' := by
  induction ps generalizing s with
  | nil => exact ⟨s, rfl, hs⟩
  | cons p ps ih =>
      obtain ⟨s', hstep, hs'⟩ := h p List.mem_cons_self s hs
      rw [launch_cons, hstep]
      exact ih (fun q hq => h q (List.mem_cons_of_mem _ hq)) hs'

theorem launch_runs {s s' : σ} (run : launch step ps s = some s') {p : ι} (hp : p ∈ ps) :
    ∃ m m', step p m = some m' := by
  induction ps generalizing s with
  | nil => cases hp
  | cons q ps ih =>
      rw [launch_cons, Option.bind_eq_some_iff] at run
      obtain ⟨m, hm, rest⟩ := run
      rcases List.mem_cons.mp hp with rfl | hp
      · exact ⟨s, m, hm⟩
      · exact ih rest hp

/-- What it takes to reason about each program of a launch on its own. `effect`
records what a program may change. -/
structure Local (step : ι → σ → Option σ) (programs : List ι) where
  pre : ι → σ → Prop
  post : ι → σ → Prop
  effect : ι → σ → σ → Prop
  run : ∀ p ∈ programs, ∀ s, pre p s → ∃ s', step p s = some s' ∧ post p s' ∧ effect p s s'
  keep_pre : ∀ p ∈ programs, ∀ q ∈ programs, p ≠ q → ∀ s s', effect p s s' → pre q s → pre q s'
  keep_post : ∀ p ∈ programs, ∀ q ∈ programs, p ≠ q → ∀ s s', effect p s s' → post q s → post q s'

namespace Local

variable {step : ι → σ → Option σ} {programs : List ι}

theorem launch_aux (L : Local step programs) (todo done : List ι) (hsub : ∀ p ∈ todo, p ∈ programs)
    (hdone : ∀ p ∈ done, p ∈ programs) (hnodup : (done ++ todo).Nodup) (s : σ)
    (hpre : ∀ p ∈ todo, L.pre p s) (hpost : ∀ p ∈ done, L.post p s) :
    ∃ s', launch step todo s = some s' ∧ ∀ p ∈ done ++ todo, L.post p s' := by
  induction todo generalizing done s with
  | nil => exact ⟨s, rfl, by simpa using hpost⟩
  | cons p todo ih =>
      obtain ⟨m, hm, hmpost, heffect⟩ :=
        L.run p (hsub p (List.mem_cons_self ..)) s (hpre p (List.mem_cons_self ..))
      have hp := hsub p (List.mem_cons_self ..)
      have hnotin : p ∉ done ∧ p ∉ todo := by
        rw [List.nodup_append] at hnodup
        exact ⟨fun h => hnodup.2.2 p h p (List.mem_cons_self ..) rfl,
          (List.nodup_cons.mp hnodup.2.1).1⟩
      obtain ⟨s', hs', hall⟩ := ih (done ++ [p])
        (fun q hq => hsub q (List.mem_cons_of_mem _ hq))
        (by
          intro q hq
          rcases List.mem_append.mp hq with hq | hq
          · exact hdone q hq
          · exact List.mem_singleton.mp hq ▸ hp)
        (by simpa using hnodup) m
        (fun q hq => L.keep_pre p hp q (hsub q (List.mem_cons_of_mem _ hq))
          (fun h => hnotin.2 (h ▸ hq)) s m heffect (hpre q (List.mem_cons_of_mem _ hq)))
        (by
          intro q hq
          rcases List.mem_append.mp hq with hq | hq
          · exact L.keep_post p hp q (hdone q hq) (fun h => hnotin.1 (h ▸ hq)) s m heffect
              (hpost q hq)
          · exact List.mem_singleton.mp hq ▸ hmpost)
      refine ⟨s', ?_, by simpa using hall⟩
      rw [launch_cons, hm]
      exact hs'

/-- All programs of a duplicate-free launch reach their postconditions. -/
theorem launch_post (L : Local step programs) (hnodup : programs.Nodup) (s : σ)
    (hpre : ∀ p ∈ programs, L.pre p s) :
    ∃ s', launch step programs s = some s' ∧ ∀ p ∈ programs, L.post p s' := by
  obtain ⟨s', hs', hall⟩ := L.launch_aux programs [] (fun _ h => h) (by simp)
    (by simpa using hnodup) s hpre (by simp)
  exact ⟨s', hs', by simpa using hall⟩

end Local

end SpecDecode.Launch
