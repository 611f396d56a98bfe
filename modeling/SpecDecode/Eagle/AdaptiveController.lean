import SpecDecode.Eagle.AdaptiveParams
import Mathlib.Data.List.AList

/-!
# Switching between numbers of draft steps

`AdaptiveController` holds one runtime state of the worker for each candidate and applies the one
that the parameters ask for. The current number of steps stays on the ladder, so the state that
is looked up is there, and one look at the average settles the level.
-/

namespace SpecDecode.Adaptive

namespace Params

/-- Where the thresholds send the current level. -/
def settledIdx (p : Params) : Nat :=
  Hysteresis.settle (p.candidateSteps.threshold p.downHysteresis)
    (p.candidateSteps.threshold p.upHysteresis) p.emaAcceptLen p.candidateSteps.top
    (p.candidateSteps.steps.idxOf p.currentSteps)

def OnLadder (p : Params) : Prop := p.currentSteps ∈ p.candidateSteps.steps

variable {p : Params}

theorem OnLadder.settledIdx_le (h : p.OnLadder) : p.settledIdx ≤ p.candidateSteps.top :=
  Hysteresis.settle_le (p.candidateSteps.idxOf_le h)

theorem OnLadder.recomputeParams_eq (h : p.OnLadder) :
    p.recomputeParams =
      (.ok (decide (p.candidateSteps.step p.settledIdx ≠ p.currentSteps)),
        { p with currentSteps := p.candidateSteps.step p.settledIdx }) := by
  have hidx : p.candidateSteps.steps.idxOf p.currentSteps < p.candidateSteps.steps.length :=
    List.idxOf_lt_length_of_mem h
  have hloops := Hysteresis.ascend_descend (x := p.emaAcceptLen)
    (p.candidateSteps.threshold_increasing p.downHysteresis)
    (p.candidateSteps.threshold_increasing p.upHysteresis) (p.candidateSteps.idxOf_le h)
  unfold recomputeParams
  simp only
  rw [if_pos hidx, hloops]
  change (if p.candidateSteps.step p.settledIdx ≠ p.currentSteps then _ else _) = _
  by_cases htarget : p.candidateSteps.step p.settledIdx = p.currentSteps
  · rw [if_neg (not_not_intro htarget), htarget, decide_eq_false (not_not_intro rfl)]
  · rw [if_pos htarget, decide_eq_true htarget]
    rfl

theorem OnLadder.recomputeParams (h : p.OnLadder) : p.recomputeParams.2.OnLadder := by
  rw [h.recomputeParams_eq]
  exact p.candidateSteps.step_mem h.settledIdx_le

theorem OnLadder.recomputeParams_again (h : p.OnLadder) :
    p.recomputeParams.2.recomputeParams = (.ok false, p.recomputeParams.2) := by
  have hnext := h.recomputeParams
  rw [h.recomputeParams_eq] at hnext ⊢
  have hidx := p.candidateSteps.idxOf_step h.settledIdx_le
  have hsettled : settledIdx { p with currentSteps := p.candidateSteps.step p.settledIdx } =
      p.settledIdx := by
    unfold settledIdx at hidx ⊢
    rw [hidx]
    exact Hysteresis.settle_settle
  rw [hnext.recomputeParams_eq, hsettled, decide_eq_false (not_not_intro rfl)]

theorem OnLadder.recomputeParams_mono (h : p.OnLadder) {x y : ℚ} (hxy : x ≤ y) :
    ({ p with emaAcceptLen := x }).recomputeParams.2.currentSteps ≤
      ({ p with emaAcceptLen := y }).recomputeParams.2.currentSteps := by
  have hx : OnLadder { p with emaAcceptLen := x } := h
  have hy : OnLadder { p with emaAcceptLen := y } := h
  rw [hx.recomputeParams_eq, hy.recomputeParams_eq]
  exact p.candidateSteps.step_le (Hysteresis.settle_mono hxy) hy.settledIdx_le

structure Recomputes (p : Params) : Prop where
  /-- It moves to the settled level and says whether that changed the number of steps. -/
  settles : p.recomputeParams =
    (.ok (decide (p.candidateSteps.step p.settledIdx ≠ p.currentSteps)),
      { p with currentSteps := p.candidateSteps.step p.settledIdx })
  /-- With the same average the next one changes nothing. -/
  idempotent : p.recomputeParams.2.recomputeParams = (.ok false, p.recomputeParams.2)
  /-- From the same level a larger average leads at least as high. -/
  monotone {x y : ℚ} : x ≤ y →
    ({ p with emaAcceptLen := x }).recomputeParams.2.currentSteps ≤
      ({ p with emaAcceptLen := y }).recomputeParams.2.currentSteps

theorem OnLadder.recomputes (h : p.OnLadder) : p.Recomputes where
  settles := h.recomputeParams_eq
  idempotent := h.recomputeParams_again
  monotone := h.recomputeParams_mono

theorem OnLadder.observe (h : p.OnLadder) (batch : List Int) : (p.observe batch).OnLadder := h

theorem OnLadder.update (h : p.OnLadder) (batch : List Int) : (p.update batch).2.OnLadder := by
  unfold Params.update
  split
  · exact h
  · simp only
    split_ifs
    · exact h
    · exact h
    · exact h
    · exact (h.observe batch).recomputeParams

theorem OnLadder.update_ne_missing (h : p.OnLadder) (batch : List Int) (steps : ℚ) :
    (p.update batch).1 ≠ .error (.missingState steps) := by
  have hrecompute := (h.observe batch).recomputeParams_eq
  intro heq
  unfold Params.update at heq
  split at heq
  · cases heq
  · simp only at heq
    split_ifs at heq
    · cases Except.error.inj heq
    · rw [hrecompute] at heq
      cases heq

/-- What `update` does with the number of steps: only a recompute moves it, to where the new average
sends it, and the result says whether it has moved. -/
structure Updates (p : Params) (batch : List Int) : Prop where
  level : (p.update batch).2.currentSteps = p.currentSteps ∨
    p.update batch = (p.observe batch).recomputeParams
  reports : (p.update batch).1 = .ok true ↔ (p.update batch).2.currentSteps ≠ p.currentSteps

/-- An update ends with a recompute or leaves the number of steps alone. -/
private theorem update_cases (p : Params) (batch : List Int) :
    (∃ e q, p.update batch = (e, q) ∧ e ≠ .ok true ∧ q.currentSteps = p.currentSteps) ∨
      p.update batch = (p.observe batch).recomputeParams := by
  unfold Params.update
  simp only
  split_ifs
  · exact .inl ⟨_, _, rfl, nofun, rfl⟩
  · exact .inl ⟨_, _, rfl, nofun, rfl⟩
  · exact .inl ⟨_, _, rfl, nofun, rfl⟩
  · exact .inl ⟨_, _, rfl, nofun, rfl⟩
  · exact .inr rfl

theorem OnLadder.updates (h : p.OnLadder) (batch : List Int) : p.Updates batch := by
  rcases update_cases p batch with ⟨e, q, heq, hne, hsteps⟩ | hrecompute
  · refine ⟨.inl ?_, ?_⟩
    · rw [heq, hsteps]
    · rw [heq]
      exact iff_of_false hne (not_not_intro hsteps)
  · refine ⟨.inr hrecompute, ?_⟩
    have hsteps : (p.observe batch).currentSteps = p.currentSteps := rfl
    rw [hrecompute, (h.observe batch).recomputeParams_eq, hsteps, Except.ok.injEq,
      decide_eq_true_iff]

@[simp] theorem update_candidateSteps (p : Params) (batch : List Int) :
    (p.update batch).2.candidateSteps = p.candidateSteps := by
  unfold Params.update Params.recomputeParams
  simp only
  split_ifs <;> rfl

theorem init_onLadder {initialSteps : ℚ} {cfg : Config} (h : init initialSteps cfg = .ok p) :
    p.OnLadder := by
  unfold init at h
  simp only at h
  split at h
  · cases h
    exact Ladder.closest_mem _ initialSteps
  · cases h

theorem exists_init_iff (initialSteps : ℚ) (cfg : Config) :
    (∃ p, init initialSteps cfg = .ok p) ↔
      2 ≤ (sortedSet (cfg.candidateSteps.getD [1, 3, 7])).length := by
  unfold init
  simp only
  constructor
  · rintro ⟨p, h⟩
    split at h
    · next htwo => exact htwo
    · cases h
  · intro htwo
    rw [dif_pos htwo]
    exact ⟨_, rfl⟩

end Params

/-- `SpecRuntimeState`, with the backends and graphs as one value. -/
structure SpecRuntimeState (R : Type) where
  speculativeNumSteps : ℚ
  speculativeNumDraftTokens : ℚ
  resources : R

structure Controller (R : Type) where
  params : Params
  states : AList fun _ : ℚ => SpecRuntimeState R
  applied : Option (SpecRuntimeState R)

/-- A call of the worker. -/
inductive Event (R : Type) where
  | register (state : SpecRuntimeState R) (steps : Option ℚ)
  | initStates
  | onVerifyComplete (numAcceptedDraftsPerReq : List Int)

namespace Controller

variable {R : Type} (build : ℚ → ℚ → SpecRuntimeState R)

def register (c : Controller R) (state : SpecRuntimeState R) (steps : Option ℚ) : Controller R :=
  { c with states := c.states.insert (steps.getD state.speculativeNumSteps) state }

def activate (c : Controller R) (speculativeNumSteps : ℚ) : Option Error × Controller R :=
  match c.states.lookup speculativeNumSteps with
  | none => (some (.missingState speculativeNumSteps), c)
  | some state => (none, { c with applied := some state })

def buildStates (states : AList fun _ : ℚ => SpecRuntimeState R) :
    List ℚ → AList fun _ : ℚ => SpecRuntimeState R
  | [] => states
  | steps :: rest =>
      buildStates (if steps ∈ states then states else states.insert steps (build steps (steps + 1)))
        rest

def initStates (c : Controller R) : Option Error × Controller R :=
  let c := { c with states := buildStates build c.states c.params.candidateSteps.steps }
  c.activate c.params.currentSteps

def onVerifyComplete (c : Controller R) (numAcceptedDraftsPerReq : List Int) :
    Option Error × Controller R :=
  let updated := c.params.update numAcceptedDraftsPerReq
  let c := { c with params := updated.2 }
  match updated.1 with
  | .error e => (some e, c)
  | .ok true => c.activate c.params.currentSteps
  | .ok false => (none, c)

def step (c : Controller R) : Event R → Option Error × Controller R
  | .register state steps => (none, c.register state steps)
  | .initStates => c.initStates build
  | .onVerifyComplete batch => c.onVerifyComplete batch

/-- The exceptions of a run, and where it ends. -/
def run (c : Controller R) : List (Event R) → List (Option Error) × Controller R
  | [] => ([], c)
  | event :: events =>
      let next := c.step build event
      let rest := run next.2 events
      (next.1 :: rest.1, rest.2)

/-- A controller with states that were registered before `init_states`. -/
def start (p : Params) (registered : List (SpecRuntimeState R × Option ℚ)) : Controller R :=
  registered.foldl (fun c r => c.register r.1 r.2) ⟨p, ∅, none⟩

structure Ready (l : Ladder) (c : Controller R) : Prop where
  ladder : c.params.candidateSteps = l
  onLadder : c.params.OnLadder
  has_state {steps : ℚ} : steps ∈ c.params.candidateSteps.steps → steps ∈ c.states

variable {build} {c : Controller R} {l : Ladder}

theorem mem_buildStates (states : AList fun _ : ℚ => SpecRuntimeState R) (steps : List ℚ) (s : ℚ) :
    s ∈ buildStates build states steps ↔ s ∈ states ∨ s ∈ steps := by
  induction steps generalizing states with
  | nil => simp [buildStates]
  | cons first rest ih =>
      rw [buildStates, ih]
      split
      · next hmem =>
          constructor
          · rintro (h | h)
            · exact .inl h
            · exact .inr (List.mem_cons_of_mem first h)
          · rintro (h | h)
            · exact .inl h
            · obtain rfl | h := List.mem_cons.mp h
              · exact .inl hmem
              · exact .inr h
      · rw [AList.mem_insert, List.mem_cons, or_comm (a := s = first), or_assoc]

theorem Ready.activate (h : Ready l c) {steps : ℚ}
    (hsteps : steps ∈ c.params.candidateSteps.steps) :
    ∃ state, c.states.lookup steps = some state ∧
      c.activate steps = (none, { c with applied := some state }) := by
  obtain ⟨state, hstate⟩ := Option.isSome_iff_exists.mp
    (AList.lookup_isSome.mpr (h.has_state hsteps))
  refine ⟨state, hstate, ?_⟩
  rw [Controller.activate, hstate]

theorem initStates_ready (build : ℚ → ℚ → SpecRuntimeState R) (h : c.params.OnLadder) :
    (c.initStates build).1 = none ∧ Ready c.params.candidateSteps (c.initStates build).2 := by
  have hready : Ready c.params.candidateSteps
      { c with states := buildStates build c.states c.params.candidateSteps.steps } :=
    ⟨rfl, h, fun hsteps => (mem_buildStates _ _ _).mpr (.inr hsteps)⟩
  obtain ⟨state, -, hactivate⟩ := hready.activate h
  unfold initStates
  simp only at hactivate ⊢
  rw [hactivate]
  exact ⟨rfl, rfl, hready.onLadder, hready.has_state⟩

theorem Ready.register (h : Ready l c) (state : SpecRuntimeState R) (steps : Option ℚ) :
    Ready l (c.register state steps) where
  ladder := h.ladder
  onLadder := h.onLadder
  has_state hsteps := (AList.mem_insert _).mpr (.inr (h.has_state hsteps))

theorem Ready.onVerifyComplete (h : Ready l c) (batch : List Int) :
    (∀ steps, (c.onVerifyComplete batch).1 ≠ some (.missingState steps)) ∧
      Ready l (c.onVerifyComplete batch).2 := by
  have hladder := Params.update_candidateSteps c.params batch
  have hupdate := h.onLadder.update batch
  have hready : Ready l { c with params := (c.params.update batch).2 } :=
    ⟨hladder.trans h.ladder, hupdate, fun hsteps => h.has_state (hladder ▸ hsteps)⟩
  obtain ⟨state, -, hactivate⟩ := hready.activate hupdate
  unfold Controller.onVerifyComplete
  simp only at hactivate ⊢
  cases hresult : (c.params.update batch).1 with
  | error e =>
      refine ⟨fun steps hsome => h.onLadder.update_ne_missing batch steps ?_, hready⟩
      rw [hresult, Option.some.inj hsome]
  | ok changed =>
      cases changed with
      | true =>
          simp only [hactivate]
          refine ⟨fun steps hsome => ?_, hready.ladder, hready.onLadder, hready.has_state⟩
          cases hsome
      | false =>
          refine ⟨fun steps hsome => ?_, hready⟩
          cases hsome

theorem Ready.step (h : Ready l c) (event : Event R) :
    (∀ steps, (c.step build event).1 ≠ some (.missingState steps)) ∧
      Ready l (c.step build event).2 := by
  cases event with
  | register state steps =>
      refine ⟨fun s hsome => ?_, h.register state steps⟩
      cases hsome
  | initStates =>
      obtain ⟨hnone, hready⟩ := initStates_ready build h.onLadder
      refine ⟨fun s hsome => ?_, h.ladder ▸ hready⟩
      cases hnone.symm.trans hsome
  | onVerifyComplete batch => exact h.onVerifyComplete batch

theorem Ready.run (h : Ready l c) (events : List (Event R)) :
    (∀ e ∈ (c.run build events).1, ∀ steps, e ≠ some (.missingState steps)) ∧
      Ready l (c.run build events).2 := by
  induction events generalizing c with
  | nil => exact ⟨fun e he => absurd he List.not_mem_nil, h⟩
  | cons event events ih =>
      obtain ⟨hstep, hnext⟩ := h.step event
      obtain ⟨hrest, hlast⟩ := ih hnext
      refine ⟨fun e he => ?_, hlast⟩
      obtain rfl | he := List.mem_cons.mp he
      · exact hstep
      · exact hrest e he

@[simp] theorem start_params (p : Params) (registered : List (SpecRuntimeState R × Option ℚ)) :
    (start p registered).params = p := by
  have hfold : ∀ c : Controller R,
      (registered.foldl (fun c r => c.register r.1 r.2) c).params = c.params := by
    induction registered with
    | nil => exact fun c => rfl
    | cons r registered ih => exact fun c => ih (c.register r.1 r.2)
  exact hfold _

/-- Any accepted configuration, any states registered at startup, and then any calls: the number
of steps is a candidate, a recompute settles it and nothing else moves it, and the state to activate
is always there. Numbers are rationals. -/
theorem adaptive_run (build : ℚ → ℚ → SpecRuntimeState R) {initialSteps : ℚ} {cfg : Config}
    {p : Params} (hinit : Params.init initialSteps cfg = .ok p)
    (registered : List (SpecRuntimeState R × Option ℚ)) (events : List (Event R)) :
    let outcome := (start p registered).run build (.initStates :: events)
    outcome.2.params.candidateSteps = p.candidateSteps ∧
      outcome.2.params.currentSteps ∈ p.candidateSteps.steps ∧
      outcome.2.params.Recomputes ∧
      (∀ batch, (outcome.2.params.observe batch).Recomputes ∧ outcome.2.params.Updates batch) ∧
      ∀ e ∈ outcome.1, ∀ steps, e ≠ some (.missingState steps) := by
  have hparams := start_params p registered
  have hstart : (start p registered).params.OnLadder := by
    rw [hparams]
    exact Params.init_onLadder hinit
  obtain ⟨hnone, hready⟩ := initStates_ready build hstart
  obtain ⟨hrest, hlast⟩ := hready.run events
  have hladder := hlast.ladder.trans (congrArg Params.candidateSteps hparams)
  refine ⟨hladder, hladder ▸ hlast.onLadder, hlast.onLadder.recomputes,
    fun batch => ⟨(hlast.onLadder.observe batch).recomputes, hlast.onLadder.updates batch⟩,
      fun e he steps => ?_⟩
  obtain rfl | he := List.mem_cons.mp he
  · intro hsome
    cases hnone.symm.trans hsome
  · exact hrest e he steps

/-- A batch that accepts seven drafts a request raises the default level of three steps to seven. -/
theorem adaptive_run_raised :
    ∃ p, Params.init 3 ⟨none, some 1, some 1, some 0, none, none⟩ = .ok p ∧ p.currentSteps = 3 ∧
      ((start p []).run (fun steps drafts => ⟨steps, drafts, ()⟩)
        [.initStates, .onVerifyComplete [7, 7]]).2.params.currentSteps = 7 ∧
      7 ∈ p.candidateSteps.steps := by
  have hinit : ∃ p, Params.init 3 ⟨none, some 1, some 1, some 0, none, none⟩ = .ok p ∧
      p.currentSteps = 3 ∧ ((start p []).run (fun steps drafts => ⟨steps, drafts, ()⟩)
        [.initStates, .onVerifyComplete [7, 7]]).2.params.currentSteps = 7 :=
    ⟨_, rfl, by decide +kernel, by decide +kernel⟩
  obtain ⟨p, hp, hthree, hseven⟩ := hinit
  have hmem :=
    (adaptive_run (fun steps drafts => (⟨steps, drafts, ()⟩ : SpecRuntimeState Unit)) hp []
    [.onVerifyComplete [7, 7]]).2.1
  exact ⟨p, hp, hthree, hseven, hseven ▸ hmem⟩

end Controller

end SpecDecode.Adaptive
