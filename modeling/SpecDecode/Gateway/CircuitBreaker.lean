import SpecDecode.Lib.TimedRun
import Mathlib.Algebra.Order.Ring.Int

/-!
# The circuit breaker of a worker

The breaker keeps its state, two counters and the time of the last change in separate fields.
Times are readings of the millisecond clock `now_ms`, one for each call; the calls run one after
another, so that every compare-and-swap succeeds.
-/

namespace SpecDecode.Gateway

open TimedRun

inductive CircuitState
  | closed
  | opened
  | halfOpen
deriving DecidableEq

/-- `CircuitBreakerConfig`; the thresholds are `u32`, the timeout is in nanoseconds. -/
structure CircuitBreakerConfig where
  failureThreshold : Nat
  successThreshold : Nat
  timeoutDuration : Nat
  failureThreshold_lt : failureThreshold < 2 ^ 32
  successThreshold_lt : successThreshold < 2 ^ 32

def nanosPerMilli : Nat := 1000000

namespace CircuitBreakerConfig

def timeoutMs (c : CircuitBreakerConfig) : Nat := c.timeoutDuration / nanosPerMilli % 2 ^ 64

/-- A timeout of whole milliseconds that fit in a `u64`. -/
def WholeMillis (c : CircuitBreakerConfig) : Prop :=
  c.timeoutDuration % nanosPerMilli = 0 ∧ c.timeoutDuration / nanosPerMilli < 2 ^ 64

end CircuitBreakerConfig

structure CircuitBreaker where
  state : CircuitState
  consecutiveFailures : Nat
  consecutiveSuccesses : Nat
  lastStateChangeMs : Nat
deriving DecidableEq

def fetchAddOne (counter : Nat) : Nat := (counter + 1) % 2 ^ 32

namespace CircuitBreaker

/-- `with_config_and_label` at a time. -/
def new (now : Nat) : CircuitBreaker where
  state := .closed
  consecutiveFailures := 0
  consecutiveSuccesses := 0
  lastStateChangeMs := now

variable (c : CircuitBreakerConfig) (now : Nat)

def checkAndUpdateStateReturning (b : CircuitBreaker) : CircuitState × CircuitBreaker :=
  if b.state = .opened then
    let elapsedMs := now - b.lastStateChangeMs
    if c.timeoutMs ≤ elapsedMs then
      (.halfOpen, { state := .halfOpen, consecutiveFailures := 0, consecutiveSuccesses := 0,
                    lastStateChangeMs := now })
    else (b.state, b)
  else (b.state, b)

def transitionTo (newState : CircuitState) (b : CircuitBreaker) : CircuitBreaker :=
  if b.state = newState then b
  else match newState with
    | .closed => { state := .closed, consecutiveFailures := 0, consecutiveSuccesses := 0,
                   lastStateChangeMs := now }
    | .opened => { b with state := .opened, consecutiveSuccesses := 0, lastStateChangeMs := now }
    | .halfOpen => { state := .halfOpen, consecutiveFailures := 0, consecutiveSuccesses := 0,
                     lastStateChangeMs := now }

def recordSuccess (b : CircuitBreaker) : CircuitBreaker :=
  let successes := fetchAddOne b.consecutiveSuccesses
  let b := { b with consecutiveFailures := 0, consecutiveSuccesses := successes }
  match b.state with
  | .halfOpen => if c.successThreshold ≤ successes then b.transitionTo now .closed else b
  | .closed => b
  | .opened => b

def recordFailure (b : CircuitBreaker) : CircuitBreaker :=
  let failures := fetchAddOne b.consecutiveFailures
  let b := { b with consecutiveFailures := failures, consecutiveSuccesses := 0 }
  match b.state with
  | .closed => if c.failureThreshold ≤ failures then b.transitionTo now .opened else b
  | .halfOpen => b.transitionTo now .opened
  | .opened => b

def recordOutcome (success : Bool) (b : CircuitBreaker) : CircuitBreaker :=
  if success then b.recordSuccess c now else b.recordFailure c now

/-- `can_execute`. -/
def canExecute (b : CircuitBreaker) : Bool × CircuitBreaker :=
  let (state, b) := b.checkAndUpdateStateReturning c now
  match state with
  | .closed => (true, b)
  | .opened => (false, b)
  | .halfOpen => (true, b)

def recordTestSuccess (b : CircuitBreaker) : CircuitBreaker :=
  let (state, b) := b.checkAndUpdateStateReturning c now
  if state = .halfOpen then b.recordSuccess c now else b

def recordTestFailure (b : CircuitBreaker) : CircuitBreaker :=
  let (state, b) := b.checkAndUpdateStateReturning c now
  if state = .halfOpen then b.recordFailure c now else b

/-- `reset`. -/
def reset (b : CircuitBreaker) : CircuitBreaker :=
  { b.transitionTo now .closed with consecutiveFailures := 0, consecutiveSuccesses := 0 }

/-- `force_open`. -/
def forceOpen (b : CircuitBreaker) : CircuitBreaker := b.transitionTo now .opened

end CircuitBreaker

/-- The calls on a breaker. -/
inductive BreakerCall
  | canExecute
  | state
  | recordOutcome (success : Bool)
  | recordTestSuccess
  | recordTestFailure
  | forceOpen
  | reset

inductive BreakerAnswer
  | executable (allowed : Bool)
  | state (state : CircuitState)
  | unit
deriving DecidableEq

/-- One call on the breaker at a time. -/
def CircuitBreaker.step (c : CircuitBreakerConfig) (now : Nat) (call : BreakerCall)
    (b : CircuitBreaker) : BreakerAnswer × CircuitBreaker :=
  match call with
  | .canExecute => (.executable (b.canExecute c now).1, (b.canExecute c now).2)
  | .state =>
      (.state (b.checkAndUpdateStateReturning c now).1, (b.checkAndUpdateStateReturning c now).2)
  | .recordOutcome success => (.unit, b.recordOutcome c now success)
  | .recordTestSuccess => (.unit, b.recordTestSuccess c now)
  | .recordTestFailure => (.unit, b.recordTestFailure c now)
  | .forceOpen => (.unit, b.forceOpen now)
  | .reset => (.unit, b.reset now)

/-- The automaton of a breaker; every state carries its own data only. -/
inductive BreakerMachine
  | closed (failures : Nat)
  | opened (entry : Nat)
  | halfOpen (successes : Nat)

namespace BreakerMachine

variable (c : CircuitBreakerConfig) (now : Nat)

/-- An open circuit is tested when the whole timeout has passed since it opened. -/
def query : BreakerMachine → BreakerMachine
  | .closed failures => .closed failures
  | .opened entry =>
      if entry * nanosPerMilli + c.timeoutDuration ≤ now * nanosPerMilli then .halfOpen 0
      else .opened entry
  | .halfOpen successes => .halfOpen successes

def label : BreakerMachine → CircuitState
  | .closed _ => .closed
  | .opened _ => .opened
  | .halfOpen _ => .halfOpen

def success : BreakerMachine → BreakerMachine
  | .closed _ => .closed 0
  | .opened entry => .opened entry
  | .halfOpen successes =>
      if c.successThreshold ≤ successes + 1 then .closed 0 else .halfOpen (successes + 1)

def failure : BreakerMachine → BreakerMachine
  | .closed failures =>
      if c.failureThreshold ≤ failures + 1 then .opened now else .closed (failures + 1)
  | .opened entry => .opened entry
  | .halfOpen _ => .opened now

def force : BreakerMachine → BreakerMachine
  | .closed _ => .opened now
  | .opened entry => .opened entry
  | .halfOpen _ => .opened now

/-- One call on the automaton at a time; a test outcome counts in a half-open circuit only. -/
def step (call : BreakerCall) (m : BreakerMachine) : BreakerAnswer × BreakerMachine :=
  match call with
  | .canExecute => (.executable (decide ((m.query c now).label ≠ .opened)), m.query c now)
  | .state => (.state (m.query c now).label, m.query c now)
  | .recordOutcome success => (.unit, if success then m.success c else m.failure c now)
  | .recordTestSuccess =>
      (.unit, if (m.query c now).label = .halfOpen then (m.query c now).success c
              else m.query c now)
  | .recordTestFailure =>
      (.unit, if (m.query c now).label = .halfOpen then (m.query c now).failure c now
              else m.query c now)
  | .forceOpen => (.unit, m.force now)
  | .reset => (.unit, .closed 0)

end BreakerMachine

/-- What the fields of a breaker mean: a counter counts only in the state it belongs to. -/
def Represents (c : CircuitBreakerConfig) (last : Nat) (b : CircuitBreaker) :
    BreakerMachine → Prop
  | .closed failures =>
      b.state = .closed ∧ b.consecutiveFailures = failures ∧
        (failures = 0 ∨ failures < c.failureThreshold)
  | .opened entry => b.state = .opened ∧ b.lastStateChangeMs = entry ∧ entry ≤ last
  | .halfOpen successes =>
      b.state = .halfOpen ∧ b.consecutiveSuccesses = successes ∧
        (successes = 0 ∨ successes < c.successThreshold)

variable {c : CircuitBreakerConfig} {last now count threshold : Nat} {b : CircuitBreaker}
variable {m : BreakerMachine}

/-- A count below a `u32` threshold does not wrap. -/
theorem fetchAddOne_eq (hlt : threshold < 2 ^ 32) (h : count = 0 ∨ count < threshold) :
    fetchAddOne count = count + 1 :=
  Nat.mod_eq_of_lt (by omega)

theorem CircuitBreakerConfig.WholeMillis.elapsed_iff (h : c.WholeMillis) {entry : Nat}
    (hle : entry ≤ now) :
    c.timeoutMs ≤ now - entry ↔
      entry * nanosPerMilli + c.timeoutDuration ≤ now * nanosPerMilli := by
  have hms : c.timeoutMs = c.timeoutDuration / nanosPerMilli := Nat.mod_eq_of_lt h.2
  have hwhole : c.timeoutDuration % nanosPerMilli = 0 := h.1
  unfold nanosPerMilli at *
  omega

namespace CircuitBreaker

/-- A transition into another state restarts the counter of that state. -/
theorem transitionTo_closed_represents (now : Nat) (h : b.state ≠ .closed) :
    Represents c now (b.transitionTo now .closed) (.closed 0) := by
  rw [transitionTo, if_neg h]
  exact ⟨rfl, rfl, Or.inl rfl⟩

theorem transitionTo_opened_represents (now : Nat) (h : b.state ≠ .opened) :
    Represents c now (b.transitionTo now .opened) (.opened now) := by
  rw [transitionTo, if_neg h]
  exact ⟨rfl, rfl, Nat.le_refl now⟩

theorem reset_represents (now : Nat) : Represents c now (b.reset now) (.closed 0) := by
  by_cases h : b.state = .closed
  · rw [reset, transitionTo, if_pos h]
    exact ⟨h, rfl, Or.inl rfl⟩
  · exact ⟨(transitionTo_closed_represents (c := c) now h).1, rfl, Or.inl rfl⟩

/-- A query answers as the automaton does, and leaves what it answered. -/
theorem checkAndUpdate_represents (hwhole : c.WholeMillis) (h : Represents c last b m)
    (hle : last ≤ now) :
    (b.checkAndUpdateStateReturning c now).1 = (m.query c now).label ∧
      Represents c now (b.checkAndUpdateStateReturning c now).2 (m.query c now) := by
  cases m with
  | closed failures =>
      have hne : ¬ b.state = .opened := by rw [h.1]; decide
      rw [checkAndUpdateStateReturning, if_neg hne]
      exact ⟨h.1, h⟩
  | halfOpen successes =>
      have hne : ¬ b.state = .opened := by rw [h.1]; decide
      rw [checkAndUpdateStateReturning, if_neg hne]
      exact ⟨h.1, h⟩
  | opened entry =>
      obtain ⟨hstate, hentry, hlast⟩ := h
      have helapsed := hwhole.elapsed_iff (Nat.le_trans hlast hle)
      rw [checkAndUpdateStateReturning, if_pos hstate, hentry, BreakerMachine.query]
      by_cases hpassed : c.timeoutMs ≤ now - entry
      · rw [if_pos hpassed, if_pos (helapsed.mp hpassed)]
        exact ⟨rfl, rfl, rfl, Or.inl rfl⟩
      · rw [if_neg hpassed, if_neg (fun hle => hpassed (helapsed.mpr hle))]
        exact ⟨hstate, hstate, hentry, Nat.le_trans hlast hle⟩

theorem recordSuccess_represents (h : Represents c last b m) (hle : last ≤ now) :
    Represents c now (b.recordSuccess c now) (m.success c) := by
  cases m with
  | closed failures =>
      simp only [recordSuccess, h.1]
      exact ⟨rfl, rfl, Or.inl rfl⟩
  | opened entry =>
      simp only [recordSuccess, h.1]
      exact ⟨rfl, h.2.1, Nat.le_trans h.2.2 hle⟩
  | halfOpen successes =>
      obtain ⟨hstate, hcount, hbound⟩ := h
      have hadd := fetchAddOne_eq c.successThreshold_lt hbound
      simp only [recordSuccess, hstate, hcount, hadd, BreakerMachine.success]
      by_cases hreached : c.successThreshold ≤ successes + 1
      · rw [if_pos hreached, if_pos hreached]
        exact transitionTo_closed_represents now (by simp)
      · rw [if_neg hreached, if_neg hreached]
        exact ⟨rfl, rfl, Or.inr (Nat.lt_of_not_le hreached)⟩

theorem recordFailure_represents (h : Represents c last b m) (hle : last ≤ now) :
    Represents c now (b.recordFailure c now) (m.failure c now) := by
  cases m with
  | closed failures =>
      obtain ⟨hstate, hcount, hbound⟩ := h
      have hadd := fetchAddOne_eq c.failureThreshold_lt hbound
      simp only [recordFailure, hstate, hcount, hadd, BreakerMachine.failure]
      by_cases hreached : c.failureThreshold ≤ failures + 1
      · rw [if_pos hreached, if_pos hreached]
        exact transitionTo_opened_represents now (by simp)
      · rw [if_neg hreached, if_neg hreached]
        exact ⟨rfl, rfl, Or.inr (Nat.lt_of_not_le hreached)⟩
  | opened entry =>
      simp only [recordFailure, h.1]
      exact ⟨rfl, h.2.1, Nat.le_trans h.2.2 hle⟩
  | halfOpen successes =>
      simp only [recordFailure, h.1]
      exact transitionTo_opened_represents now (by simp)

private theorem forceOpen_represents (h : Represents c last b m) (hle : last ≤ now) :
    Represents c now (b.forceOpen now) (m.force now) := by
  cases m with
  | closed failures => exact transitionTo_opened_represents now (by simp [h.1])
  | halfOpen successes => exact transitionTo_opened_represents now (by simp [h.1])
  | opened entry =>
      rw [forceOpen, transitionTo, if_pos h.1]
      exact ⟨h.1, h.2.1, Nat.le_trans h.2.2 hle⟩

/-- Every call answers as the automaton does and keeps the meaning of the fields. -/
theorem step_represents (hwhole : c.WholeMillis) (h : Represents c last b m) (hle : last ≤ now)
    (call : BreakerCall) :
    (b.step c now call).1 = (m.step c now call).1 ∧
      Represents c now (b.step c now call).2 (m.step c now call).2 := by
  obtain ⟨hanswer, hquery⟩ := checkAndUpdate_represents hwhole h hle
  cases call with
  | canExecute =>
      refine ⟨?_, ?_⟩
      · simp only [step, canExecute, BreakerMachine.step, hanswer]
        cases (m.query c now).label <;> rfl
      · simp only [step, canExecute, BreakerMachine.step]
        cases (b.checkAndUpdateStateReturning c now).1 <;> exact hquery
  | state => exact ⟨congrArg BreakerAnswer.state hanswer, hquery⟩
  | recordOutcome success =>
      refine ⟨rfl, ?_⟩
      cases success with
      | false => exact recordFailure_represents h hle
      | true => exact recordSuccess_represents h hle
  | recordTestSuccess =>
      refine ⟨rfl, ?_⟩
      simp only [step, recordTestSuccess, BreakerMachine.step, hanswer]
      by_cases hhalf : (m.query c now).label = .halfOpen
      · rw [if_pos hhalf, if_pos hhalf]
        exact recordSuccess_represents hquery (Nat.le_refl now)
      · rw [if_neg hhalf, if_neg hhalf]
        exact hquery
  | recordTestFailure =>
      refine ⟨rfl, ?_⟩
      simp only [step, recordTestFailure, BreakerMachine.step, hanswer]
      by_cases hhalf : (m.query c now).label = .halfOpen
      · rw [if_pos hhalf, if_pos hhalf]
        exact recordFailure_represents hquery (Nat.le_refl now)
      · rw [if_neg hhalf, if_neg hhalf]
        exact hquery
  | forceOpen => exact ⟨rfl, forceOpen_represents h hle⟩
  | reset => exact ⟨rfl, reset_represents now⟩

theorem simulation (hwhole : c.WholeMillis) :
    Simulation (step c) (BreakerMachine.step c) (Represents c) where
  answer _ _ call _ _ h hle := (step_represents hwhole h hle call).1
  next _ _ call _ _ h hle := (step_represents hwhole h hle call).2

private theorem half_open_at_timeoutMs (c : CircuitBreakerConfig) :
    answers (step c) (new 0)
      [(0, .forceOpen), (c.timeoutMs, .state)] = [.unit, .state .halfOpen] := by
  have hreached : (((new 0).forceOpen 0).checkAndUpdateStateReturning c c.timeoutMs).1 =
      .halfOpen := by
    simp [new, forceOpen, transitionTo, checkAndUpdateStateReturning]
  simp only [answers, step, hreached]

/-- The breaker answers as the automaton does in every run exactly for timeouts of whole
milliseconds that fit in a `u64`. -/
theorem answers_eq_iff (c : CircuitBreakerConfig) :
    (∀ (start : Nat) (calls : List (Nat × BreakerCall)), Nondecreasing start calls →
      answers (step c) (new start) calls =
        answers (BreakerMachine.step c) (.closed 0) calls) ↔ c.WholeMillis := by
  constructor
  · intro hall
    have hrun := hall 0 [(0, .forceOpen), (c.timeoutMs, .state)]
      ⟨Nat.le_refl 0, Nat.zero_le _, trivial⟩
    rw [half_open_at_timeoutMs] at hrun
    have hlabel : .halfOpen = ((BreakerMachine.opened 0).query c c.timeoutMs).label := by
      injection hrun with _ hrun
      injection hrun with hrun _
      injection hrun
    have hpassed : 0 * nanosPerMilli + c.timeoutDuration ≤ c.timeoutMs * nanosPerMilli := by
      by_contra hnot
      rw [BreakerMachine.query, if_neg hnot] at hlabel
      exact absurd hlabel (by decide)
    unfold CircuitBreakerConfig.WholeMillis CircuitBreakerConfig.timeoutMs nanosPerMilli at *
    omega
  · intro hwhole start calls hmono
    have hnew : Represents c start (new start) (.closed 0) := ⟨rfl, rfl, Or.inl rfl⟩
    exact (simulation hwhole).answers_eq hnew hmono

/-- `cb_timeout_duration_secs` of 2^61 with the default thresholds of the configuration. -/
def hugeTimeout : CircuitBreakerConfig where
  failureThreshold := 10
  successThreshold := 3
  timeoutDuration := 2 ^ 61 * 1000 * nanosPerMilli
  failureThreshold_lt := by decide
  successThreshold_lt := by decide

/-- The truncated timeout is zero, so the circuit is tested at once. -/
theorem answers_hugeTimeout :
    answers (step hugeTimeout) (new 0) [(0, .forceOpen), (0, .canExecute)] =
        [.unit, .executable true] ∧
      answers (BreakerMachine.step hugeTimeout) (.closed 0) [(0, .forceOpen), (0, .canExecute)] =
        [.unit, .executable false] := by
  decide

end CircuitBreaker

end SpecDecode.Gateway
