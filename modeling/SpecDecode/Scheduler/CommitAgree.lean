import SpecDecode.Scheduler.VerifyCommit

/-!
# Where the commit loops agree

The loops differ only if a token terminates the grammar and does not finish the request by
itself: Eagle stops at it, and the other two go on to the next token, if there is one.
-/

namespace SpecDecode.Scheduler

variable {σ : Type} (env : Env σ)

/-- Accept tokens one after the other. -/
def acceptAll : σ → List Int → Option σ
  | s, [] => some s
  | s, t :: ts => (env.acceptToken s t).bind fun s => acceptAll s ts

namespace Req

variable (r : Req σ)

/-- The last token of `ts` finishes the request without its grammar. -/
def plainEnd (ts : List Int) : Bool := ((r.dropGrammar.extend ts).checkFinished env 1).finished

/-- Accepting the first `k` tokens terminates the grammar. -/
def TerminatedBy (ts : List Int) (k : Nat) : Prop :=
  ∃ s s', r.grammar = some s ∧ acceptAll env s (ts.take k) = some s' ∧ env.isTerminated s' = true

/-- The request is finished at token `i` at the latest. -/
def Ends (ts : List Int) (i : Nat) : Prop :=
  r.plainEnd env (ts.take (i + 1)) = true ∨ ∃ k, k ≤ i + 1 ∧ r.TerminatedBy env ts k

/-- A token terminates the grammar before the request is finished otherwise. -/
def TerminatesOn (ts : List Int) : Prop :=
  r.grammarTerminated env = false ∧ ∃ i, i < ts.length ∧
    (∀ k, k ≤ i → r.plainEnd env (ts.take (k + 1)) = false) ∧ r.TerminatedBy env ts (i + 1)

/-- The request after a token that did not finish it. -/
def next (t : Int) (grammar : Option σ) : Req σ := { r.extend [t] with grammar := grammar }

variable {env r} {t : Int} {ts : List Int}

theorem plainEnd_next (g : Option σ) (ts : List Int) :
    (r.next t g).plainEnd env ts = r.plainEnd env (t :: ts) := by
  simp [plainEnd, next, dropGrammar, Req.extend]

theorem finished_head : ((r.extend [t]).checkFinished env 1).finished =
    (r.plainEnd env [t] || r.grammarTerminated env) :=
  finished_checkFinished 1

theorem finished_next (env : Env σ) (r : Req σ) (t : Int) (g : Option σ) :
    ((r.next t g).checkFinished env 1).finished =
      (r.plainEnd env [t] || (r.next t g).grammarTerminated env) :=
  finished_checkFinished 1

theorem terminatedBy_succ {s s' : σ} (hs : r.grammar = some s) (hs' : env.acceptToken s t = some s')
    (k : Nat) : r.TerminatedBy env (t :: ts) (k + 1) ↔
    (r.next t (some s')).TerminatedBy env ts k := by
  constructor
  · rintro ⟨s₀, s₁, hs₀, hall, hterm⟩
    obtain rfl : s = s₀ := Option.some.inj (hs.symm.trans hs₀)
    refine ⟨s', s₁, rfl, ?_, hterm⟩
    rw [List.take_succ_cons, acceptAll, hs'] at hall
    exact hall
  · rintro ⟨s₀, s₁, hs₀, hall, hterm⟩
    obtain rfl : s' = s₀ := Option.some.inj hs₀
    refine ⟨s, s₁, hs, ?_, hterm⟩
    rw [List.take_succ_cons, acceptAll, hs']
    exact hall

theorem terminatedBy_zero : r.TerminatedBy env ts 0 ↔ r.grammarTerminated env = true := by
  unfold TerminatedBy grammarTerminated
  constructor
  · rintro ⟨s, s', hs, hall, hterm⟩
    rw [hs]
    cases hall
    exact hterm
  · intro hterm
    split at hterm
    · cases hterm
    · next s hs => exact ⟨s, s, hs, rfl, hterm⟩

theorem not_terminatedBy_of_none (hs : r.grammar = none) (k : Nat) : ¬ r.TerminatedBy env ts k := by
  rintro ⟨s, s', hs', -, -⟩
  cases hs.symm.trans hs'

theorem not_terminatedBy_of_raise {s : σ} (hs : r.grammar = some s)
    (hraise : env.acceptToken s t = none) (k : Nat) : ¬ r.TerminatedBy env (t :: ts) (k + 1) := by
  rintro ⟨s₀, s₁, hs₀, hall, -⟩
  obtain rfl : s = s₀ := Option.some.inj (hs.symm.trans hs₀)
  rw [List.take_succ_cons, acceptAll, hraise] at hall
  cases hall

inductive Head (env : Env σ) (r : Req σ) (t : Int) : Prop where
  | stops (h : ((r.extend [t]).checkFinished env 1).finished = true)
  | raises (s : σ) (hs : r.grammar = some s) (hraise : env.acceptToken s t = none)
      (hplain : r.plainEnd env [t] = false) (hterm : r.grammarTerminated env = false)
  | terminates (s s' : σ) (hs : r.grammar = some s) (hs' : env.acceptToken s t = some s')
      (hdone : env.isTerminated s' = true) (hplain : r.plainEnd env [t] = false)
      (hterm : r.grammarTerminated env = false)
  | goesOn (g : Option σ) (haccept : (r.extend [t]).acceptToken env t = some (r.next t g))
      (hterm' : (r.next t g).grammarTerminated env = false) (hplain : r.plainEnd env [t] = false)
      (hterm : r.grammarTerminated env = false)

theorem head_cases (env : Env σ) (r : Req σ) (t : Int) : r.Head env t := by
  cases hfin : ((r.extend [t]).checkFinished env 1).finished with
  | true => exact .stops hfin
  | false =>
      rw [finished_head, Bool.or_eq_false_iff] at hfin
      obtain ⟨hplain, hterm⟩ := hfin
      cases hs : r.grammar with
      | none =>
          refine .goesOn none ?_ rfl hplain hterm
          unfold acceptToken
          rw [show (r.extend [t]).grammar = none from hs]
          exact congrArg some (by simp [next, Req.extend, hs])
      | some s =>
          cases hs' : env.acceptToken s t with
          | none => exact .raises s hs hs' hplain hterm
          | some s' =>
              cases hdone : env.isTerminated s' with
              | true => exact .terminates s s' hs hs' hdone hplain hterm
              | false =>
                  refine .goesOn (some s') ?_ hdone hplain hterm
                  unfold acceptToken
                  rw [show (r.extend [t]).grammar = some s from hs]
                  exact congrArg (Option.map _) hs'

end Req

open Req

section Commit

variable {env} {r : Req σ} {t : Int} {ts : List Int} {recheck : Bool}

theorem commit_stops (h : ((r.extend [t]).checkFinished env 1).finished = true) :
    commit env recheck r (t :: ts) = .ok ((r.extend [t]).checkFinished env 1, 1) := by
  rw [commit]
  simp only [if_pos h]

/-- The first check of a token that does not finish the request. -/
theorem head_unchanged (hplain : r.plainEnd env [t] = false)
    (hterm : r.grammarTerminated env = false) :
    ((r.extend [t]).checkFinished env 1).finished = false ∧
      (r.extend [t]).checkFinished env 1 = r.extend [t] := by
  have hfin : ((r.extend [t]).checkFinished env 1).finished = false := by
    rw [finished_head, hplain, hterm]
    rfl
  exact ⟨hfin, checkFinished_eq_self hfin⟩

theorem commit_raises {s : σ} (hs : r.grammar = some s) (hraise : env.acceptToken s t = none)
    (hplain : r.plainEnd env [t] = false) (hterm : r.grammarTerminated env = false) :
    commit env recheck r (t :: ts) = .error (r.extend [t]) := by
  obtain ⟨hfin, hsame⟩ := head_unchanged hplain hterm
  have hnone : (r.extend [t]).acceptToken env t = none := by
    unfold acceptToken
    rw [show (r.extend [t]).grammar = some s from hs]
    exact congrArg (Option.map _) hraise
  rw [commit]
  simp only [if_neg (ne_true_of_eq_false hfin)]
  rw [hsame, hnone]

theorem commit_goesOn {g : Option σ}
    (haccept : (r.extend [t]).acceptToken env t = some (r.next t g))
    (hterm' : (r.next t g).grammarTerminated env = false) (hplain : r.plainEnd env [t] = false)
    (hterm : r.grammarTerminated env = false) :
    commit env recheck r (t :: ts) =
      (commit env recheck (r.next t g) ts).map fun (r, n) => (r, n + 1) := by
  obtain ⟨hfin, hsame⟩ := head_unchanged hplain hterm
  have hfin' : ((r.next t g).checkFinished env 1).finished = false := by
    rw [finished_next, hplain, hterm']
    rfl
  have hsame' := checkFinished_eq_self hfin'
  rw [hsame'] at hfin'
  rw [commit]
  simp only [if_neg (ne_true_of_eq_false hfin)]
  rw [hsame, haccept]
  simp only [hsame', ite_self, if_neg (ne_true_of_eq_false hfin')]

theorem commit_terminates (ts : List Int) {s s' : σ} (hs : r.grammar = some s)
    (hs' : env.acceptToken s t = some s')
    (hdone : env.isTerminated s' = true) (hplain : r.plainEnd env [t] = false)
    (hterm : r.grammarTerminated env = false) :
    commit env true r (t :: ts) = .ok ((r.next t (some s')).checkFinished env 1, 1) ∧
      commit env false r (t :: ts) =
        (commit env false (r.next t (some s')) ts).map fun (r, n) => (r, n + 1) := by
  obtain ⟨hfin, hsame⟩ := head_unchanged hplain hterm
  have haccept : (r.extend [t]).acceptToken env t = some (r.next t (some s')) := by
    unfold acceptToken
    rw [show (r.extend [t]).grammar = some s from hs]
    exact congrArg (Option.map _) hs'
  have hfin' : ((r.next t (some s')).checkFinished env 1).finished = true := by
    rw [finished_next, hplain]
    exact hdone
  have hopen : (r.next t (some s')).finished = false := by
    rw [hsame] at hfin
    exact hfin
  constructor
  · rw [commit]
    simp only [if_neg (ne_true_of_eq_false hfin)]
    rw [hsame, haccept]
    simp only [if_true, if_pos hfin']
  · rw [commit]
    simp only [if_neg (ne_true_of_eq_false hfin)]
    rw [hsame, haccept]
    simp only [Bool.false_eq_true, if_false, if_neg (ne_true_of_eq_false hopen)]

theorem terminatedBy_goesOn {g : Option σ}
    (haccept : (r.extend [t]).acceptToken env t = some (r.next t g)) (k : Nat) :
    r.TerminatedBy env (t :: ts) (k + 1) ↔ (r.next t g).TerminatedBy env ts k := by
  rcases acceptToken_cases haccept with ⟨hnone, heq⟩ | ⟨s, s', hs, hs', heq⟩
  · have hg : (r.next t g).grammar = none := by
      rw [heq]
      exact hnone
    exact iff_of_false (not_terminatedBy_of_none hnone _) (not_terminatedBy_of_none hg k)
  · obtain rfl : g = some s' := congrArg grammar heq
    exact terminatedBy_succ hs hs' k

theorem terminatesOn_goesOn {g : Option σ}
    (haccept : (r.extend [t]).acceptToken env t = some (r.next t g))
    (hterm' : (r.next t g).grammarTerminated env = false) (hplain : r.plainEnd env [t] = false)
    (hterm : r.grammarTerminated env = false) :
    r.TerminatesOn env (t :: ts) ↔ (r.next t g).TerminatesOn env ts := by
  constructor
  · rintro ⟨-, i, hi, hbefore, hdone⟩
    rw [terminatedBy_goesOn haccept] at hdone
    cases i with
    | zero =>
        rw [terminatedBy_zero, hterm'] at hdone
        cases hdone
    | succ i =>
        refine ⟨hterm', i, Nat.lt_of_succ_lt_succ hi, fun k hk => ?_, hdone⟩
        rw [plainEnd_next]
        exact hbefore (k + 1) (Nat.succ_le_succ hk)
  · rintro ⟨-, i, hi, hbefore, hdone⟩
    refine ⟨hterm, i + 1, Nat.succ_lt_succ hi, fun k hk => ?_,
      (terminatedBy_goesOn haccept _).mpr hdone⟩
    cases k with
    | zero => exact hplain
    | succ k =>
        have htail := hbefore k (Nat.le_of_succ_le_succ hk)
        rw [plainEnd_next] at htail
        exact htail

theorem map_succ_eq_ok {e : Outcome σ} {r' : Req σ} {n : Nat}
    (h : e.map (fun (r, n) => (r, n + 1)) = .ok (r', n)) : ∃ m, e = .ok (r', m) ∧ n = m + 1 := by
  cases e with
  | error r => cases h
  | ok p =>
      cases h
      exact ⟨p.2, rfl, rfl⟩

theorem map_succ_inj {e e' : Outcome σ}
    (h : e.map (fun (r, n) => (r, n + 1)) = e'.map fun (r, n) => (r, n + 1)) : e = e' := by
  cases e with
  | error r =>
      cases e' with
      | error r' =>
          cases h
          rfl
      | ok p' => cases h
  | ok p =>
      have hmap : e'.map (fun (r, n) => (r, n + 1)) = .ok (p.1, p.2 + 1) := h.symm
      obtain ⟨m, rfl, hm⟩ := map_succ_eq_ok hmap
      obtain rfl : p.2 = m := Nat.succ.inj hm
      rfl

theorem commit_eq_zero {r' : Req σ} (h : commit env recheck r ts = .ok (r', 0)) :
    ts = [] ∧ r' = r := by
  cases ts with
  | nil =>
      cases h
      exact ⟨rfl, rfl⟩
  | cons t ts =>
      cases head_cases env r t with
      | stops hstops =>
          rw [commit_stops hstops] at h
          cases h
      | raises s hs hraise hplain hterm =>
          rw [commit_raises hs hraise hplain hterm] at h
          cases h
      | terminates s s' hs hs' hdone hplain hterm =>
          obtain ⟨htrue, hfalse⟩ := commit_terminates ts hs hs' hdone hplain hterm
          cases recheck with
          | true =>
              rw [htrue] at h
              cases h
          | false =>
              rw [hfalse] at h
              obtain ⟨m, -, hm⟩ := map_succ_eq_ok h
              cases hm
      | goesOn g haccept hterm' hplain hterm =>
          rw [commit_goesOn haccept hterm' hplain hterm] at h
          obtain ⟨m, -, hm⟩ := map_succ_eq_ok h
          cases hm

/-- The loops agree exactly if no token terminates the grammar. -/
theorem commit_eq_iff : commit env true r ts = commit env false r ts ↔ ¬ r.TerminatesOn env ts := by
  induction ts generalizing r with
  | nil =>
      refine iff_of_true rfl ?_
      rintro ⟨-, i, hi, -⟩
      cases hi
  | cons t ts ih =>
      cases head_cases env r t with
      | stops h =>
          refine iff_of_true (by rw [commit_stops h, commit_stops h]) ?_
          rintro ⟨hterm, i, -, hbefore, -⟩
          have hplain : r.plainEnd env [t] = false := hbefore 0 (Nat.zero_le _)
          rw [finished_head, hplain, hterm] at h
          cases h
      | raises s hs hraise hplain hterm =>
          refine iff_of_true ?_ ?_
          · rw [commit_raises hs hraise hplain hterm, commit_raises hs hraise hplain hterm]
          · rintro ⟨-, i, -, -, hdone⟩
            exact not_terminatedBy_of_raise hs hraise i hdone
      | terminates s s' hs hs' hdone hplain hterm =>
          refine iff_of_false (fun heq => ?_) (not_not.mpr ?_)
          · obtain ⟨htrue, hfalse⟩ := commit_terminates ts hs hs' hdone hplain hterm
            rw [htrue, hfalse] at heq
            obtain ⟨m, hzero, hm⟩ := map_succ_eq_ok heq.symm
            obtain rfl : m = 0 := (Nat.succ.inj hm).symm
            -- Eagle has finished the request, the other loop has not
            have hsame := (commit_eq_zero hzero).2
            have hfin := finished_next env r t (some s')
            rw [hsame, hplain, show (r.next t (some s')).grammarTerminated env = true from hdone,
              show (r.next t (some s')).finished = (r.extend [t]).finished from rfl] at hfin
            have hopen := (head_unchanged hplain hterm).1
            rw [(head_unchanged hplain hterm).2, hfin] at hopen
            cases hopen
          · refine ⟨hterm, 0, Nat.zero_lt_succ _, fun k hk => ?_, ?_⟩
            · obtain rfl : k = 0 := Nat.le_zero.mp hk
              exact hplain
            · rw [terminatedBy_succ hs hs', terminatedBy_zero]
              exact hdone
      | goesOn g haccept hterm' hplain hterm =>
          rw [commit_goesOn haccept hterm' hplain hterm, commit_goesOn haccept hterm' hplain hterm,
            terminatesOn_goesOn haccept hterm' hplain hterm, ← ih]
          exact ⟨map_succ_inj, fun heq => by rw [heq]⟩

end Commit

/-- The path is taken through the first token that finishes the request, and no further. The
last token may have been replaced by a stop token. -/
structure FirstEnd (env : Env σ) (r : Req σ) (ts : List Int) (r' : Req σ) (n : Nat) : Prop where
  le : n ≤ ts.length
  len : r'.outputIds.length = r.outputIds.length + n
  kept : r'.outputIds.take (r.outputIds.length + n - 1) =
    (r.outputIds ++ ts).take (r.outputIds.length + n - 1)
  first : ∀ i, i + 1 < n → ¬ r.Ends env ts i
  ends : r'.finished = true → 0 < n ∧ r.Ends env ts (n - 1)
  rest : r'.finished = false → n = ts.length ∧ ∀ i, i < n → ¬ r.Ends env ts i

section FirstEnd

variable {env} {r : Req σ} {t : Int} {ts : List Int}

theorem ends_succ {g : Option σ} (haccept : (r.extend [t]).acceptToken env t = some (r.next t g))
    (hterm : r.grammarTerminated env = false) (i : Nat) :
    r.Ends env (t :: ts) (i + 1) ↔ (r.next t g).Ends env ts i := by
  unfold Ends
  rw [plainEnd_next, List.take_succ_cons]
  refine or_congr Iff.rfl ?_
  constructor
  · rintro ⟨k, hk, hdone⟩
    cases k with
    | zero =>
        rw [terminatedBy_zero, hterm] at hdone
        cases hdone
    | succ k => exact ⟨k, Nat.le_of_succ_le_succ hk, (terminatedBy_goesOn haccept k).mp hdone⟩
  · rintro ⟨k, hk, hdone⟩
    exact ⟨k + 1, Nat.succ_le_succ hk, (terminatedBy_goesOn haccept k).mpr hdone⟩

theorem not_ends_zero (ts : List Int) {g : Option σ}
    (haccept : (r.extend [t]).acceptToken env t = some (r.next t g))
    (hterm' : (r.next t g).grammarTerminated env = false) (hplain : r.plainEnd env [t] = false)
    (hterm : r.grammarTerminated env = false) : ¬ r.Ends env (t :: ts) 0 := by
  rintro (hend | ⟨k, hk, hdone⟩)
  · rw [show (t :: ts).take (0 + 1) = [t] from rfl, hplain] at hend
    cases hend
  · cases k with
    | zero =>
        rw [terminatedBy_zero, hterm] at hdone
        cases hdone
    | succ k =>
        obtain rfl : k = 0 := by omega
        rw [terminatedBy_goesOn haccept, terminatedBy_zero, hterm'] at hdone
        cases hdone

private theorem firstEnd_one {r₁ : Req σ} (hout : r₁.outputIds = r.outputIds ++ [t])
    (hfin : (r₁.checkFinished env 1).finished = true) (hend : r.Ends env (t :: ts) 0) :
    FirstEnd env r (t :: ts) (r₁.checkFinished env 1) 1 := by
  obtain ⟨hlen, htake⟩ := outputIds_checkFinished env r₁
  have hlen₁ : r₁.outputIds.length = r.outputIds.length + 1 := by simp [hout]
  refine ⟨by simp, by rw [hlen, hlen₁], ?_, fun i hi => by omega, fun _ => ⟨Nat.one_pos, hend⟩, ?_⟩
  · rw [hlen₁] at htake
    rw [htake, hout]
    simp
  · intro hopen
    rw [hfin] at hopen
    cases hopen

/-- The loop with the second check stops at the first token that finishes the request. -/
theorem commit_firstEnd (hopen : r.finished = false) {r' : Req σ} {n : Nat}
    (h : commit env true r ts = .ok (r', n)) : FirstEnd env r ts r' n := by
  induction ts generalizing r n with
  | nil =>
      cases h
      refine ⟨Nat.le_refl _, rfl, by simp, fun i hi => by omega, fun hfin => ?_,
        fun _ => ⟨rfl, fun i hi => by omega⟩⟩
      rw [hopen] at hfin
      cases hfin
  | cons t ts ih =>
      cases head_cases env r t with
      | stops hstops =>
          rw [commit_stops hstops] at h
          cases h
          refine firstEnd_one rfl hstops ?_
          rw [finished_head, Bool.or_eq_true] at hstops
          rcases hstops with hplain | hterm
          · exact Or.inl hplain
          · exact Or.inr ⟨0, Nat.zero_le _, terminatedBy_zero.mpr hterm⟩
      | raises s hs hraise hplain hterm =>
          rw [commit_raises hs hraise hplain hterm] at h
          cases h
      | terminates s s' hs hs' hdone hplain hterm =>
          rw [(commit_terminates _ hs hs' hdone hplain hterm).1] at h
          cases h
          refine firstEnd_one rfl ?_ (Or.inr ⟨1, Nat.le_refl _, ?_⟩)
          · rw [finished_next, hplain]
            exact hdone
          · rw [terminatedBy_succ hs hs', terminatedBy_zero]
            exact hdone
      | goesOn g haccept hterm' hplain hterm =>
          rw [commit_goesOn haccept hterm' hplain hterm] at h
          obtain ⟨m, hm, rfl⟩ := map_succ_eq_ok h
          have htail := ih (r := r.next t g) hopen hm
          have hlen : (r.next t g).outputIds.length = r.outputIds.length + 1 := by
            simp [Req.next, Req.extend]
          have hout : (r.next t g).outputIds ++ ts = r.outputIds ++ t :: ts := by
            simp [Req.next, Req.extend]
          have hzero := not_ends_zero ts haccept hterm' hplain hterm
          refine ⟨Nat.succ_le_succ htail.le, by rw [htail.len, hlen]; omega, ?_, ?_, ?_, ?_⟩
          · have hkept := htail.kept
            rw [hlen, hout, Nat.add_right_comm] at hkept
            exact hkept
          · intro i hi
            cases i with
            | zero => exact hzero
            | succ i =>
                rw [ends_succ haccept hterm]
                exact htail.first i (Nat.lt_of_succ_lt_succ hi)
          · intro hfin
            obtain ⟨hpos, hend⟩ := htail.ends hfin
            refine ⟨Nat.succ_pos m, ?_⟩
            obtain ⟨k, rfl⟩ : ∃ k, m = k + 1 := ⟨m - 1, by omega⟩
            exact (ends_succ haccept hterm k).mpr hend
          · intro hfin
            obtain ⟨hall, hnone⟩ := htail.rest hfin
            refine ⟨by simp [hall], fun i hi => ?_⟩
            cases i with
            | zero => exact hzero
            | succ i =>
                rw [ends_succ haccept hterm]
                exact hnone i (Nat.lt_of_succ_lt_succ hi)

@[simp] theorem plainEnd_forget (ts : List Int) : r.forget.plainEnd env ts = r.plainEnd env ts := by
  have hforget := forget_checkFinished env (r.dropGrammar.extend ts) 1
  exact (congrArg finished hforget).symm

theorem FirstEnd.of_forget {r' : Req σ} {n : Nat} (h : FirstEnd env r.forget ts r' n) :
    FirstEnd env r ts r' n := by
  have hends : ∀ i, r.forget.Ends env ts i ↔ r.Ends env ts i := by
    intro i
    rw [Ends, plainEnd_forget]
    rfl
  exact
    { le := h.le
      len := h.len
      kept := h.kept
      first := fun i hi => (hends i).not.mp (h.first i hi)
      ends := fun hfin => ⟨(h.ends hfin).1, (hends _).mp (h.ends hfin).2⟩
      rest := fun hfin => ⟨(h.rest hfin).1, fun i hi => (hends i).not.mp ((h.rest hfin).2 i hi)⟩ }

end FirstEnd

/-- The three loops do the same to a request, and stop at the first token that finishes it. -/
structure CommitsAgree (env : Env σ) (thinkEndId : Option Int) (predict : Nat → Int) (r : Req σ)
    (row : List Int) : Prop where
  ngram : rowOutcome (ngramCommit env thinkEndId predict r row) =
    rowOutcome (eagleCommit env thinkEndId predict r row)
  dflash : tokenOutcome (dflashCommit env r (rowTokens predict row)) =
    rowOutcome (eagleCommit env thinkEndId predict r row)
  firstEnd : ∀ r' n, rowOutcome (eagleCommit env thinkEndId predict r row) = .ok (r', n) →
    FirstEnd env r (rowTokens predict row) r' n

/-- For a request that is not finished the three loops agree exactly on the rows whose tokens do not
terminate its grammar. -/
theorem commitsAgree_iff {env : Env σ} {r : Req σ} (hopen : r.finished = false)
    (thinkEndId : Option Int) (predict : Nat → Int) (row : List Int) :
    CommitsAgree env thinkEndId predict r row ↔ ¬ r.TerminatesOn env (rowTokens predict row) := by
  have hsame : r.forget.TerminatesOn env (rowTokens predict row) ↔
      r.TerminatesOn env (rowTokens predict row) := by
    simp only [TerminatesOn, plainEnd_forget]
    rfl
  rw [← hsame, ← commit_eq_iff, ← eagleCommit_eq thinkEndId, ← ngramCommit_eq thinkEndId]
  constructor
  · intro hagree
    exact hagree.ngram.symm
  · intro heq
    refine ⟨heq.symm, ?_, fun r' n hok => ?_⟩
    · rw [dflashCommit_eq, heq, ngramCommit_eq]
    · rw [eagleCommit_eq] at hok
      exact (commit_firstEnd (r := r.forget) hopen hok).of_forget

/-- A grammar that counts down to its end. -/
def countdownEnv : Env Nat where
  acceptToken s _ := if s = 0 then none else some (s - 1)
  isTerminated s := s = 0
  decode _ := ""
  search _ _ := false

/-- A request whose grammar takes `s` tokens. -/
def countdownReq (s : Nat) : Req Nat where
  samplingParams := ⟨8, false, [], [], [], 0, 0⟩
  tokenizer := none
  eosTokenIds := [2]
  vocabSize := 10
  outputIds := []
  decodedText := ""
  grammar := some s
  finishedReason := none
  finishedLen := none
  toFinish := none
  requireReasoning := false
  isReasoningOver := false
  reasoningTokens := 0

/-- The end token comes before the end of the grammar. -/
theorem commitsAgree_countdown :
    CommitsAgree countdownEnv none (fun x => [5, 2, 7].getD x 0) (countdownReq 3) [0, 1, 2, -1] :=
  (commitsAgree_iff (by decide) _ _ _).mpr fun ⟨_, i, hi, hbefore, hdone⟩ => by
    match i, hi with
    | 0, _ =>
        obtain ⟨s, s', hs, hall, hterm⟩ := hdone
        cases hs
        cases hall
        exact absurd hterm (by decide)
    | 1, _ => exact absurd (hbefore 1 (Nat.le_refl _)) (by decide)
    | 2, _ => exact absurd (hbefore 1 (by decide)) (by decide)

/-- The first token terminates the grammar: Eagle stops, Ngram and DFlash append one more. -/
theorem commits_disagree_countdown :
    rowOutcome (eagleCommit countdownEnv none (fun x => [5, 6].getD x 0) (countdownReq 1) [0, 1]) =
      .ok ({ countdownReq 0 with
        outputIds := [5], finishedReason := some (.matchedToken 5) }, 1) ∧
    rowOutcome (ngramCommit countdownEnv none (fun x => [5, 6].getD x 0) (countdownReq 1) [0, 1]) =
      .ok ({ countdownReq 0 with
        outputIds := [5, 6], finishedReason := some (.matchedToken 6) }, 2) ∧
    tokenOutcome (dflashCommit countdownEnv (countdownReq 1) [5, 6]) =
      .ok ({ countdownReq 0 with
        outputIds := [5, 6], finishedReason := some (.matchedToken 6) }, 2) := by
  decide

end SpecDecode.Scheduler
