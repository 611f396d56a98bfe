import SpecDecode.Scheduler.Req

/-!
# Committing the accepted tokens

After verification the accepted tokens of a request are appended one after the other, until
one of them finishes the request. There are three such loops. All of them check before the
grammar gets the token; only the one of Eagle checks again after it.

A row of `accept_index` ends with its first `-1`. A `ValueError` of the grammar ends the loop
with the request as it is then.
-/

namespace SpecDecode.Scheduler

variable {σ : Type} (env : Env σ)

namespace Req

/-- The update of the reasoning tokens that two of the loops make. -/
def countReasoning (thinkEndId : Option Int) (tokenId : Int) (r : Req σ) : Req σ :=
  match thinkEndId with
  | some thinkEndId => if r.requireReasoning then r.updateReasoningTokens tokenId thinkEndId else r
  | none => r

/-- `grammar.accept_token` if there is a grammar, `none` if it raises. -/
def acceptToken (r : Req σ) (tokenId : Int) : Option (Req σ) :=
  match r.grammar with
  | none => some r
  | some grammar => (env.acceptToken grammar tokenId).map fun grammar =>
      { r with grammar := some grammar }

end Req

/-- The loop over a row in `EagleVerifyInput.verify`: the request and the row of
`accept_index`. -/
def eagleCommit (thinkEndId : Option Int) (predict : Nat → Int) (r : Req σ) :
    List Int → Except (Req σ) (Req σ × List Int)
  | [] => .ok (r, [])
  | idx :: row =>
      if idx = -1 then .ok (r, idx :: row)
      else
        let id := predict idx.toNat
        let r := ((r.extend [id]).countReasoning thinkEndId id).checkFinished env 1
        let accepted := if r.finished then some r
          else (r.acceptToken env id).map fun r =>
            if r.grammar.isSome then r.checkFinished env 1 else r
        match accepted with
        | none => .error r
        | some r =>
            if r.finished then .ok (r, idx :: row.map fun _ => -1)
            else (eagleCommit thinkEndId predict r row).map fun (r, row) => (r, idx :: row)

/-- The loop over a row in `NgramVerifyInput._fill_requests`. -/
def ngramCommit (thinkEndId : Option Int) (predict : Nat → Int) (r : Req σ) :
    List Int → Except (Req σ) (Req σ × List Int)
  | [] => .ok (r, [])
  | idx :: row =>
      if idx = -1 then .ok (r, idx :: row)
      else
        let id := predict idx.toNat
        let r := ((r.extend [id]).countReasoning thinkEndId id).checkFinished env 1
        if r.finished then .ok (r, idx :: row.map fun _ => -1)
        else
          match r.acceptToken env id with
          | none => .error r
          | some r => (ngramCommit thinkEndId predict r row).map fun (r, row) => (r, idx :: row)

/-- The loop over the proposed tokens in `DFlashVerifyInput.verify`: the request and
`appended`. -/
def dflashCommit (r : Req σ) : List Int → Except (Req σ) (Req σ × Nat)
  | [] => .ok (r, 0)
  | tokenId :: proposed =>
      let r := (r.extend [tokenId]).checkFinished env 1
      if r.finished then .ok (r, 1)
      else
        match r.acceptToken env tokenId with
        | none => .error r
        | some r => (dflashCommit r proposed).map fun (r, appended) => (r, appended + 1)

/-- The tokens of a row of `accept_index`. -/
def rowTokens (predict : Nat → Int) (row : List Int) : List Int :=
  (row.takeWhile (· ≠ -1)).map fun idx => predict idx.toNat

namespace Req

/-- The request without the counters that `check_finished` does not read. -/
def forget (r : Req σ) : Req σ := { r with reasoningTokens := 0, isReasoningOver := false }

end Req

/-- What a loop does to a request, and how much of the path it keeps. -/
abbrev Outcome (σ : Type) := Except (Req σ) (Req σ × Nat)

/-- The outcome of a loop over a row. -/
def rowOutcome : Except (Req σ) (Req σ × List Int) → Outcome σ
  | .error r => .error r.forget
  | .ok (r, row) => .ok (r.forget, (row.takeWhile (· ≠ -1)).length)

def tokenOutcome : Except (Req σ) (Req σ × Nat) → Outcome σ
  | .error r => .error r.forget
  | .ok (r, appended) => .ok (r.forget, appended)

/-- The loop over the tokens, with or without the second check. -/
def commit (recheck : Bool) (r : Req σ) : List Int → Outcome σ
  | [] => .ok (r, 0)
  | t :: ts =>
      let r := (r.extend [t]).checkFinished env 1
      if r.finished then .ok (r, 1)
      else
        match r.acceptToken env t with
        | none => .error r
        | some r =>
            let r := if recheck then r.checkFinished env 1 else r
            if r.finished then .ok (r, 1)
            else (commit recheck r ts).map fun (r, n) => (r, n + 1)

namespace Req

def dropGrammar (r : Req σ) : Req σ := { r with grammar := none }

variable {env} {r : Req σ}

section Forget

@[simp] theorem forget_countReasoning (thinkEndId : Option Int) (t : Int) :
    (r.countReasoning thinkEndId t).forget = r.forget := by
  cases thinkEndId with
  | none => rfl
  | some thinkEndId =>
      show (if r.requireReasoning then r.updateReasoningTokens t thinkEndId else r).forget = _
      unfold updateReasoningTokens
      split
      · split
        · rfl
        · split <;> rfl
      · rfl

theorem forget_acceptToken (t : Int) :
    (r.acceptToken env t).map forget = r.forget.acceptToken env t := by
  unfold acceptToken
  cases hgrammar : r.grammar with
  | none => simp [forget, hgrammar]
  | some grammar =>
      simp only [forget, hgrammar, Option.map_map]
      rfl

@[simp] theorem forget_checkFinished (env : Env σ) (r : Req σ) (n : Nat) :
    (r.checkFinished env n).forget = r.forget.checkFinished env n := by
  have hgetD : ∀ o : Option (Req σ), (o.getD r).forget = (o.map forget).getD r.forget := by
    intro o
    cases o <;> rfl
  have hor : ∀ o o' o'' : Option (Req σ), (o <|> o' <|> o'').map forget =
      (o.map forget <|> o'.map forget <|> o''.map forget) := by
    intro o o' o''
    cases o <;> cases o' <;> rfl
  have htoken : ∀ new, (r.checkTokenBasedFinish new).map forget =
      r.forget.checkTokenBasedFinish new := by
    intro new
    unfold checkTokenBasedFinish
    rw [apply_ite (Option.map forget), Option.map_map]
    rfl
  have hvocab : ∀ new, (r.checkVocabBoundaryFinish new).map forget =
      r.forget.checkVocabBoundaryFinish new := by
    intro new
    unfold checkVocabBoundaryFinish
    rw [Option.map_map]
    rfl
  have hstr : (r.checkStrBasedFinish env).map forget = r.forget.checkStrBasedFinish env := by
    unfold checkStrBasedFinish
    simp only [show r.forget.tailStr env = r.tailStr env from rfl,
      show r.forget.samplingParams = r.samplingParams from rfl,
      show r.forget.decodedText = r.decodedText from rfl]
    split
    · rfl
    · rw [Option.map_map]
      rfl
  unfold checkFinished
  rw [apply_ite forget]
  refine if_congr Iff.rfl rfl ?_
  simp only [show r.forget.toFinish = r.toFinish from rfl]
  cases r.toFinish with
  | some reason => rfl
  | none =>
      simp only [apply_ite forget, hgetD, hor, htoken, hvocab, hstr]
      rfl

end Forget

section Checks

def checkTokens (env : Env σ) (r : Req σ) (new : List Int) : Option (Req σ) :=
  r.checkTokenBasedFinish new <|> r.checkVocabBoundaryFinish new <|> r.checkStrBasedFinish env

theorem checkTokens_finished {new : List Int} {r' : Req σ} (h : r.checkTokens env new = some r') :
    r'.finished = true := by
  have htoken : ∀ r', r.checkTokenBasedFinish new = some r' → r'.finished = true := by
    intro r' heq
    unfold checkTokenBasedFinish at heq
    split at heq
    · cases heq
    · obtain ⟨i, -, rfl⟩ := Option.map_eq_some_iff.mp heq
      rfl
  have hvocab : ∀ r', r.checkVocabBoundaryFinish new = some r' → r'.finished = true := by
    intro r' heq
    obtain ⟨i, -, rfl⟩ := Option.map_eq_some_iff.mp heq
    rfl
  have hstr : ∀ r', r.checkStrBasedFinish env = some r' → r'.finished = true := by
    intro r' heq
    unfold checkStrBasedFinish at heq
    simp only at heq
    split at heq
    · cases heq
      rfl
    · obtain ⟨regex, -, rfl⟩ := Option.map_eq_some_iff.mp heq
      rfl
  unfold checkTokens at h
  cases heq : r.checkTokenBasedFinish new with
  | some r₁ =>
      rw [heq] at h
      cases h
      exact htoken _ heq
  | none =>
      rw [heq] at h
      cases heq' : r.checkVocabBoundaryFinish new with
      | some r₂ =>
          rw [heq'] at h
          cases h
          exact hvocab _ heq'
      | none =>
          rw [heq'] at h
          exact hstr r' h

theorem outputIds_checkTokens {r' : Req σ}
    (h : r.checkTokens env (r.outputIds.drop (r.outputIds.length - 1)) = some r') :
    r'.outputIds.length = r.outputIds.length ∧
      r'.outputIds.take (r.outputIds.length - 1) = r.outputIds.take (r.outputIds.length - 1) := by
  unfold checkTokens at h
  cases htoken : r.checkTokenBasedFinish (r.outputIds.drop (r.outputIds.length - 1)) with
  | some r₁ =>
      rw [htoken] at h
      cases h
      unfold checkTokenBasedFinish at htoken
      split at htoken
      · cases htoken
      · obtain ⟨i, -, rfl⟩ := Option.map_eq_some_iff.mp htoken
        exact ⟨rfl, rfl⟩
  | none =>
      rw [htoken] at h
      cases hvocab : r.checkVocabBoundaryFinish (r.outputIds.drop (r.outputIds.length - 1)) with
      | some r₁ =>
          rw [hvocab] at h
          cases h
          obtain ⟨i, hi, rfl⟩ := Option.map_eq_some_iff.mp hvocab
          have hlt := (List.findIdx?_eq_some_iff_findIdx_eq.mp hi).1
          rw [List.length_drop] at hlt
          refine ⟨withStopToken_length _, withStopToken_take ?_⟩
          rw [List.length_drop]
          omega
      | none =>
          rw [hvocab] at h
          replace h : r.checkStrBasedFinish env = some r' := h
          unfold checkStrBasedFinish at h
          simp only at h
          split at h
          · cases h
            exact ⟨rfl, rfl⟩
          · obtain ⟨regex, -, rfl⟩ := Option.map_eq_some_iff.mp h
            exact ⟨rfl, rfl⟩

theorem isSome_checkTokens_dropGrammar (new : List Int) :
    (r.dropGrammar.checkTokens env new).isSome = (r.checkTokens env new).isSome := by
  have hor : ∀ o o' o'' : Option (Req σ), (o <|> o' <|> o'').isSome =
      (o.isSome || o'.isSome || o''.isSome) := by
    intro o o' o''
    cases o <;> cases o' <;> rfl
  have htoken : (r.dropGrammar.checkTokenBasedFinish new).isSome =
      (r.checkTokenBasedFinish new).isSome := by
    unfold checkTokenBasedFinish
    rw [apply_ite Option.isSome, apply_ite Option.isSome, Option.isSome_map, Option.isSome_map]
    rfl
  have hvocab : (r.dropGrammar.checkVocabBoundaryFinish new).isSome =
      (r.checkVocabBoundaryFinish new).isSome := by
    unfold checkVocabBoundaryFinish
    rw [Option.isSome_map, Option.isSome_map]
    rfl
  have hstr : (r.dropGrammar.checkStrBasedFinish env).isSome =
      (r.checkStrBasedFinish env).isSome := by
    unfold checkStrBasedFinish
    simp only [show r.dropGrammar.tailStr env = r.tailStr env from rfl,
      show r.dropGrammar.samplingParams = r.samplingParams from rfl,
      show r.dropGrammar.decodedText = r.decodedText from rfl]
    split
    · rfl
    · rw [Option.isSome_map, Option.isSome_map]
  rw [checkTokens, checkTokens, hor, hor, htoken, hvocab, hstr]

end Checks

theorem finished_checkFinished_eq (n : Nat) : (r.checkFinished env n).finished =
    (r.finished || r.toFinish.isSome || decide
    (r.samplingParams.maxNewTokens ≤ r.outputIds.length) ||
      r.grammarTerminated env ||
      (r.checkTokens env (r.outputIds.drop (r.outputIds.length - n))).isSome) := by
  cases hfin : r.finishedReason with
  | some reason =>
      have hfinished : r.finished = true := by rw [finished, hfin]; rfl
      rw [checkFinished, if_pos hfinished, hfinished]
      rfl
  | none =>
      have hfinished : r.finished = false := by rw [finished, hfin]; rfl
      cases hto : r.toFinish with
      | some reason =>
          rw [checkFinished_abort env hfin hto, hfinished]
          rfl
      | none =>
          rw [checkFinished_eq env hfin hto, ← checkTokens, hfinished]
          by_cases hfull : r.samplingParams.maxNewTokens ≤ r.outputIds.length
          · rw [if_pos hfull, decide_eq_true hfull]
            rfl
          · rw [if_neg hfull, decide_eq_false hfull]
            cases hterm : r.grammarTerminated env with
            | true => rfl
            | false =>
                rw [if_neg Bool.false_ne_true]
                cases hcheck : r.checkTokens env (r.outputIds.drop (r.outputIds.length - n)) with
                | some r' => exact checkTokens_finished hcheck
                | none => exact hfinished

theorem outputIds_checkFinished (env : Env σ) (r : Req σ) :
    (r.checkFinished env 1).outputIds.length = r.outputIds.length ∧
    (r.checkFinished env 1).outputIds.take (r.outputIds.length - 1) =
      r.outputIds.take (r.outputIds.length - 1) := by
  cases hfin : r.finishedReason with
  | some reason =>
      rw [checkFinished, if_pos (by rw [finished, hfin]; rfl)]
      exact ⟨rfl, rfl⟩
  | none =>
      cases hto : r.toFinish with
      | some reason =>
          rw [checkFinished_abort env hfin hto]
          exact ⟨rfl, rfl⟩
      | none =>
          rw [checkFinished_eq env hfin hto, ← checkTokens]
          split
          · exact ⟨rfl, rfl⟩
          · split
            · exact ⟨rfl, rfl⟩
            · cases hcheck : r.checkTokens env (r.outputIds.drop (r.outputIds.length - 1)) with
              | some r' => exact outputIds_checkTokens hcheck
              | none => exact ⟨rfl, rfl⟩

theorem checkFinished_eq_self {n : Nat} (h : (r.checkFinished env n).finished = false) :
    r.checkFinished env n = r := by
  rw [finished_checkFinished_eq] at h
  simp only [Bool.or_eq_false_iff, decide_eq_false_iff_not, Option.isSome_eq_false_iff,
    Option.isNone_iff_eq_none] at h
  obtain ⟨⟨⟨⟨hfin, hto⟩, hfull⟩, hterm⟩, hcheck⟩ := h
  rw [checkFinished_eq env (by simpa [finished] using hfin) hto, ← checkTokens, if_neg hfull,
    if_neg (ne_true_of_eq_false hterm), hcheck]
  rfl

theorem checkFinished_again {n : Nat} (h : (r.checkFinished env n).finished = false) :
    (r.checkFinished env n).checkFinished env n = r.checkFinished env n := by
  rw [checkFinished_eq_self h]
  exact checkFinished_eq_self h

/-- A terminated grammar finishes the request, and else the grammar does not matter. -/
theorem finished_checkFinished (n : Nat) : (r.checkFinished env n).finished =
    ((r.dropGrammar.checkFinished env n).finished || r.grammarTerminated env) := by
  rw [finished_checkFinished_eq, finished_checkFinished_eq, isSome_checkTokens_dropGrammar,
    show r.dropGrammar.grammarTerminated env = false from rfl]
  simp only [dropGrammar, finished, Bool.or_false]
  exact Bool.or_right_comm _ _ _

end Req

section Loops

variable {env} {r : Req σ} {t : Int}

open Req

theorem acceptToken_cases {r r' : Req σ} {t : Int} (h : r.acceptToken env t = some r') :
    r.grammar = none ∧ r' = r ∨ ∃ s s', r.grammar = some s ∧ env.acceptToken s t = some s' ∧
      r' = { r with grammar := some s' } := by
  unfold acceptToken at h
  split at h
  · next hnone => exact Or.inl ⟨hnone, (Option.some.inj h).symm⟩
  · next s hsome =>
      obtain ⟨s', hs', rfl⟩ := Option.map_eq_some_iff.mp h
      exact Or.inr ⟨s, s', hsome, hs', rfl⟩

theorem finished_acceptToken {r r' : Req σ} {t : Int} (h : r.acceptToken env t = some r') :
    r'.finished = r.finished := by
  rcases acceptToken_cases h with ⟨-, rfl⟩ | ⟨s, s', -, -, rfl⟩
  · rfl
  · rfl

theorem forget_step (thinkEndId : Option Int) (r : Req σ) (t : Int) :
    (((r.extend [t]).countReasoning thinkEndId t).checkFinished env 1).forget =
      (r.forget.extend [t]).checkFinished env 1 := by
  rw [forget_checkFinished, forget_countReasoning]
  rfl

theorem map_rowOutcome (idx : Int) (hidx : idx ≠ -1) (e : Except (Req σ) (Req σ × List Int)) :
    rowOutcome (e.map fun (r, row) => (r, idx :: row)) =
      (rowOutcome e).map fun (r, n) => (r, n + 1) := by
  cases e with
  | error r => rfl
  | ok p =>
      simp only [Except.map, rowOutcome]
      rw [List.takeWhile_cons_of_pos (by simpa using hidx), List.length_cons]

/-- What is left of a row behind the token that finishes the request. -/
theorem takeWhile_cut (idx : Int) (hidx : idx ≠ -1) (row : List Int) :
    ((idx :: row.map fun _ => (-1 : Int)).takeWhile (· ≠ -1)).length = 1 := by
  rw [List.takeWhile_cons_of_pos (by simpa using hidx)]
  cases row with
  | nil => rfl
  | cons i row => rfl

theorem rowTokens_cons (predict : Nat → Int) {idx : Int} (hidx : idx ≠ -1) (row : List Int) :
    rowTokens predict (idx :: row) = predict idx.toNat :: rowTokens predict row := by
  rw [rowTokens, List.takeWhile_cons_of_pos (by simpa using hidx), List.map_cons]
  rfl

theorem ngramCommit_eq (thinkEndId : Option Int) (predict : Nat → Int) (r : Req σ)
    (row : List Int) : rowOutcome (ngramCommit env thinkEndId predict r row) =
      commit env false r.forget (rowTokens predict row) := by
  induction row generalizing r with
  | nil => rfl
  | cons idx row ih =>
      unfold ngramCommit
      by_cases hidx : idx = -1
      · subst hidx
        rfl
      · rw [if_neg hidx, rowTokens_cons predict hidx, commit, ← forget_step thinkEndId r]
        simp only
        set r₁ := ((r.extend [predict idx.toNat]).countReasoning thinkEndId
          (predict idx.toNat)).checkFinished env 1
        show rowOutcome (if r₁.finished then _ else _) = if r₁.finished then _ else _
        split
        · simp only [rowOutcome, takeWhile_cut idx hidx]
        · next hfin =>
            rw [← forget_acceptToken]
            cases haccept : r₁.acceptToken env (predict idx.toNat) with
            | none => rfl
            | some r₂ =>
                have hfin₂ : r₂.finished = r₁.finished := finished_acceptToken haccept
                rw [map_rowOutcome idx hidx, ih]
                show _ = if r₂.finished then _ else _
                rw [hfin₂, if_neg hfin]
                rfl

theorem dflashCommit_eq (r : Req σ) (proposed : List Int) :
    tokenOutcome (dflashCommit env r proposed) = commit env false r.forget proposed := by
  induction proposed generalizing r with
  | nil => rfl
  | cons t proposed ih =>
      unfold dflashCommit
      rw [commit, ← forget_step none r]
      show tokenOutcome (if ((r.extend [t]).checkFinished env 1).finished then _ else _) =
        if ((r.extend [t]).checkFinished env 1).finished then _ else _
      split
      · rfl
      · next hfin =>
          rw [← forget_acceptToken]
          simp only [countReasoning]
          cases haccept : ((r.extend [t]).checkFinished env 1).acceptToken env t with
          | none => rfl
          | some r₂ =>
              have hfin₂ := finished_acceptToken haccept
              have hmap :
                tokenOutcome ((dflashCommit env r₂ proposed).map fun (r, n) => (r, n + 1)) =
                  (tokenOutcome (dflashCommit env r₂ proposed)).map fun (r, n) => (r, n + 1) := by
                cases dflashCommit env r₂ proposed <;> rfl
              show tokenOutcome _ = if r₂.finished then _ else _
              rw [hfin₂, if_neg hfin, hmap, ih]
              rfl

theorem eagleCommit_eq (thinkEndId : Option Int) (predict : Nat → Int) (r : Req σ)
    (row : List Int) : rowOutcome (eagleCommit env thinkEndId predict r row) =
      commit env true r.forget (rowTokens predict row) := by
  induction row generalizing r with
  | nil => rfl
  | cons idx row ih =>
      unfold eagleCommit
      by_cases hidx : idx = -1
      · subst hidx
        rfl
      · rw [if_neg hidx, rowTokens_cons predict hidx, commit, ← forget_step thinkEndId r]
        simp only
        set r₁ := ((r.extend [predict idx.toNat]).countReasoning thinkEndId
          (predict idx.toNat)).checkFinished env 1 with hr₁
        show _ = if r₁.finished then _ else _
        by_cases hfin : r₁.finished = true
        · simp only [if_pos hfin, rowOutcome, takeWhile_cut idx hidx]
        · rw [← forget_acceptToken, if_neg hfin, if_neg hfin]
          cases haccept : r₁.acceptToken env (predict idx.toNat) with
          | none => rfl
          | some r₂ =>
              -- without a grammar nothing has changed since the check
              have hagain : (if r₂.grammar.isSome then r₂.checkFinished env 1 else r₂) =
                  r₂.checkFinished env 1 := by
                split
                · rfl
                · next hnone =>
                    rcases acceptToken_cases haccept with ⟨-, rfl⟩ | ⟨s, s', -, -, rfl⟩
                    · exact (checkFinished_again (by simpa using hfin)).symm
                    · simp at hnone
              simp only [Option.map_some, hagain, if_true]
              rw [← forget_checkFinished]
              show rowOutcome (if (r₂.checkFinished env 1).finished then _ else _) =
                if (r₂.checkFinished env 1).finished then _ else _
              split
              · simp only [rowOutcome, takeWhile_cut idx hidx]
              · rw [map_rowOutcome idx hidx, ih]

end Loops

end SpecDecode.Scheduler
