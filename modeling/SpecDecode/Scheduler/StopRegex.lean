import SpecDecode.Lib.LinkSums
import SpecDecode.Scheduler.StopStrings

/-!
# The look-back of a stop regex suffices

A match that appears with the last token has all of its characters in that token and as many
tokens before it as the match has further characters, so the tail contains it.
-/

namespace SpecDecode.Scheduler

open FirstHit

namespace Req

variable {σ : Type} (r : Req σ) (vocab : Vocab) (parse : String → Sre.SubPattern)
  (steps : List (Option σ × List Int))

/-- The reason names a stop regex that matches in the output of the first steps. -/
def RegexFound (k : Nat) (reason : FinishReason) : Prop :=
  0 < k ∧ ∃ regex ∈ r.samplingParams.stopRegexStrs, reason = .matchedRegex regex ∧
    ∃ w ∈ Sre.lang (parse regex), w <:+: vocab.text (newTokens (steps.take k))

variable {r vocab parse steps} {env : Env σ}

theorem RegexFound.mono {j k : Nat} {reason : FinishReason}
    (h : r.RegexFound vocab parse steps j reason) (hjk : j ≤ k) :
    r.RegexFound vocab parse steps k reason := by
  obtain ⟨hpos, regex, hmem, hreason, w, hw, hin⟩ := h
  exact ⟨Nat.lt_of_lt_of_le hpos hjk, regex, hmem, hreason, w, hw,
    hin.trans ((newTokens_take_isPrefix hjk).flatMap vocab.token).isInfix⟩

theorem TextRun.maxSeqLength_lt_window (h : r.TextRun env vocab parse steps) {regex : String}
    (hmem : regex ∈ r.samplingParams.stopRegexStrs) :
    Sre.maxLengthFromSubpattern (parse regex) < r.samplingParams.window := by
  obtain ⟨sp, stop, stopRegex, hparams⟩ := h.params
  rw [hparams] at hmem ⊢
  have hle := ((LinkSums.le_foldl_max _ (getMaxSeqLength parse) 0 _).mp (Nat.le_refl _)).2
    regex hmem
  exact Nat.lt_of_lt_of_le (Nat.lt_succ_of_le hle) (Nat.le_max_right _ _)

theorem TextRun.textReason_regex (h : r.TextRun env vocab parse steps) (ts : List Int)
    (hstr : ∀ stopStr ∈ r.samplingParams.stopStrs, ¬ stopStr.toList <:+: vocab.text ts) :
    (r.extend ts).textReason env = (r.samplingParams.stopRegexStrs.find? fun regex =>
      env.search regex ((r.extend ts).tailStr env)).map .matchedRegex := by
  have hnone : r.samplingParams.stopStrs.find? (fun stopStr =>
      decide (stopStr.toList <:+: ((r.extend ts).tailStr env).toList ∨
        stopStr.toList <:+: r.decodedText.toList)) = none := by
    refine List.find?_eq_none.mpr fun stopStr hmem => ?_
    rw [decide_eq_true_iff, h.toList_tailStr ts (Or.inl (List.ne_nil_of_mem hmem)), h.decodedText]
    rintro (hin | hin)
    · refine hstr stopStr hmem (hin.trans ?_)
      exact ((List.drop_suffix _ _).flatMap vocab.token).isInfix
    · refine hstr stopStr hmem (hin.trans ?_)
      exact (List.nil_prefix).isInfix
  rw [textReason, checkStrBasedFinish]
  rw [show (r.extend ts).samplingParams = r.samplingParams from rfl,
    show (r.extend ts).decodedText = r.decodedText from rfl, hnone]
  cases r.samplingParams.stopRegexStrs.find? fun regex =>
      env.search regex ((r.extend ts).tailStr env) with
  | none => rfl
  | some regex => rfl

/-- One token a step. -/
def OneToken (steps : List (Option σ × List Int)) : Prop := ∀ step ∈ steps, step.2.length = 1

theorem OneToken.length_take (h : OneToken steps) {k : Nat} (hk : k ≤ steps.length) :
    (newTokens (steps.take k)).length = k := by
  induction k with
  | zero => rfl
  | succ k ih =>
      rw [TextRun.newTokens_take_succ hk, List.length_append, ih (by omega),
        h steps[k] (List.getElem_mem hk)]

/-- A match that the output of the first `k` steps contains for the first time lies in the tail. -/
theorem TextRun.infix_tail_of_first (h : r.TextRun env vocab parse steps) (hone : OneToken steps)
    (hshort : steps.length < Sre.maxLen) {k : Nat} (hk : k ≤ steps.length) {regex : String}
    (hmem : regex ∈ r.samplingParams.stopRegexStrs) {w : List Char}
    (hw : w ∈ Sre.lang (parse regex)) (hin : w <:+: vocab.text (newTokens (steps.take k)))
    (hfirst : ∀ j < k, ∀ reason, ¬ r.RegexFound vocab parse steps j reason) :
    w <:+: vocab.text ((newTokens (steps.take k)).drop (k - r.samplingParams.window)) := by
  have hwindow := h.maxSeqLength_lt_window hmem
  by_cases hall : k ≤ r.samplingParams.window
  · rw [Nat.sub_eq_zero_of_le hall]
    exact hin
  · obtain ⟨j, rfl⟩ : ∃ j, k = j + 1 := ⟨k - 1, by omega⟩
    have hw : w.length ≤ Sre.maxLengthFromSubpattern (parse regex) := by
      obtain hmax | hbound := Sre.covers (parse regex)
      · omega
      · exact hbound w hw
    have hlen := hone.length_take (k := j) (by omega)
    obtain ⟨t, ht⟩ := List.length_eq_one_iff.mp (hone steps[j] (List.getElem_mem hk))
    rw [newTokens_take_succ hk, ht] at hin ⊢
    refine vocab.infix_drop_of_new hin (fun hold => ?_) (by omega)
    exact hfirst j (Nat.lt_succ_self j) (.matchedRegex regex)
      ⟨by omega, regex, hmem, rfl, w, ‹w ∈ Sre.lang (parse regex)›, hold⟩

/-- The look-back of every plain expression covers its matches unless it is at least `MAX_LEN`.
In every run of fewer than `MAX_LEN` tokens, one a step, in which nothing but a stop regex can
finish the request, it is finished with a stop regex exactly from the first step on after which
one matches in the output. -/
theorem lookback_sufficient :
    (∀ p : Sre.SubPattern, Sre.plain p = true → Sre.maxLen ≤ Sre.maxLengthFromSubpattern p ∨
      ∀ w ∈ Sre.lang p, w.length ≤ Sre.maxLengthFromSubpattern p) ∧
    ∀ {σ : Type} {env : Env σ} {r : Req σ} {vocab : Vocab} {parse : String → Sre.SubPattern}
      {steps : List (Option σ × List Int)}, r.TextRun env vocab parse steps → OneToken steps →
      steps.length < Sre.maxLen →
      (∀ regex text, Sre.plain (parse regex) = true →
        env.search regex text = Sre.search (parse regex) text.toList) →
      (∀ regex ∈ r.samplingParams.stopRegexStrs, Sre.plain (parse regex) = true) →
      (∀ stopStr ∈ r.samplingParams.stopStrs,
        ¬ stopStr.toList <:+: vocab.text (newTokens steps)) →
      Agrees (r.RegexFound vocab parse steps)
        (fun k => (r.decodeRun env (steps.take k)).finishedReason) steps.length := by
  refine ⟨fun p _ => Sre.covers p, ?_⟩
  intro σ env r vocab parse steps h hone hshort hsearch hplain hstr
  have hreason (k : Nat) := h.textReason_regex (newTokens (steps.take k)) fun stopStr hmem hin =>
    hstr stopStr hmem (hin.trans
      (((List.take_prefix k steps).flatMap Prod.snd).flatMap vocab.token).isInfix)
  have htail (k : Nat) (hk : k ≤ steps.length) {regex : String}
      (hmem : regex ∈ r.samplingParams.stopRegexStrs) :
      env.search regex ((r.extend (newTokens (steps.take k))).tailStr env) = true ↔
        ∃ w ∈ Sre.lang (parse regex),
          w <:+: vocab.text ((newTokens (steps.take k)).drop (k - r.samplingParams.window)) := by
    rw [hsearch regex _ (hplain regex hmem), Sre.search_iff,
      h.toList_tailStr _ (Or.inr (List.ne_nil_of_mem hmem)), hone.length_take hk]
  have hsound : ∀ k, 0 < k → k ≤ steps.length → ∀ reason,
      (r.extend (newTokens (steps.take k))).textReason env = some reason →
        r.RegexFound vocab parse steps k reason := by
    intro k hpos hk reason hhit
    rw [hreason k] at hhit
    obtain ⟨regex, hfind, rfl⟩ := Option.map_eq_some_iff.mp hhit
    have hmem := List.mem_of_find?_eq_some hfind
    have hmatch : env.search regex ((r.extend (newTokens (steps.take k))).tailStr env) = true := by
      simpa using List.find?_some hfind
    obtain ⟨w, hw, hin⟩ := (htail k hk hmem).mp hmatch
    refine ⟨hpos, regex, hmem, rfl, w, hw, hin.trans ?_⟩
    exact ((List.drop_suffix _ _).flatMap vocab.token).isInfix
  rw [agrees_congr fun k hk => h.finishedReason_eq hk,
    agrees_iff hsound (fun hfound hjk => hfound.mono hjk) fun reason hfound => by
      exact absurd hfound.1 (Nat.lt_irrefl 0)]
  intro k hk ⟨⟨reason, _, regex, hmem, _, w, hw, hin⟩, hfirst⟩
  have hcovered := h.infix_tail_of_first hone hshort hk hmem hw hin hfirst
  rw [hreason k, Option.isSome_map, List.find?_isSome]
  exact ⟨regex, hmem, (htail k hk hmem).mpr ⟨w, hw, hcovered⟩⟩

end Req

/-- The expression `ab?`. -/
def optionalB : String → Sre.SubPattern := fun _ =>
  [.literal 'a', .maxRepeat 0 (some 1) [.literal 'b']]

/-- The regex is found after the second token. -/
theorem lookback_sufficient_optionalB :
    Agrees ((textReq optionalB none (some (.str "ab?"))).RegexFound abcVocab optionalB
        [(none, [100]), (none, [98])])
      (fun k => ((textReq optionalB none (some (.str "ab?"))).decodeRun (textEnv optionalB)
        ([(none, [100]), (none, [98])].take k)).finishedReason) 2 :=
  Req.lookback_sufficient.2 (textRun_textReq optionalB none (some (.str "ab?")) (by decide)
    (by decide) (by decide)) (by unfold Req.OneToken; decide) (by decide) (fun _ _ _ => rfl)
    (fun _ _ => rfl) fun _ hmem => by cases hmem

end SpecDecode.Scheduler
