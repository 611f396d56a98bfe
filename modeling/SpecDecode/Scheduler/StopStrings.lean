import SpecDecode.Scheduler.StopRun

/-!
# When a stop string is found

The tail of the output that is searched has as many tokens as the longest canonical encoding of
a stop string, or as a stop regex needs, and one more. `Covered` says that it contains a stop
string at the first step after which the output does.
-/

namespace SpecDecode.Scheduler

open FirstHit

/-- How many tokens of the output `tail_str` decodes. -/
def SamplingParams.window (sp : SamplingParams) : Nat :=
  max (sp.stopStrMaxLen + 1) (sp.stopRegexMaxLen + 1)

namespace Req

variable {σ : Type} (env : Env σ) (r : Req σ) (vocab : Vocab)
  (steps : List (Option σ × List Int))

/-- The reason names a stop string that the output of the first steps contains. -/
def StopFound (k : Nat) (reason : FinishReason) : Prop :=
  ∃ stopStr ∈ r.samplingParams.stopStrs, reason = .matchedStr stopStr ∧
    stopStr.toList <:+: vocab.text (newTokens (steps.take k))

/-- An occurrence of a stop string begins in the last tokens that `tail_str` decodes. -/
def BeginsInTail (ts : List Int) : Prop :=
  ∃ stopStr ∈ r.samplingParams.stopStrs, ∃ before after,
    before ++ stopStr.toList ++ after = vocab.text ts ∧
    (vocab.text (ts.take (ts.length - r.samplingParams.window))).length ≤ before.length

/-- At the first step after which the output contains a stop string, an occurrence begins in the
tail. -/
def Covered : Prop := ∀ k ≤ steps.length, First (r.StopFound vocab steps) k →
  r.BeginsInTail vocab (newTokens (steps.take k))

variable {env r vocab steps} {parse : String → Sre.SubPattern}

theorem TextRun.toList_tailStr (h : r.TextRun env vocab parse steps) (ts : List Int)
    (hsome : r.samplingParams.stopStrs ≠ [] ∨ r.samplingParams.stopRegexStrs ≠ []) :
    ((r.extend ts).tailStr env).toList =
      vocab.text (ts.drop (ts.length - r.samplingParams.window)) := by
  have hout : (r.extend ts).outputIds = ts := by
    show r.outputIds ++ ts = ts
    rw [h.outputIds, List.nil_append]
  have hlen (n : Nat) : ts.length - min n ts.length = ts.length - n := by omega
  have hne : ¬ (r.samplingParams.stopStrs.length = 0 ∧
      r.samplingParams.stopRegexStrs.length = 0) := by
    simpa [or_iff_not_imp_left] using hsome
  rw [tailStr, show (r.extend ts).samplingParams = r.samplingParams from rfl]
  dsimp only
  rw [if_neg hne, hout, hlen, h.decode, vocab.toList_decode]
  rfl

theorem TextRun.infix_tailStr_iff (h : r.TextRun env vocab parse steps) (ts : List Int) :
    (∃ stopStr ∈ r.samplingParams.stopStrs,
        stopStr.toList <:+: ((r.extend ts).tailStr env).toList) ↔ r.BeginsInTail vocab ts := by
  constructor
  · rintro ⟨stopStr, hmem, hin⟩
    rw [h.toList_tailStr ts (Or.inl (List.ne_nil_of_mem hmem))] at hin
    exact ⟨stopStr, hmem, vocab.infix_drop_iff.mp hin⟩
  · rintro ⟨stopStr, hmem, hbegin⟩
    refine ⟨stopStr, hmem, ?_⟩
    rw [h.toList_tailStr ts (Or.inl (List.ne_nil_of_mem hmem))]
    exact vocab.infix_drop_iff.mpr hbegin

theorem TextRun.textReason_eq (h : r.TextRun env vocab parse steps)
    (hne : ∀ stopStr ∈ r.samplingParams.stopStrs, stopStr ≠ "") (ts : List Int)
    (hregex : ∀ regex ∈ r.samplingParams.stopRegexStrs,
      env.search regex ((r.extend ts).tailStr env) = false) :
    (r.extend ts).textReason env = (r.samplingParams.stopStrs.find? fun stopStr =>
      stopStr.toList <:+: ((r.extend ts).tailStr env).toList).map .matchedStr := by
  have htext : (r.samplingParams.stopStrs.find? fun stopStr =>
      decide (stopStr.toList <:+: ((r.extend ts).tailStr env).toList ∨
        stopStr.toList <:+: r.decodedText.toList)) =
      r.samplingParams.stopStrs.find? fun stopStr =>
        stopStr.toList <:+: ((r.extend ts).tailStr env).toList := by
    rw [← List.head?_filter, ← List.head?_filter]
    refine congrArg List.head? (List.filter_congr fun stopStr hmem => ?_)
    have hnot : ¬ stopStr.toList <:+: r.decodedText.toList := by
      rw [h.decodedText]
      intro hin
      exact hne stopStr hmem (String.toList_eq_nil_iff.mp (List.infix_nil.mp hin))
    rw [decide_eq_decide, or_iff_left hnot]
  have hnone : r.samplingParams.stopRegexStrs.find? (fun regex =>
      env.search regex ((r.extend ts).tailStr env)) = none :=
    List.find?_eq_none.mpr fun regex hmem => ne_true_of_eq_false (hregex regex hmem)
  rw [textReason, checkStrBasedFinish]
  rw [show (r.extend ts).samplingParams = r.samplingParams from rfl,
    show (r.extend ts).decodedText = r.decodedText from rfl, htext, hnone]
  cases r.samplingParams.stopStrs.find? fun stopStr =>
      stopStr.toList <:+: ((r.extend ts).tailStr env).toList with
  | none => rfl
  | some stopStr => rfl

theorem newTokens_take_isPrefix {j k : Nat} (hjk : j ≤ k) :
    newTokens (steps.take j) <+: newTokens (steps.take k) :=
  (List.take_prefix_take_left hjk).flatMap Prod.snd

theorem StopFound.mono {j k : Nat} {reason : FinishReason}
    (h : r.StopFound vocab steps j reason) (hjk : j ≤ k) : r.StopFound vocab steps k reason := by
  obtain ⟨stopStr, hmem, hreason, hin⟩ := h
  exact ⟨stopStr, hmem, hreason,
    hin.trans ((newTokens_take_isPrefix hjk).flatMap vocab.token).isInfix⟩

/-- In every run in which nothing but a stop string can finish the request, it is finished with
a stop string exactly from the first step on after which the output contains one, if and only if
an occurrence begins in the tail at that step. -/
theorem stopStr_agrees_iff (h : r.TextRun env vocab parse steps)
    (hne : ∀ stopStr ∈ r.samplingParams.stopStrs, stopStr ≠ "")
    (hregex : ∀ k ≤ steps.length, ∀ regex ∈ r.samplingParams.stopRegexStrs,
      env.search regex ((r.extend (newTokens (steps.take k))).tailStr env) = false) :
    Agrees (r.StopFound vocab steps) (fun k => (r.decodeRun env (steps.take k)).finishedReason)
      steps.length ↔ r.Covered vocab steps := by
  have hreason (k : Nat) (hk : k ≤ steps.length) :=
    h.textReason_eq hne (newTokens (steps.take k)) (hregex k hk)
  have hsound : ∀ k, 0 < k → k ≤ steps.length → ∀ reason,
      (r.extend (newTokens (steps.take k))).textReason env = some reason →
        r.StopFound vocab steps k reason := by
    intro k _ hk reason hhit
    rw [hreason k hk] at hhit
    obtain ⟨stopStr, hfind, rfl⟩ := Option.map_eq_some_iff.mp hhit
    have hmem := List.mem_of_find?_eq_some hfind
    have hin := List.find?_some hfind
    rw [decide_eq_true_iff] at hin
    rw [h.toList_tailStr _ (Or.inl (List.ne_nil_of_mem hmem))] at hin
    refine ⟨stopStr, hmem, rfl, hin.trans ?_⟩
    exact ((List.drop_suffix _ _).flatMap vocab.token).isInfix
  have hhit (k : Nat) (hk : k ≤ steps.length) :
      ((r.extend (newTokens (steps.take k))).textReason env).isSome ↔
        r.BeginsInTail vocab (newTokens (steps.take k)) := by
    rw [hreason k hk, Option.isSome_map, List.find?_isSome, ← h.infix_tailStr_iff]
    simp only [decide_eq_true_eq]
  have hzero : ∀ reason, ¬ r.StopFound vocab steps 0 reason := by
    rintro reason ⟨stopStr, hmem, _, hin⟩
    exact hne stopStr hmem (String.toList_eq_nil_iff.mp (List.infix_nil.mp hin))
  rw [agrees_congr fun k hk => h.finishedReason_eq hk,
    agrees_iff hsound (fun hfound hjk => hfound.mono hjk) hzero]
  exact forall₂_congr fun k hk => imp_congr Iff.rfl (hhit k hk)

end Req

/-- A tokenizer with a token for every character and one for `abc`. -/
def abcVocab : Vocab where
  token t := if t = 0 then ['a', 'b', 'c'] else [Char.ofNat (t - 1).toNat]
  token_ne_nil t := by
    split
    · exact List.cons_ne_nil _ _
    · exact List.cons_ne_nil _ _
  encode s := if s = "abc" then [0] else s.toList.map fun c => (c.toNat : Int) + 1
  decode_encode s := by
    by_cases hs : s = "abc"
    · subst hs
      rfl
    · have hchar (c : Char) : (if (c.toNat : Int) + 1 = 0 then ['a', 'b', 'c'] else
          [Char.ofNat ((c.toNat : Int) + 1 - 1).toNat]) = [c] := by
        rw [if_neg (by omega), Int.add_sub_cancel, Int.toNat_natCast, Char.ofNat_toNat]
      rw [if_neg hs, List.flatMap_map]
      simp only [hchar, List.flatMap_singleton', String.ofList_toList]

/-- A request with stop parameters for this tokenizer. -/
def textReq (parse : String → Sre.SubPattern) (stop stopRegex : Option StopArg) : Req Unit where
  samplingParams := SamplingParams.normalize ⟨10, false, [], [], [], 0, 0⟩ (some abcVocab.encode)
    parse stop stopRegex
  tokenizer := none
  eosTokenIds := []
  vocabSize := 1000
  outputIds := []
  decodedText := ""
  grammar := none
  finishedReason := none
  finishedLen := none
  toFinish := none
  requireReasoning := false
  isReasoningOver := false
  reasoningTokens := 0

def textEnv (parse : String → Sre.SubPattern) : Env Unit where
  acceptToken s _ := some s
  isTerminated _ := false
  decode := abcVocab.decode
  search regex text := Sre.search (parse regex) text.toList

/-- Only the text can finish the request in runs with few characters. -/
theorem textRun_textReq (parse : String → Sre.SubPattern) (stop stopRegex : Option StopArg)
    {steps : List (Option Unit × List Int)}
    (haccepted : ∀ step ∈ steps, step.2 ≠ []) (hlen : (newTokens steps).length < 10)
    (htokens : ∀ t ∈ newTokens steps, 0 ≤ t ∧ t ≤ 1000) :
    (textReq parse stop stopRegex).TextRun (textEnv parse) abcVocab parse steps where
  decode := rfl
  params := ⟨_, _, _, rfl⟩
  unfinished := rfl
  toFinish := rfl
  outputIds := rfl
  decodedText := rfl
  accepted := haccepted
  length := hlen
  grammar step _ := by cases step.1 <;> rfl
  tokens t ht := by
    obtain ⟨hnonneg, hle⟩ := htokens t ht
    refine ⟨by simp [Req.isStop, Req.matchedEos, textReq, SamplingParams.normalize], ?_⟩
    have hvocab : t ≤ ((textReq parse stop stopRegex).vocabSize : Int) := hle
    rw [Req.outsideVocab, Bool.or_eq_false_iff, decide_eq_false_iff_not, decide_eq_false_iff_not]
    omega

/-- A request that stops at `abc`. -/
def abcReq : Req Unit := textReq (fun _ => []) (some (.str "abc")) none

def abcEnv : Env Unit := textEnv fun _ => []

theorem abcReq_stopStrs {stopStr : String} (h : stopStr ∈ abcReq.samplingParams.stopStrs) :
    stopStr = "abc" := List.mem_singleton.mp h

/-- The token of the stop string is found behind another one. -/
theorem stopStr_agrees_merged :
    Agrees (abcReq.StopFound abcVocab [(none, [98]), (none, [0])])
      (fun k => (abcReq.decodeRun abcEnv ([(none, [98]), (none, [0])].take k)).finishedReason)
      2 := by
  refine (Req.stopStr_agrees_iff (textRun_textReq _ _ _ (by decide) (by decide) (by decide))
    (fun _ hmem => by rw [abcReq_stopStrs hmem]; decide) fun _ _ _ hmem => by cases hmem).mpr ?_
  rintro k hk ⟨⟨reason, stopStr, hmem, -, hin⟩, -⟩
  rw [abcReq_stopStrs hmem] at hin
  match k, hk with
  | 0, _ => exact absurd hin (by decide)
  | 1, _ => exact absurd hin (by decide)
  | 2, _ => exact ⟨"abc", List.mem_singleton_self "abc", ['a'], [], by decide, by decide⟩

/-- The stop string is missed when it is spelled with three tokens. -/
theorem not_agrees_spelled :
    abcReq.TextRun abcEnv abcVocab (fun _ => []) [(none, [98]), (none, [99]), (none, [100])] ∧
      (∀ stopStr ∈ abcReq.samplingParams.stopStrs, stopStr ≠ "") ∧
      abcReq.samplingParams.stopRegexStrs = [] ∧
      ¬ Agrees (abcReq.StopFound abcVocab [(none, [98]), (none, [99]), (none, [100])])
        (fun k => (abcReq.decodeRun abcEnv
          ([(none, [98]), (none, [99]), (none, [100])].take k)).finishedReason) 3 := by
  refine ⟨textRun_textReq _ _ _ (by decide) (by decide) (by decide),
    fun _ hmem => by rw [abcReq_stopStrs hmem]; decide, rfl, fun h => ?_⟩
  have hfound : abcReq.StopFound abcVocab [(none, [98]), (none, [99]), (none, [100])] 3
      (.matchedStr "abc") := ⟨"abc", List.mem_singleton_self "abc", rfl, by decide⟩
  obtain ⟨_, hnone⟩ | ⟨reason, hreason, _⟩ := h 3 (Nat.le_refl 3)
  · exact hnone _ hfound
  · have hmissed : (abcReq.decodeRun abcEnv
        [(none, [98]), (none, [99]), (none, [100])]).finishedReason = none := by decide
    cases hmissed.symm.trans hreason

end SpecDecode.Scheduler
