import SpecDecode.Lib.FirstHit
import SpecDecode.Scheduler.CheckOnce
import SpecDecode.Scheduler.StopLength

/-!
# The text checks of a decoding run

`normalize` computes how many tokens of the output the tail needs. A decoding step appends the
accepted tokens of an unfinished request and checks it once. When nothing but a stop string or
a stop regex can end the request, its reason to finish after a number of steps is what the first
check of the text that succeeded has found.
-/

namespace SpecDecode.Scheduler

open FirstHit

inductive StopArg where
  | str (s : String)
  | list (l : List String)

def StopArg.strs : StopArg → List String
  | .str s => [s]
  | .list l => l

def getMaxSeqLength (parse : String → Sre.SubPattern) (regexStr : String) : Nat :=
  Sre.maxLengthFromSubpattern (parse regexStr)

/-- `SamplingParams.normalize`, where `encode` is `None` without a tokenizer. -/
def SamplingParams.normalize (sp : SamplingParams) (encode : Option (String → List Int))
    (parse : String → Sre.SubPattern) (stop stopRegex : Option StopArg) : SamplingParams :=
  let stopStrs := (stop.map StopArg.strs).getD []
  let stopRegexStrs := (stopRegex.map StopArg.strs).getD []
  let length (stopStr : String) := match encode with
    | some encode => (encode stopStr).length
    | none => stopStr.length
  { sp with
    stopStrs
    stopStrMaxLen := stopStrs.foldl (fun n stopStr => max n (length stopStr)) 0
    stopRegexStrs
    stopRegexMaxLen := stopRegexStrs.foldl (fun n regex => max n (getMaxSeqLength parse regex)) 0 }

/-- A tokenizer whose ids stand for texts that are not empty. -/
structure Vocab where
  token : Int → List Char
  token_ne_nil (t : Int) : token t ≠ []
  encode : String → List Int
  decode_encode (s : String) : String.ofList ((encode s).flatMap token) = s

namespace Vocab

variable (vocab : Vocab)

def text (ts : List Int) : List Char := ts.flatMap vocab.token

def decode (ts : List Int) : String := String.ofList (vocab.text ts)

@[simp] theorem text_append (ts us : List Int) :
    vocab.text (ts ++ us) = vocab.text ts ++ vocab.text us := List.flatMap_append

@[simp] theorem toList_decode (ts : List Int) : (vocab.decode ts).toList = vocab.text ts :=
  String.toList_ofList

theorem length_le_text (ts : List Int) : ts.length ≤ (vocab.text ts).length := by
  induction ts with
  | nil => exact Nat.le_refl 0
  | cons t ts ih =>
      have hpos := List.length_pos_of_ne_nil (vocab.token_ne_nil t)
      rw [text, List.flatMap_cons, List.length_append, List.length_cons]
      rw [text] at ih
      omega

/-- An occurrence lies in the text of the last tokens if and only if it does not begin before
them. -/
theorem infix_drop_iff {w : List Char} {ts : List Int} {n : Nat} :
    w <:+: vocab.text (ts.drop n) ↔ ∃ before after, before ++ w ++ after = vocab.text ts ∧
      (vocab.text (ts.take n)).length ≤ before.length := by
  have hsplit : vocab.text (ts.take n) ++ vocab.text (ts.drop n) = vocab.text ts := by
    rw [← text_append, List.take_append_drop]
  constructor
  · rintro ⟨before, after, h⟩
    refine ⟨vocab.text (ts.take n) ++ before, after, ?_, ?_⟩
    · rw [← hsplit, ← h]
      simp only [List.append_assoc]
    · rw [List.length_append]
      exact Nat.le_add_right _ _
  · rintro ⟨before, after, h, hlen⟩
    have hpref : vocab.text (ts.take n) <+: before := by
      refine List.prefix_of_prefix_length_le ⟨vocab.text (ts.drop n), hsplit⟩ ?_ hlen
      exact ⟨w ++ after, by rw [← h, List.append_assoc]⟩
    obtain ⟨rest, rfl⟩ := hpref
    refine ⟨rest, after, ?_⟩
    rw [← hsplit] at h
    simp only [List.append_assoc] at h ⊢
    exact List.append_cancel_left h

/-- A text that appears with a new token and has fewer characters than there are old tokens behind
the first `n` does not begin before these. -/
theorem infix_drop_of_new {w : List Char} {ts : List Int} {t : Int} {n : Nat}
    (h : w <:+: vocab.text (ts ++ [t])) (hnew : ¬ w <:+: vocab.text ts)
    (hlen : n + w.length ≤ ts.length) : w <:+: vocab.text ((ts ++ [t]).drop n) := by
  obtain ⟨before, after, h⟩ := h
  refine vocab.infix_drop_iff.mpr ⟨before, after, h, ?_⟩
  rw [List.take_append_of_le_length (by omega)]
  have hends : (vocab.text ts).length < before.length + w.length := by
    by_contra hle
    refine hnew ?_
    have hpref : before ++ w <+: vocab.text ts := by
      refine List.prefix_of_prefix_length_le ⟨after, h⟩ ?_ ?_
      · exact ⟨vocab.text [t], (vocab.text_append ts [t]).symm⟩
      · rw [List.length_append]
        exact Nat.not_lt.mp hle
    exact (List.suffix_append before w).isInfix.trans hpref.isInfix
  have hsplit : (vocab.text (ts.take n)).length + (vocab.text (ts.drop n)).length =
      (vocab.text ts).length := by
    rw [← List.length_append, ← text_append, List.take_append_drop]
  have hold := vocab.length_le_text (ts.drop n)
  rw [List.length_drop] at hold
  omega

end Vocab

/-- The tokens of the steps of a run. -/
def newTokens {σ : Type} (steps : List (Option σ × List Int)) : List Int := steps.flatMap Prod.snd

namespace Req

variable {σ : Type} (env : Env σ) (r : Req σ)

/-- A step of a request: its grammar at the check and the accepted tokens. A finished request is
skipped. -/
def decodeStep (step : Option σ × List Int) : Req σ :=
  if r.finished then r else { r with grammar := step.1 }.appendAll env step.2

def decodeRun (steps : List (Option σ × List Int)) : Req σ := steps.foldl (decodeStep env) r

def textReason : Option FinishReason := (r.checkStrBasedFinish env).bind finishedReason

/-- A new request with parameters that are normalized for its tokenizer, and steps in which only
the text can finish it. -/
structure TextRun (vocab : Vocab) (parse : String → Sre.SubPattern)
    (steps : List (Option σ × List Int)) : Prop where
  decode : env.decode = vocab.decode
  params : ∃ sp stop stopRegex,
    r.samplingParams = SamplingParams.normalize sp (some vocab.encode) parse stop stopRegex
  unfinished : r.finishedReason = none
  toFinish : r.toFinish = none
  outputIds : r.outputIds = []
  decodedText : r.decodedText = ""
  accepted : ∀ step ∈ steps, step.2 ≠ []
  length : (newTokens steps).length < r.samplingParams.maxNewTokens
  grammar : ∀ step ∈ steps, grammarTerminated env { r with grammar := step.1 } = false
  tokens : ∀ t ∈ newTokens steps, r.isStop t = false ∧ r.outsideVocab t = false

variable {env r}

theorem checkStrBasedFinish_eq_map : r.checkStrBasedFinish env =
    (r.textReason env).map fun reason => { r with finishedReason := some reason } := by
  rw [textReason, checkStrBasedFinish]
  split
  · rfl
  · cases r.samplingParams.stopRegexStrs.find? fun regex => env.search regex (r.tailStr env) with
    | none => rfl
    | some regex => rfl

theorem appendAll_of_quiet (r : Req σ) (hfin : r.finishedReason = none) (hto : r.toFinish = none)
    (hterm : r.grammarTerminated env = false) (ts : List Int)
    (hlen : r.outputIds.length + ts.length < r.samplingParams.maxNewTokens)
    (htokens : ∀ t ∈ ts, r.isStop t = false ∧ r.outsideVocab t = false) :
    r.appendAll env ts = ((r.extend ts).checkStrBasedFinish env).getD (r.extend ts) := by
  have hshort : ¬ (r.extend ts).samplingParams.maxNewTokens ≤ (r.extend ts).outputIds.length := by
    rw [show (r.extend ts).outputIds = r.outputIds ++ ts from rfl, List.length_append]
    exact Nat.not_le.mpr hlen
  have htoken : (r.extend ts).checkTokenBasedFinish ts = none := by
    rw [checkTokenBasedFinish_eq, show (r.extend ts).isStop = r.isStop from rfl,
      List.findIdx?_eq_none_iff.mpr fun t ht => (htokens t ht).1]
    rfl
  have hvocab : (r.extend ts).checkVocabBoundaryFinish ts = none := by
    rw [checkVocabBoundaryFinish, show (r.extend ts).outsideVocab = r.outsideVocab from rfl,
      List.findIdx?_eq_none_iff.mpr fun t ht => (htokens t ht).2]
    rfl
  rw [appendAll, checkFinished_eq env (show (r.extend ts).finishedReason = none from hfin)
    (show (r.extend ts).toFinish = none from hto), if_neg hshort,
    if_neg (ne_true_of_eq_false (show (r.extend ts).grammarTerminated env = false from hterm)),
    show (r.extend ts).outputIds = r.outputIds ++ ts from rfl, drop_newTokens, htoken, hvocab]
  rfl

@[simp] theorem textReason_grammar (grammar : Option σ) :
    textReason env { r with grammar } = r.textReason env := by
  have hcheck : checkStrBasedFinish env { r with grammar } =
      (r.checkStrBasedFinish env).map fun r => { r with grammar } := by
    simp only [checkStrBasedFinish, tailStr]
    split
    · rfl
    · rw [Option.map_map]
      rfl
  rw [textReason, hcheck, textReason]
  cases r.checkStrBasedFinish env with
  | none => rfl
  | some r' => rfl

theorem decodeRun_succ {steps : List (Option σ × List Int)} {k : Nat} (hk : k < steps.length) :
    r.decodeRun env (steps.take (k + 1)) =
      (r.decodeRun env (steps.take k)).decodeStep env steps[k] := by
  rw [← List.take_append_getElem hk, decodeRun, List.foldl_append]
  rfl

namespace TextRun

variable {vocab : Vocab} {parse : String → Sre.SubPattern} {steps : List (Option σ × List Int)}
  {k : Nat}

theorem newTokens_take_succ (hk : k < steps.length) :
    newTokens (steps.take (k + 1)) = newTokens (steps.take k) ++ steps[k].2 := by
  rw [← List.take_append_getElem hk, newTokens, List.flatMap_append, List.flatMap_singleton]
  rfl

private theorem length_take_le (steps : List (Option σ × List Int)) (k : Nat) :
    (newTokens (steps.take k)).length ≤ (newTokens steps).length := by
  have hsplit : newTokens (steps.take k) ++ newTokens (steps.drop k) = newTokens steps := by
    rw [newTokens, newTokens, ← List.flatMap_append, List.take_append_drop]
    rfl
  rw [← hsplit, List.length_append]
  exact Nat.le_add_right _ _

/-- A step of an unfinished request checks the text of all its tokens. -/
theorem decodeStep_eq (h : r.TextRun env vocab parse steps) (hk : k < steps.length)
    (grammar : Option σ) :
    decodeStep env { r.extend (newTokens (steps.take k)) with grammar } steps[k] =
      (((r.extend (newTokens (steps.take (k + 1)))).textReason env).map fun reason =>
        { r.extend (newTokens (steps.take (k + 1))) with
          grammar := steps[k].1
          finishedReason := some reason }).getD
        { r.extend (newTokens (steps.take (k + 1))) with grammar := steps[k].1 } := by
  have hfin : finished { r.extend (newTokens (steps.take k)) with grammar } = false := by
    show r.finishedReason.isSome = false
    rw [h.unfinished]
    rfl
  have hlen := length_take_le steps (k + 1)
  rw [newTokens_take_succ hk, List.length_append] at hlen
  have hshort := h.length
  have hout : Req.outputIds { r.extend (newTokens (steps.take k)) with grammar := steps[k].1 } =
      newTokens (steps.take k) := by
    show r.outputIds ++ _ = _
    rw [h.outputIds, List.nil_append]
  have hmem : ∀ t ∈ steps[k].2, t ∈ newTokens steps := fun t ht =>
    List.mem_flatMap.mpr ⟨steps[k], List.getElem_mem hk, ht⟩
  have hstep := appendAll_of_quiet
    { r.extend (newTokens (steps.take k)) with grammar := steps[k].1 } h.unfinished h.toFinish
    (h.grammar steps[k] (List.getElem_mem hk)) steps[k].2
    (by rw [hout]; exact Nat.lt_of_le_of_lt hlen hshort) fun t ht => h.tokens t (hmem t ht)
  have hextend : extend { r.extend (newTokens (steps.take k)) with grammar := steps[k].1 }
      steps[k].2 = { r.extend (newTokens (steps.take (k + 1))) with grammar := steps[k].1 } := by
    rw [newTokens_take_succ hk, ← extend_extend]
    rfl
  rw [decodeStep, if_neg (ne_true_of_eq_false hfin)]
  refine hstep.trans ?_
  rw [hextend, checkStrBasedFinish_eq_map, textReason_grammar]

theorem decodeRun_eq (h : r.TextRun env vocab parse steps) (hk : k ≤ steps.length) :
    (r.decodeRun env (steps.take k)).finishedReason =
        firstHit (fun j => (r.extend (newTokens (steps.take j))).textReason env) k ∧
      (firstHit (fun j => (r.extend (newTokens (steps.take j))).textReason env) k = none →
        ∃ grammar, r.decodeRun env (steps.take k) =
          { r.extend (newTokens (steps.take k)) with grammar }) := by
  induction k with
  | zero =>
      refine ⟨h.unfinished, fun _ => ⟨r.grammar, ?_⟩⟩
      show r = { r with outputIds := r.outputIds ++ [] }
      rw [List.append_nil]
  | succ k ih =>
      obtain ⟨hreason, hrun⟩ := ih (by omega)
      rw [decodeRun_succ hk]
      cases hbefore :
          firstHit (fun j => (r.extend (newTokens (steps.take j))).textReason env) k with
      | some reason =>
          rw [hbefore] at hreason
          have hfin : (r.decodeRun env (steps.take k)).finished = true := by
            rw [finished, hreason]
            rfl
          rw [decodeStep, if_pos hfin, firstHit_succ_of_some hbefore]
          exact ⟨hreason, fun hnone => absurd hnone (Option.some_ne_none reason)⟩
      | none =>
          obtain ⟨grammar, hrun⟩ := hrun hbefore
          rw [hrun, h.decodeStep_eq hk, firstHit_succ_of_none hbefore]
          cases (r.extend (newTokens (steps.take (k + 1)))).textReason env with
          | some reason => exact ⟨rfl, fun hnone => absurd hnone (Option.some_ne_none reason)⟩
          | none => exact ⟨h.unfinished, fun _ => ⟨steps[k].1, rfl⟩⟩

/-- The reason after the first steps of a run is that of the first check that succeeded. -/
theorem finishedReason_eq (h : r.TextRun env vocab parse steps) (hk : k ≤ steps.length) :
    (r.decodeRun env (steps.take k)).finishedReason =
      firstHit (fun j => (r.extend (newTokens (steps.take j))).textReason env) k :=
  (h.decodeRun_eq hk).1

end TextRun

end Req

end SpecDecode.Scheduler
