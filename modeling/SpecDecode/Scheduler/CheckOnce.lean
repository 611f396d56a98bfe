import SpecDecode.Scheduler.Req

/-!
# One check for several tokens

The overlap path appends all the tokens of a speculative step and calls `check_finished` once,
with their number. Checking after every token stops at the first one that ends the request.
The single check looks for the length limit before it looks at the tokens, and for stop tokens
before it looks at the vocabulary, so it may find a later end.
-/

namespace SpecDecode.Scheduler

namespace Req

variable {σ : Type} (env : Env σ) (r : Req σ)

/-- What the overlap path does with the accepted tokens. -/
def appendAll (ts : List Int) : Req σ := (r.extend ts).checkFinished env ts.length

/-- Append and check one token after the other until the request is finished. -/
def appendEach (r : Req σ) : List Int → Req σ
  | [] => r
  | t :: ts =>
      let r := (r.extend [t]).checkFinished env 1
      if r.finished then r else appendEach r ts

def isStop (t : Int) : Bool := !r.samplingParams.ignoreEos && r.matchedEos t

/-- A running request without stop strings. -/
structure Running (r : Req σ) : Prop where
  unfinished : r.finishedReason = none
  len : r.finishedLen = none
  strs : r.samplingParams.stopStrs = []
  regexes : r.samplingParams.stopRegexStrs = []

/-- The length limit is reached. -/
def full (n : Nat) : Bool := r.samplingParams.maxNewTokens ≤ r.outputIds.length + n

def finishToken (t : Int) (n : Nat) : Req σ :=
  { r with finishedReason := some (.matchedToken t), finishedLen := some n }

def finishVocab (offset : Nat) : Req σ :=
  { r with
    outputIds := r.withStopToken offset
    finishedReason := some (.matchedStr "NaN happened")
    finishedLen := some (offset + 1) }

/-- The reason for the end, and the output through it. -/
def status : Option FinishReason × List Int := (r.finishedReason, r.outputIdsThroughStop)

/-- The first token that ends the request, if it comes before the length limit, comes with
tokens that stay below the limit, and is a stop token or has none behind it. -/
def FirstEndFound (ts : List Int) : Prop :=
  ∀ pre t post, ts = pre ++ t :: post →
    (∀ p ∈ pre, r.isStop p = false ∧ r.outsideVocab p = false) →
    r.isStop t = true ∨ r.outsideVocab t = true → r.full (pre.length + 1) = false →
    r.full ts.length = false ∧ (r.isStop t = true ∨ ∀ p ∈ post, r.isStop p = false)

variable {env r}

theorem Running.extend (h : r.Running) (ts : List Int) : (r.extend ts).Running :=
  ⟨h.unfinished, h.len, h.strs, h.regexes⟩

@[simp]
theorem extend_extend (ts ts' : List Int) : (r.extend ts).extend ts' = r.extend (ts ++ ts') := by
  simp [Req.extend]

theorem checkTokenBasedFinish_eq (new : List Int) :
    r.checkTokenBasedFinish new = (new.findIdx? r.isStop).map fun i =>
      { r with
        finishedReason := some (.matchedToken (new.getD i 0))
        finishedLen := some (r.outputIds.length - new.length + i + 1) } := by
  unfold checkTokenBasedFinish
  by_cases hignore : r.samplingParams.ignoreEos
  · have hnone : new.findIdx? r.isStop = none := by
      rw [List.findIdx?_eq_none_iff]
      intro t _
      simp [isStop, hignore]
    rw [if_pos hignore, hnone]
    rfl
  · have hsame : r.isStop = r.matchedEos := by
      funext t
      simp [isStop, hignore]
    rw [if_neg hignore, hsame]

theorem Running.checkStrBasedFinish_eq (h : r.Running) : r.checkStrBasedFinish env = none := by
  simp [checkStrBasedFinish, h.strs, h.regexes]

theorem drop_newTokens (out ts : List Int) :
    (out ++ ts).drop ((out ++ ts).length - ts.length) = ts := by
  simp

theorem Running.appendAll_eq (h : r.Running) (hto : r.toFinish = none) (ts : List Int) :
    r.appendAll env ts =
      if r.full ts.length then (r.extend ts).finishLength
      else if r.grammarTerminated env then
        { r.extend ts with
          finishedReason := some (.matchedToken ((r.outputIds ++ ts).getLastD 0)) }
      else
        match ts.findIdx? r.isStop with
        | some i => (r.extend ts).finishToken (ts.getD i 0) (r.outputIds.length + i + 1)
        | none =>
            match ts.findIdx? r.outsideVocab with
            | some i => (r.extend ts).finishVocab (r.outputIds.length + i)
            | none => r.extend ts := by
  have hlen : (r.outputIds ++ ts).length - ts.length = r.outputIds.length := by simp
  have hcheck := checkFinished_eq env (h.extend ts).unfinished
    (show (r.extend ts).toFinish = none from hto)
    ts.length
  have hfull : r.samplingParams.maxNewTokens ≤ (r.outputIds ++ ts).length ↔ r.full ts.length := by
    simp [full]
  rw [appendAll, hcheck]
  refine if_congr hfull rfl ?_
  refine if_congr Iff.rfl rfl ?_
  rw [(h.extend ts).checkStrBasedFinish_eq,
    show (r.extend ts).outputIds = r.outputIds ++ ts from rfl, drop_newTokens,
    checkTokenBasedFinish_eq, checkVocabBoundaryFinish,
    show (r.extend ts).isStop = r.isStop from rfl,
    show (r.extend ts).outsideVocab = r.outsideVocab from rfl,
    show (r.extend ts).outputIds = r.outputIds ++ ts from rfl, hlen]
  cases ts.findIdx? r.isStop with
  | some i => rfl
  | none =>
      cases ts.findIdx? r.outsideVocab with
      | some i => rfl
      | none => rfl

theorem withStopToken_append {ts us : List Int} {offset : Nat}
    (hlt : offset < r.outputIds.length + ts.length) :
    (r.extend (ts ++ us)).withStopToken offset = (r.extend ts).withStopToken offset ++ us := by
  have hset : ∀ x, (r.outputIds ++ (ts ++ us)).set offset x =
      (r.outputIds ++ ts).set offset x ++ us := by
    intro x
    rw [← List.append_assoc]
    exact List.set_append_left _ _ (by simpa using hlt)
  unfold withStopToken
  cases hstop : r.samplingParams.stopTokenIds <;> cases heos : r.eosTokenIds <;>
    simp [Req.extend, hstop, heos, hset, List.set_append_left, hlt]

theorem finished_of_status {reason : FinishReason} {out : List Int}
    (h : r.status = (some reason, out)) : r.finished = true := by
  rw [finished, show r.finishedReason = some reason from congrArg Prod.fst h]
  rfl

theorem appendEach_cons (t : Int) (ts : List Int) : r.appendEach env (t :: ts) =
    if (r.appendAll env [t]).finished then r.appendAll env [t]
    else (r.appendAll env [t]).appendEach env ts := rfl

section Head

variable (h : r.Running) (hto : r.toFinish = none) {t : Int}

include h hto

theorem Running.status_full (env : Env σ) (t : Int) (hfull : r.full 1 = true) (ts : List Int) :
    (r.appendAll env (t :: ts)).status =
      (some (.length r.samplingParams.maxNewTokens),
        (r.outputIds ++ [t]).take r.samplingParams.maxNewTokens) := by
  have hle : r.samplingParams.maxNewTokens ≤ r.outputIds.length + 1 := by
    simpa [full] using hfull
  have hall : r.full (t :: ts).length = true := by
    simp only [full, List.length_cons, decide_eq_true_eq]
    omega
  rw [h.appendAll_eq hto, if_pos hall]
  refine Prod.ext rfl ?_
  show (r.outputIds ++ t :: ts).take r.samplingParams.maxNewTokens = _
  rw [show r.outputIds ++ t :: ts = (r.outputIds ++ [t]) ++ ts by simp]
  exact List.take_append_of_le_length (by simpa using hle)

variable (hterm : r.grammarTerminated env = false)

include hterm

/-- The first token is a stop token, and all tokens stay below the limit. -/
theorem Running.status_stop {ts : List Int} (hfull : r.full (t :: ts).length = false)
    (hstop : r.isStop t = true) :
    (r.appendAll env (t :: ts)).status = (some (.matchedToken t), r.outputIds ++ [t]) := by
  rw [h.appendAll_eq hto, if_neg (ne_true_of_eq_false hfull), if_neg (ne_true_of_eq_false hterm),
    List.findIdx?_cons, if_pos hstop]
  refine Prod.ext rfl ?_
  show (r.outputIds ++ t :: ts).take (r.outputIds.length + 0 + 1) = _
  rw [show r.outputIds ++ t :: ts = (r.outputIds ++ [t]) ++ ts by simp]
  exact List.take_left' (by simp)

/-- The first token is outside of the vocabulary, and no stop token follows. -/
theorem Running.status_vocab {ts : List Int} (hfull : r.full (t :: ts).length = false)
    (hstop : ∀ p ∈ t :: ts, r.isStop p = false) (hout : r.outsideVocab t = true) :
    (r.appendAll env (t :: ts)).status = (some (.matchedStr "NaN happened"),
      (r.extend [t]).withStopToken r.outputIds.length) := by
  rw [h.appendAll_eq hto, if_neg (ne_true_of_eq_false hfull), if_neg (ne_true_of_eq_false hterm),
    List.findIdx?_eq_none_iff.mpr hstop, List.findIdx?_cons, if_pos hout]
  refine Prod.ext rfl ?_
  show ((r.extend ([t] ++ ts)).withStopToken (r.outputIds.length + 0)).take
    (r.outputIds.length + 0 + 1) = _
  rw [withStopToken_append (by simp)]
  exact List.take_left' (by simp [withStopToken_length, Req.extend])

theorem Running.appendAll_cons {ts : List Int} (hstop : r.isStop t = false)
    (hout : r.outsideVocab t = false) :
    r.appendAll env (t :: ts) = (r.extend [t]).appendAll env ts := by
  have hext : r.extend (t :: ts) = (r.extend [t]).extend ts := (extend_extend [t] ts).symm
  have hfull : r.full (t :: ts).length = (r.extend [t]).full ts.length := by
    simp [full, Req.extend, Nat.add_comm, Nat.add_left_comm]
  have hlen : (r.extend [t]).outputIds.length = r.outputIds.length + 1 := by simp [Req.extend]
  rw [h.appendAll_eq hto, (h.extend [t]).appendAll_eq hto, ← hfull, ← hext]
  refine if_congr Iff.rfl rfl ?_
  rw [if_neg (ne_true_of_eq_false hterm),
    if_neg (show ¬ (r.extend [t]).grammarTerminated env = true from ne_true_of_eq_false hterm),
    hlen, List.findIdx?_cons, List.findIdx?_cons, hstop, hout,
    show (r.extend [t]).isStop = r.isStop from rfl,
    show (r.extend [t]).outsideVocab = r.outsideVocab from rfl]
  cases ts.findIdx? r.isStop with
  | some i =>
      show (r.extend (t :: ts)).finishToken (ts.getD i 0) (r.outputIds.length + (i + 1) + 1) =
        (r.extend (t :: ts)).finishToken (ts.getD i 0) (r.outputIds.length + 1 + i + 1)
      rw [Nat.add_assoc _ 1 i, Nat.add_comm 1 i]
  | none =>
      cases ts.findIdx? r.outsideVocab with
      | some i =>
          show (r.extend (t :: ts)).finishVocab (r.outputIds.length + (i + 1)) =
            (r.extend (t :: ts)).finishVocab (r.outputIds.length + 1 + i)
          rw [Nat.add_assoc _ 1 i, Nat.add_comm 1 i]
      | none => rfl

/-- The limit is reached, but the first token ends the request before. -/
theorem Running.status_late {ts : List Int} (hfull : r.full 1 = false)
    (hall : r.full (t :: ts).length = true) (hends : r.isStop t = true ∨ r.outsideVocab t = true) :
    (r.appendAll env (t :: ts)).status ≠ (r.appendAll env [t]).status := by
  have hlate : (r.appendAll env (t :: ts)).finishedReason =
      some (.length r.samplingParams.maxNewTokens) := by
    rw [h.appendAll_eq hto, if_pos hall]
    rfl
  intro heq
  have hreason := congrArg Prod.fst heq
  rw [show (r.appendAll env (t :: ts)).status.1 = _ from hlate] at hreason
  have hfull1 : r.full [t].length = false := hfull
  by_cases hstop : r.isStop t = true
  · rw [h.status_stop hto hterm hfull1 hstop] at hreason
    simp at hreason
  · rw [h.status_vocab hto hterm hfull1 (by simpa using hstop) (hends.resolve_left hstop)]
      at hreason
    simp at hreason

theorem Running.status_behind {ts : List Int} (hfull : r.full (t :: ts).length = false)
    (hstop : r.isStop t = false) (hout : r.outsideVocab t = true)
    (hlater : ∃ p ∈ ts, r.isStop p = true) :
    (r.appendAll env (t :: ts)).status ≠ (r.appendAll env [t]).status := by
  have hfull1 : r.full [t].length = false := by
    simp only [full, List.length_cons, decide_eq_false_iff_not] at hfull ⊢
    simp only [List.length_nil]
    omega
  obtain ⟨i, hi⟩ : ∃ i, (t :: ts).findIdx? r.isStop = some i := by
    rw [← Option.isSome_iff_exists, List.findIdx?_isSome, List.any_eq_true]
    obtain ⟨p, hp, hps⟩ := hlater
    exact ⟨p, List.mem_cons_of_mem _ hp, hps⟩
  rw [h.status_vocab hto hterm hfull1 (by simpa using hstop) hout, h.appendAll_eq hto,
    if_neg (ne_true_of_eq_false hfull), if_neg (ne_true_of_eq_false hterm), hi]
  intro heq
  have hreason := congrArg Prod.fst heq
  simp [status, finishToken] at hreason

end Head

section FirstEnd

variable {t : Int} {ts : List Int}

private theorem full_mono {m n : Nat} (hmn : m ≤ n) (hfull : r.full m = true) :
    r.full n = true := by
  simp only [full, decide_eq_true_eq] at hfull ⊢
  omega

theorem firstEndFound_of_full (hfull : r.full 1 = true) : r.FirstEndFound ts := by
  intro pre t post _ _ _ hroom
  rw [full_mono (Nat.le_add_left 1 pre.length) hfull] at hroom
  cases hroom

theorem firstEndFound_cons_of_end (hfull : r.full 1 = false)
    (hends : r.isStop t = true ∨ r.outsideVocab t = true) : r.FirstEndFound (t :: ts) ↔
      r.full (t :: ts).length = false ∧ (r.isStop t = true ∨ ∀ p ∈ ts, r.isStop p = false) := by
  constructor
  · intro hfound
    exact hfound [] t ts rfl nofun hends hfull
  · rintro ⟨hbelow, hbehind⟩ pre t' post heq hpre _ _
    cases pre with
    | nil =>
        obtain ⟨rfl, rfl⟩ := List.cons_eq_cons.mp heq
        exact ⟨hbelow, hbehind⟩
    | cons p pre =>
        obtain ⟨rfl, -⟩ := List.cons_eq_cons.mp heq
        obtain ⟨hstop, hout⟩ := hpre t List.mem_cons_self
        simp [hstop, hout] at hends

theorem firstEndFound_cons (hstop : r.isStop t = false) (hout : r.outsideVocab t = false) :
    r.FirstEndFound (t :: ts) ↔ (r.extend [t]).FirstEndFound ts := by
  have hfull : ∀ n, (r.extend [t]).full n = r.full (n + 1) := by
    intro n
    simp [full, Req.extend, Nat.add_comm, Nat.add_left_comm]
  constructor
  · intro hfound pre t' post heq hpre hends hroom
    rw [hfull] at hroom ⊢
    refine hfound (t :: pre) t' post (by rw [heq]; rfl) ?_ hends hroom
    exact List.forall_mem_cons.mpr ⟨⟨hstop, hout⟩, hpre⟩
  · intro hfound pre t' post heq hpre hends hroom
    cases pre with
    | nil =>
        obtain ⟨rfl, -⟩ := List.cons_eq_cons.mp heq
        simp [hstop, hout] at hends
    | cons p pre =>
        obtain ⟨rfl, rfl⟩ := List.cons_eq_cons.mp heq
        have htail := hfound pre t' post rfl (List.forall_mem_cons.mp hpre).2 hends
          (by rw [hfull]; exact hroom)
        rw [hfull] at htail
        exact htail

end FirstEnd

theorem Running.status_eq_iff (h : r.Running) (hto : r.toFinish = none)
    (hterm : r.grammarTerminated env = false) {ts : List Int} (hne : ts ≠ []) :
    (r.appendAll env ts).status = (r.appendEach env ts).status ↔ r.FirstEndFound ts := by
  induction ts generalizing r with
  | nil => exact absurd rfl hne
  | cons t ts ih =>
      rw [appendEach_cons]
      by_cases hfull : r.full 1 = true
      · have hfinish := h.status_full hto env t hfull []
        rw [if_pos (finished_of_status hfinish), hfinish, h.status_full hto env t hfull]
        exact iff_of_true rfl (firstEndFound_of_full hfull)
      have hfull1 : r.full [t].length = false := by simpa using hfull
      by_cases hstop : r.isStop t = true
      · have hfinish := h.status_stop hto hterm hfull1 hstop
        rw [if_pos (finished_of_status hfinish), firstEndFound_cons_of_end hfull1 (Or.inl hstop)]
        constructor
        · intro heq
          refine ⟨?_, Or.inl hstop⟩
          by_contra hall
          exact h.status_late hto hterm hfull1 (by simpa using hall) (Or.inl hstop) heq
        · rintro ⟨hall, -⟩
          rw [hfinish, h.status_stop hto hterm hall hstop]
      rw [Bool.not_eq_true] at hstop
      by_cases hout : r.outsideVocab t = true
      · have hfinish := h.status_vocab hto hterm hfull1 (by simpa using hstop) hout
        rw [if_pos (finished_of_status hfinish), firstEndFound_cons_of_end hfull1 (Or.inr hout)]
        constructor
        · intro heq
          have hall : r.full (t :: ts).length = false := by
            by_contra hall
            exact h.status_late hto hterm hfull1 (by simpa using hall) (Or.inr hout) heq
          refine ⟨hall, Or.inr fun p hp => ?_⟩
          by_contra hps
          exact h.status_behind hto hterm hall hstop hout ⟨p, hp, by simpa using hps⟩ heq
        · rintro ⟨hall, hbehind⟩
          rw [hfinish, h.status_vocab hto hterm hall ?_ hout]
          exact List.forall_mem_cons.mpr
            ⟨hstop, hbehind.resolve_left (ne_true_of_eq_false hstop)⟩
      · rw [Bool.not_eq_true] at hout
        have hone : r.appendAll env [t] = r.extend [t] := by
          rw [h.appendAll_eq hto, if_neg (ne_true_of_eq_false hfull1),
            if_neg (ne_true_of_eq_false hterm)]
          simp [hstop, hout]
        rw [hone, if_neg (by simp [finished, (h.extend [t]).unfinished]),
          h.appendAll_cons hto hterm hstop hout, firstEndFound_cons hstop hout]
        cases ts with
        | nil =>
            rw [← h.appendAll_cons hto hterm hstop hout, hone]
            exact iff_of_true rfl fun pre t post heq => by simp at heq
        | cons t' ts => exact ih (h.extend [t]) hto hterm (List.cons_ne_nil _ _)

theorem Running.status_abort (env : Env σ) (h : r.Running) {reason : FinishReason}
    (hto : r.toFinish = some reason) (ts : List Int) :
    (r.appendAll env ts).status = (some reason, r.outputIds ++ ts) := by
  rw [appendAll, checkFinished_abort env (h.extend ts).unfinished
    (show (r.extend ts).toFinish = some reason from hto)]
  simp [status, outputIdsThroughStop, Req.extend, h.len]

theorem Running.status_terminated (h : r.Running) (hto : r.toFinish = none)
    (hterm : r.grammarTerminated env = true) {ts : List Int} (hfull : r.full ts.length = false) :
    (r.appendAll env ts).status =
      (some (.matchedToken ((r.outputIds ++ ts).getLastD 0)), r.outputIds ++ ts) := by
  rw [h.appendAll_eq hto, if_neg (ne_true_of_eq_false hfull), if_pos hterm]
  simp [status, outputIdsThroughStop, Req.extend, h.len]

/-- Checking once ends a running request as checking after every token does exactly if the first
end is found, and no abort or terminated grammar ends it with more than one token. -/
theorem appendAll_status_iff (h : r.Running) {ts : List Int} (hne : ts ≠ []) :
    (r.appendAll env ts).status = (r.appendEach env ts).status ↔
      (ts.length = 1 ∨ r.toFinish = none ∧ (r.full 1 = true ∨ r.grammarTerminated env = false)) ∧
        r.FirstEndFound ts := by
  obtain ⟨t, ts, rfl⟩ := List.exists_cons_of_ne_nil hne
  by_cases hone : ts = []
  · subst hone
    have hsame : r.appendEach env [t] = r.appendAll env [t] := by
      rw [appendEach_cons]
      split
      · rfl
      · rfl
    refine iff_of_true (by rw [hsame]) ⟨Or.inl rfl, ?_⟩
    intro pre t' post heq _ _ hroom
    obtain ⟨rfl, hrest⟩ : pre = [] ∧ post = [] := by
      cases pre with
      | nil => exact ⟨rfl, (List.cons_eq_cons.mp heq).2.symm⟩
      | cons p pre => simp at heq
    subst hrest
    exact ⟨hroom, Or.inr nofun⟩
  have hshort : r.outputIds ++ t :: ts ≠ r.outputIds ++ [t] := by simpa using hone
  cases hto : r.toFinish with
  | some reason =>
      have hfinish := h.status_abort env hto [t]
      rw [appendEach_cons, if_pos (finished_of_status hfinish), hfinish, h.status_abort env hto]
      exact iff_of_false (fun heq => hshort (congrArg Prod.snd heq)) (by simp [hone])
  | none =>
      by_cases hterm : r.grammarTerminated env = true
      · by_cases hfull : r.full 1 = true
        · have hfinish := h.status_full hto env t hfull []
          rw [appendEach_cons, if_pos (finished_of_status hfinish), hfinish,
            h.status_full hto env t hfull]
          exact iff_of_true rfl ⟨Or.inr ⟨rfl, Or.inl hfull⟩, firstEndFound_of_full hfull⟩
        · have hfull1 : r.full [t].length = false := by simpa using hfull
          have hfinish := h.status_terminated hto hterm hfull1
          rw [appendEach_cons, if_pos (finished_of_status hfinish), hfinish]
          refine iff_of_false (fun heq => ?_) (by simp [hone, hterm, hfull])
          by_cases hall : r.full (t :: ts).length = true
          · have hreason := congrArg Prod.fst heq
            rw [h.appendAll_eq hto, if_pos hall] at hreason
            simp [status, finishLength] at hreason
          · rw [h.status_terminated hto hterm (by simpa using hall)] at heq
            exact hshort (congrArg Prod.snd heq)
      · have hterm' : r.grammarTerminated env = false := by simpa using hterm
        rw [h.status_eq_iff hto hterm' hne]
        exact ⟨fun hfound => ⟨Or.inr ⟨rfl, Or.inr hterm'⟩, hfound⟩, fun hfound => hfound.2⟩

/-- A request with the end token `2`. -/
def eosReq (maxNewTokens : Nat) : Req Unit where
  samplingParams := ⟨maxNewTokens, false, [], [], [], 0, 0⟩
  tokenizer := none
  eosTokenIds := [2]
  vocabSize := 10
  outputIds := []
  decodedText := ""
  grammar := none
  finishedReason := none
  finishedLen := none
  toFinish := none
  requireReasoning := false
  isReasoningOver := false
  reasoningTokens := 0

/-- No grammar and no text. -/
def plainEnv : Env Unit := ⟨fun _ _ => none, fun _ => false, fun _ => "", fun _ _ => false⟩

theorem eosReq_running (maxNewTokens : Nat) : (eosReq maxNewTokens).Running := ⟨rfl, rfl, rfl, rfl⟩

/-- Below the limit the end token in the middle is found. -/
theorem appendAll_status_eosReq :
    ((eosReq 8).appendAll plainEnv [5, 2, 7]).status =
      ((eosReq 8).appendEach plainEnv [5, 2, 7]).status :=
  (appendAll_status_iff (eosReq_running 8) (by decide)).mpr ⟨Or.inr ⟨rfl, Or.inr rfl⟩, by
    rw [firstEndFound_cons (by decide) (by decide),
      firstEndFound_cons_of_end (by decide) (Or.inl (by decide))]
    exact ⟨by decide, Or.inl (by decide)⟩⟩

/-- With the limit the output goes on behind the end token. -/
theorem appendAll_passes_eos : (eosReq 3).Running ∧
    ((eosReq 3).appendEach plainEnv [2, 5, 6]).status = (some (.matchedToken 2), [2]) ∧
    ((eosReq 3).appendAll plainEnv [2, 5, 6]).status = (some (.length 3), [2, 5, 6]) :=
  ⟨eosReq_running 3, by decide, by decide⟩

end Req

end SpecDecode.Scheduler
