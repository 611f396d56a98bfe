import Mathlib.Data.List.Induction
import Mathlib.Logic.Function.Iterate

/-!
# Rollback of a reasoning grammar

`ReasonerGrammarObject` puts a thinking phase before a grammar. It counts the tokens of both
phases, and takes tokens back by its counters alone. The inner grammar is an `XGrammarGrammar`
whose matcher runs an automaton and keeps the states it came from; it ignores what comes after its
end. The states the matcher came from are part of its state, since a later rollback reads them.
-/

namespace SpecDecode.Constrained

structure CompiledGrammar (Q M : Type) where
  next : Q → Nat → Option Q
  terminated : Q → Bool
  fillNextTokenBitmask : Q → M → Nat → M

structure GrammarMatcher (Q : Type) where
  state : Q
  past : List Q
deriving DecidableEq

namespace GrammarMatcher

variable {Q M : Type} (ctx : CompiledGrammar Q M)

def acceptToken (m : GrammarMatcher Q) (token : Nat) : Option (GrammarMatcher Q) :=
  (ctx.next m.state token).map fun q => ⟨q, m.state :: m.past⟩

def back (m : GrammarMatcher Q) : Option (GrammarMatcher Q) :=
  match m.past with
  | [] => none
  | q :: past => some ⟨q, past⟩

/-- Take back the last `k` tokens; it fails when fewer were accepted. -/
def rollback (m : GrammarMatcher Q) : Nat → Option (GrammarMatcher Q)
  | 0 => some m
  | k + 1 => m.back.bind fun m => m.rollback k

end GrammarMatcher

structure XGrammarGrammar (Q : Type) where
  matcher : GrammarMatcher Q
  acceptedTokens : List Nat
deriving DecidableEq

namespace XGrammarGrammar

variable {Q M : Type} (ctx : CompiledGrammar Q M)

def isTerminated (g : XGrammarGrammar Q) : Bool := ctx.terminated g.matcher.state

/-- `accept_token`: nothing after the end; it raises on a token that does not fit. -/
def acceptToken (g : XGrammarGrammar Q) (token : Nat) : Option (XGrammarGrammar Q) :=
  if g.isTerminated ctx then some g
  else (g.matcher.acceptToken ctx token).map fun m => ⟨m, g.acceptedTokens ++ [token]⟩

/-- `rollback`; `accepted_tokens[:-k]` is empty for `k = 0`. -/
def rollback (g : XGrammarGrammar Q) (k : Nat) : Option (XGrammarGrammar Q) :=
  (g.matcher.rollback k).map fun m =>
    ⟨m, if k = 0 then [] else g.acceptedTokens.take (g.acceptedTokens.length - k)⟩

end XGrammarGrammar

structure Phase where
  tokensInThink : Int
  tokensAfterEnd : Int
deriving DecidableEq

namespace Phase

def isThinking (p : Phase) : Bool := 0 ≤ p.tokensInThink && p.tokensAfterEnd == -1

def isGeneration (p : Phase) : Bool := 0 ≤ p.tokensAfterEnd

def maybeInitReasoning (reasoning : Bool) : Phase := if reasoning then ⟨0, -1⟩ else ⟨-1, 0⟩

def transferState (thinkEndId : Nat) (p : Phase) (token : Nat) : Phase :=
  if p.isThinking then
    if token = thinkEndId then { p with tokensAfterEnd := 0 }
    else { p with tokensInThink := p.tokensInThink + 1 }
  else if p.isGeneration then { p with tokensAfterEnd := p.tokensAfterEnd + 1 }
  else p

def rollbackState (p : Phase) : Phase :=
  if p.isThinking then
    if 0 < p.tokensInThink then { p with tokensInThink := p.tokensInThink - 1 } else p
  else if p.isGeneration then
    if p.tokensAfterEnd = 0 then { p with tokensAfterEnd := -1 }
    else if 0 < p.tokensAfterEnd then { p with tokensAfterEnd := p.tokensAfterEnd - 1 }
    else p
  else p

end Phase

/-- What the constructor sets. -/
structure Config (Q M : Type) where
  ctx : CompiledGrammar Q M
  thinkEndId : Nat
  thinkExcludedTokenIds : Option (List Nat)
  maxThinkTokens : Int
  enableTokenFilter : Bool
  tokenFilterFn : Option (M → Option (List Nat) → Nat → Bool → M)

structure ReasonerGrammarObject (Q : Type) where
  grammar : Option (XGrammarGrammar Q)
  phase : Phase
deriving DecidableEq

namespace ReasonerGrammarObject

variable {Q M : Type} (c : Config Q M)

/-- A new object after `maybe_init_reasoning`. -/
def init (grammar : Option (XGrammarGrammar Q)) (reasoning : Bool) : ReasonerGrammarObject Q :=
  ⟨grammar, .maybeInitReasoning reasoning⟩

/-- The inner grammar sees the token in the generation phase. -/
def acceptGrammar (s : ReasonerGrammarObject Q) (token : Nat) :
    Option (Option (XGrammarGrammar Q)) :=
  match s.grammar with
  | some g => if s.phase.isGeneration then (g.acceptToken c.ctx token).map some else some (some g)
  | none => some none

def acceptToken (s : ReasonerGrammarObject Q) (token : Nat) : Option (ReasonerGrammarObject Q) :=
  (s.acceptGrammar c token).map fun grammar => ⟨grammar, s.phase.transferState c.thinkEndId token⟩

/-- The number of tokens that `rollback` takes back from the inner grammar. -/
def stepsAfter (s : ReasonerGrammarObject Q) (k : Nat) : Nat :=
  (min (k : Int) (max 0 s.phase.tokensAfterEnd)).toNat

def rollbackGrammar (s : ReasonerGrammarObject Q) (k : Nat) : Option (Option (XGrammarGrammar Q)) :=
  match s.grammar with
  | some g => if 0 < s.stepsAfter k then (g.rollback (s.stepsAfter k)).map some else some (some g)
  | none => some none

def rollback (s : ReasonerGrammarObject Q) (k : Nat) : Option (ReasonerGrammarObject Q) :=
  (s.rollbackGrammar k).map fun grammar => ⟨grammar, Phase.rollbackState^[k] s.phase⟩

def canThinkMore (s : ReasonerGrammarObject Q) : Bool :=
  c.maxThinkTokens < 0 || s.phase.tokensInThink < c.maxThinkTokens

def doTokenFilter (vocabMask : M) (tokenIds : Option (List Nat)) (idx : Nat) (isAllowed : Bool) :
    M :=
  match c.tokenFilterFn with
  | some f => f vocabMask tokenIds idx isAllowed
  | none => vocabMask

def fillVocabMask (s : ReasonerGrammarObject Q) (vocabMask : M) (idx : Nat) : M :=
  if s.phase.isThinking then
    if !c.enableTokenFilter then vocabMask
    else if s.canThinkMore c then doTokenFilter c vocabMask c.thinkExcludedTokenIds idx false
    else doTokenFilter c vocabMask (some [c.thinkEndId]) idx true
  else if s.phase.isGeneration then
    match s.grammar with
    | some g => c.ctx.fillNextTokenBitmask g.matcher.state vocabMask idx
    | none => vocabMask
  else vocabMask

/-- Accept one token after the other. -/
def acceptAll (s : ReasonerGrammarObject Q) (tokens : List Nat) :
    Option (ReasonerGrammarObject Q) :=
  tokens.foldlM (acceptToken c) s

/-- No token reaches an inner grammar that has ended. -/
def Heeded (s : ReasonerGrammarObject Q) (tokens : List Nat) : Prop :=
  ∀ us t vs s' g, tokens = us ++ t :: vs → s.acceptAll c us = some s' → s'.phase.isGeneration →
    s'.grammar = some g → g.isTerminated c.ctx = false

end ReasonerGrammarObject

namespace Phase

variable {p : Phase} {thinkEndId token : Nat}

/-- A phase that `maybe_init_reasoning` leads to. -/
def Valid (p : Phase) : Prop :=
  (0 ≤ p.tokensInThink ∧ p.tokensAfterEnd = -1) ∨ 0 ≤ p.tokensAfterEnd

theorem valid_init (reasoning : Bool) : (maybeInitReasoning reasoning).Valid := by
  cases reasoning
  · exact Or.inr (Int.le_refl 0)
  · exact Or.inl ⟨Int.le_refl 0, rfl⟩

theorem isGeneration_iff : p.isGeneration ↔ 0 ≤ p.tokensAfterEnd := decide_eq_true_iff

theorem isThinking_iff : p.isThinking ↔ 0 ≤ p.tokensInThink ∧ p.tokensAfterEnd = -1 := by
  simp [isThinking]

/-- A token counts in the phase it comes in, and the end of thinking counts in neither. -/
theorem transferState_cases (thinkEndId token : Nat) (h : p.Valid) :
    (p.isGeneration ∧
      p.transferState thinkEndId token = ⟨p.tokensInThink, p.tokensAfterEnd + 1⟩) ∨
    (¬ p.isGeneration ∧ p.isThinking ∧ token = thinkEndId ∧
      p.transferState thinkEndId token = ⟨p.tokensInThink, 0⟩) ∨
    (¬ p.isGeneration ∧ p.isThinking ∧ token ≠ thinkEndId ∧
      p.transferState thinkEndId token = ⟨p.tokensInThink + 1, p.tokensAfterEnd⟩) := by
  rcases h with ⟨hthink, hafter⟩ | hafter
  · have hthinking : p.isThinking := isThinking_iff.mpr ⟨hthink, hafter⟩
    have hgen : ¬ p.isGeneration := by
      intro hgen
      have := isGeneration_iff.mp hgen
      omega
    unfold transferState
    by_cases htoken : token = thinkEndId
    · exact Or.inr (Or.inl ⟨hgen, hthinking, htoken, by simp [hthinking, htoken]⟩)
    · exact Or.inr (Or.inr ⟨hgen, hthinking, htoken, by simp [hthinking, htoken]⟩)
  · have hgen : p.isGeneration := isGeneration_iff.mpr hafter
    have hthinking : ¬ p.isThinking := by
      intro hthinking
      have := (isThinking_iff.mp hthinking).2
      omega
    left
    unfold transferState
    exact ⟨hgen, by simp [hthinking, hgen]⟩

theorem Valid.transferState (h : p.Valid) : (p.transferState thinkEndId token).Valid := by
  rcases transferState_cases thinkEndId token h with ⟨hgen, heq⟩ | ⟨_, _, _, heq⟩ |
    ⟨_, hthinking, _, heq⟩
  · have := isGeneration_iff.mp hgen
    rw [heq]
    exact Or.inr (by simp only; omega)
  · rw [heq]
    exact Or.inr (Int.le_refl 0)
  · obtain ⟨hthink, hafter⟩ := isThinking_iff.mp hthinking
    rw [heq]
    exact Or.inl ⟨by simp only; omega, hafter⟩

theorem rollbackState_transferState (h : p.Valid) :
    (p.transferState thinkEndId token).rollbackState = p := by
  obtain ⟨think, after⟩ := p
  rcases transferState_cases thinkEndId token h with
    ⟨hgen, heq⟩ | ⟨_, hthinking, _, heq⟩ | ⟨_, hthinking, _, heq⟩
  · have hafter := isGeneration_iff.mp hgen
    simp only at hafter
    rw [heq]
    simp only [rollbackState, isThinking, isGeneration]
    have h1 : ¬ after + 1 = -1 := by omega
    have h2 : ¬ after + 1 = 0 := by omega
    have h3 : 0 ≤ after + 1 := by omega
    have h4 : 0 < after + 1 := by omega
    simp [h1, h2, h3, h4]
  · have hafter := (isThinking_iff.mp hthinking).2
    simp only at hafter
    rw [heq, hafter]
    simp [rollbackState, isThinking, isGeneration]
  · obtain ⟨hthink, hafter⟩ := isThinking_iff.mp hthinking
    simp only at hthink hafter
    rw [heq, hafter]
    have h1 : 0 ≤ think + 1 := by omega
    have h2 : 0 < think + 1 := by omega
    simp [rollbackState, isThinking, h1, h2]

end Phase

namespace XGrammarGrammar

variable {Q M : Type} {ctx : CompiledGrammar Q M} {g g' : XGrammarGrammar Q} {token k : Nat}

theorem acceptToken_terminated (hend : g.isTerminated ctx) (h : g.acceptToken ctx token = some g') :
    g' = g := by
  unfold acceptToken at h
  rw [if_pos hend] at h
  exact (Option.some.inj h).symm

theorem acceptToken_live (hlive : g.isTerminated ctx = false)
    (h : g.acceptToken ctx token = some g') :
    ∃ q, g' = ⟨⟨q, g.matcher.state :: g.matcher.past⟩, g.acceptedTokens ++ [token]⟩ := by
  unfold acceptToken at h
  rw [if_neg (by simp [hlive])] at h
  obtain ⟨m, hm, rfl⟩ := Option.map_eq_some_iff.mp h
  obtain ⟨q, _, rfl⟩ := Option.map_eq_some_iff.mp hm
  exact ⟨q, rfl⟩

/-- Taking back `k + 1` tokens is taking back the last one and then `k`. -/
theorem rollback_succ (hlive : g.isTerminated ctx = false) (h : g.acceptToken ctx token = some g') :
    g'.rollback (k + 1) = if 0 < k then g.rollback k else some g := by
  obtain ⟨q, rfl⟩ := acceptToken_live hlive h
  have hback : (GrammarMatcher.mk q (g.matcher.state :: g.matcher.past)).back = some g.matcher :=
    rfl
  have hmatcher : (GrammarMatcher.mk q (g.matcher.state :: g.matcher.past)).rollback (k + 1) =
      g.matcher.rollback k := by
    rw [GrammarMatcher.rollback, hback, Option.bind_some]
  unfold rollback
  rw [hmatcher]
  have htake : (g.acceptedTokens ++ [token]).take ((g.acceptedTokens ++ [token]).length - (k + 1)) =
      g.acceptedTokens.take (g.acceptedTokens.length - k) := by
    rw [List.length_append, List.length_singleton, Nat.add_sub_add_right]
    exact List.take_append_of_le_length (Nat.sub_le _ _)
  rw [if_neg (Nat.succ_ne_zero k), htake]
  split
  · next hk => simp only [if_neg (Nat.ne_of_gt hk)]
  · next hk =>
      obtain rfl : k = 0 := by omega
      simp [GrammarMatcher.rollback]

theorem past_rollback {m m' : GrammarMatcher Q} (h : m.rollback k = some m') :
    m'.past.length + k = m.past.length := by
  induction k generalizing m with
  | zero =>
      obtain rfl := Option.some.inj h
      rfl
  | succ k ih =>
      obtain ⟨m₁, hback, h⟩ := Option.bind_eq_some_iff.mp h
      unfold GrammarMatcher.back at hback
      split at hback
      · cases hback
      · next q past hpast =>
          obtain rfl := Option.some.inj hback
          rw [hpast, List.length_cons, ← ih h]
          rfl

end XGrammarGrammar

namespace ReasonerGrammarObject

variable {Q M : Type} {c : Config Q M} {s s₁ s₂ : ReasonerGrammarObject Q} {tokens : List Nat}
  {token k : Nat}

/-- The inner grammar is there and has not ended, where it is asked. -/
def Live (c : Config Q M) (s : ReasonerGrammarObject Q) : Prop :=
  s.phase.isGeneration → ∀ g, s.grammar = some g → g.isTerminated c.ctx = false

theorem acceptAll_concat : s.acceptAll c (tokens ++ [token]) =
    (s.acceptAll c tokens).bind fun s => s.acceptToken c token := by
  simp only [acceptAll, List.foldlM_append, List.foldlM_cons, List.foldlM_nil, Option.bind_eq_bind]
  congr
  funext s
  exact Option.bind_fun_some (s.acceptToken c token)

theorem heeded_concat (h : s.acceptAll c tokens = some s₁) :
    s.Heeded c (tokens ++ [token]) ↔ s.Heeded c tokens ∧ s₁.Live c := by
  constructor
  · intro hheeded
    refine ⟨fun us t vs s' g heq => hheeded us t (vs ++ [token]) s' g (by simp [heq]),
      fun hgen g hg => ?_⟩
    exact hheeded tokens token [] s₁ g rfl h hgen hg
  · rintro ⟨hheeded, hlive⟩ us t vs s' g heq hs' hgen hg
    obtain rfl | ⟨ws, w, rfl⟩ := List.eq_nil_or_concat vs
    · obtain ⟨rfl, _⟩ := List.append_inj' heq rfl
      obtain rfl := Option.some.inj (h.symm.trans hs')
      exact hlive hgen g hg
    · refine hheeded us t ws s' g ?_ hs' hgen hg
      have heq : tokens ++ [token] = (us ++ t :: ws) ++ [w] := by simpa using heq
      exact (List.append_inj' heq rfl).1

theorem acceptToken_phase (h : s₁.acceptToken c token = some s₂) :
    s₂.phase = s₁.phase.transferState c.thinkEndId token := by
  obtain ⟨grammar, _, rfl⟩ := Option.map_eq_some_iff.mp h
  rfl

theorem valid_acceptAll (hvalid : s.phase.Valid) (h : s.acceptAll c tokens = some s₁) :
    s₁.phase.Valid := by
  induction tokens using List.reverseRecOn generalizing s₁ with
  | nil =>
      obtain rfl := Option.some.inj h
      exact hvalid
  | append_singleton tokens token ih =>
      rw [acceptAll_concat] at h
      obtain ⟨s', hs', h⟩ := Option.bind_eq_some_iff.mp h
      rw [acceptToken_phase h]
      exact (ih hs').transferState

/-- A token of the generation phase is one more to take back from the grammar. -/
theorem stepsAfter_acceptToken (hvalid : s₁.phase.Valid) (h : s₁.acceptToken c token = some s₂) :
    s₂.stepsAfter (k + 1) =
      if s₁.phase.isGeneration then s₁.stepsAfter k + 1 else s₁.stepsAfter k := by
  unfold stepsAfter
  rw [acceptToken_phase h]
  rcases Phase.transferState_cases c.thinkEndId token hvalid with
    ⟨hgen, heq⟩ | ⟨hgen, hthinking, _, heq⟩ | ⟨hgen, hthinking, _, heq⟩
  · have hafter := Phase.isGeneration_iff.mp hgen
    rw [heq, if_pos hgen]
    simp only
    omega
  · have hafter := (Phase.isThinking_iff.mp hthinking).2
    rw [heq, if_neg hgen, hafter]
    simp only
    omega
  · have hafter := (Phase.isThinking_iff.mp hthinking).2
    rw [heq, if_neg hgen, hafter]
    omega

/-- Taking back a token that was heeded, and `k` before it, is taking back the `k`. -/
theorem rollback_succ (hvalid : s₁.phase.Valid) (hlive : s₁.Live c)
    (h : s₁.acceptToken c token = some s₂) : s₂.rollback (k + 1) = s₁.rollback k := by
  have hphase : Phase.rollbackState^[k + 1] s₂.phase = Phase.rollbackState^[k] s₁.phase := by
    rw [Function.iterate_succ_apply, acceptToken_phase h, Phase.rollbackState_transferState hvalid]
  have hsteps := stepsAfter_acceptToken (k := k) hvalid h
  obtain ⟨grammar, hgrammar, rfl⟩ := Option.map_eq_some_iff.mp h
  have hback : rollbackGrammar ⟨grammar, s₁.phase.transferState c.thinkEndId token⟩ (k + 1) =
      s₁.rollbackGrammar k := by
    unfold rollbackGrammar
    rw [hsteps]
    unfold acceptGrammar at hgrammar
    cases hg : s₁.grammar with
    | none =>
        simp only [hg] at hgrammar
        obtain rfl := Option.some.inj hgrammar
        rfl
    | some g =>
        simp only [hg] at hgrammar
        by_cases hgen : s₁.phase.isGeneration
        · rw [if_pos hgen] at hgrammar ⊢
          obtain ⟨g', hg', rfl⟩ := Option.map_eq_some_iff.mp hgrammar
          simp only [Nat.succ_pos, if_true]
          rw [XGrammarGrammar.rollback_succ (hlive hgen g hg) hg']
          split <;> rfl
        · rw [if_neg hgen] at hgrammar ⊢
          obtain rfl := Option.some.inj hgrammar
          rfl
  unfold rollback
  rw [hback]
  simp only [hphase]

@[simp] theorem rollback_zero (s : ReasonerGrammarObject Q) : s.rollback 0 = some s := by
  have hsteps : s.stepsAfter 0 = 0 := by
    unfold stepsAfter
    omega
  unfold rollback rollbackGrammar
  rw [hsteps]
  obtain ⟨grammar, phase⟩ := s
  cases grammar <;> rfl

theorem rollback_acceptAll (hvalid : s.phase.Valid) (hheeded : s.Heeded c tokens)
    (h : s.acceptAll c tokens = some s₂) : s₂.rollback tokens.length = some s := by
  induction tokens using List.reverseRecOn generalizing s₂ with
  | nil =>
      obtain rfl := Option.some.inj h
      exact rollback_zero s
  | append_singleton tokens token ih =>
      rw [acceptAll_concat] at h
      obtain ⟨s₁, hs₁, h⟩ := Option.bind_eq_some_iff.mp h
      obtain ⟨hheeded, hlive⟩ := (heeded_concat hs₁).mp hheeded
      rw [List.length_append, List.length_singleton,
        rollback_succ (valid_acceptAll hvalid hs₁) hlive h]
      exact ih hheeded hs₁

/-- How far the matcher of the inner grammar has come. -/
def depth (s : ReasonerGrammarObject Q) : Nat :=
  match s.grammar with
  | some g => g.matcher.past.length
  | none => 0

/-- The matcher goes on by at most the tokens of the generation phase, and by fewer when it
ignores one. -/
theorem depth_acceptAll (hvalid : s.phase.Valid) (h : s.acceptAll c tokens = some s₂) :
    s₂.depth ≤ s.depth + s₂.stepsAfter tokens.length ∧
      (¬ s.Heeded c tokens → s₂.grammar.isSome ∧
        s₂.depth < s.depth + s₂.stepsAfter tokens.length) := by
  induction tokens using List.reverseRecOn generalizing s₂ with
  | nil =>
      obtain rfl := Option.some.inj h
      refine ⟨Nat.le_add_right _ _, fun hnot => absurd ?_ hnot⟩
      intro us t vs s' g heq
      simp at heq
  | append_singleton tokens token ih =>
      rw [acceptAll_concat] at h
      obtain ⟨s₁, hs₁, h⟩ := Option.bind_eq_some_iff.mp h
      obtain ⟨hle, hlt⟩ := ih hs₁
      rw [heeded_concat hs₁, List.length_append, List.length_singleton,
        stepsAfter_acceptToken (valid_acceptAll hvalid hs₁) h]
      obtain ⟨grammar, hgrammar, rfl⟩ := Option.map_eq_some_iff.mp h
      unfold acceptGrammar at hgrammar
      cases hg : s₁.grammar with
      | none =>
          have hlive : s₁.Live c := by
            intro _ g hg'
            rw [hg] at hg'
            cases hg'
          simp only [hg] at hgrammar hlt
          obtain rfl := Option.some.inj hgrammar
          refine ⟨Nat.zero_le _, fun hnot => ?_⟩
          have := (hlt fun hheeded => hnot ⟨hheeded, hlive⟩).1
          cases this
      | some g =>
          have hdepth : s₁.depth = g.matcher.past.length := by simp only [depth, hg]
          simp only [hg] at hgrammar
          by_cases hgen : s₁.phase.isGeneration
          · rw [if_pos hgen] at hgrammar ⊢
            obtain ⟨g', hg', rfl⟩ := Option.map_eq_some_iff.mp hgrammar
            cases hend : g.isTerminated c.ctx with
            | true =>
                obtain rfl := XGrammarGrammar.acceptToken_terminated hend hg'
                have hsame : depth ⟨some g', s₁.phase.transferState c.thinkEndId token⟩ =
                    s₁.depth :=
                  hdepth.symm
                rw [hsame]
                exact ⟨by omega, fun _ => ⟨rfl, by omega⟩⟩
            | false =>
                have hlive : s₁.Live c := by
                  intro _ g₁ hg₁
                  obtain rfl := Option.some.inj (hg.symm.trans hg₁)
                  exact hend
                obtain ⟨q, rfl⟩ := XGrammarGrammar.acceptToken_live hend hg'
                have hnext : depth ⟨some ⟨⟨q, g.matcher.state :: g.matcher.past⟩,
                    g.acceptedTokens ++ [token]⟩, s₁.phase.transferState c.thinkEndId token⟩ =
                    s₁.depth + 1 := by
                  rw [hdepth]
                  rfl
                rw [hnext]
                refine ⟨by omega, fun hnot => ⟨rfl, ?_⟩⟩
                have := (hlt fun hheeded => hnot ⟨hheeded, hlive⟩).2
                omega
          · rw [if_neg hgen] at hgrammar ⊢
            obtain rfl := Option.some.inj hgrammar
            have hsame : depth ⟨some g, s₁.phase.transferState c.thinkEndId token⟩ = s₁.depth :=
              hdepth.symm
            rw [hsame]
            refine ⟨hle, fun hnot => ⟨rfl, ?_⟩⟩
            exact (hlt fun hheeded => hnot ⟨hheeded, fun hgen' => absurd hgen' hgen⟩).2

theorem depth_rollback (hgrammar : s₂.grammar.isSome) (h : s₂.rollback k = some s₁) :
    s₁.depth + s₂.stepsAfter k = s₂.depth := by
  obtain ⟨g, hg⟩ := Option.isSome_iff_exists.mp hgrammar
  obtain ⟨grammar, hback, rfl⟩ := Option.map_eq_some_iff.mp h
  unfold rollbackGrammar at hback
  simp only [hg] at hback
  have hdepth : s₂.depth = g.matcher.past.length := by simp only [depth, hg]
  rw [hdepth]
  split at hback
  · obtain ⟨g', hg', rfl⟩ := Option.map_eq_some_iff.mp hback
    obtain ⟨m, hm, rfl⟩ := Option.map_eq_some_iff.mp hg'
    exact XGrammarGrammar.past_rollback hm
  · obtain rfl := Option.some.inj hback
    show g.matcher.past.length + _ = _
    omega

/-- **Rollback.** It restores the object exactly when none of the tokens came after the end of the
inner grammar. -/
theorem rollback_restores_iff (grammar : Option (XGrammarGrammar Q)) (reasoning : Bool)
    (before tokens : List Nat) {s₁ s₂ : ReasonerGrammarObject Q}
    (hbefore : (init grammar reasoning).acceptAll c before = some s₁)
    (htokens : s₁.acceptAll c tokens = some s₂) :
    s₂.rollback tokens.length = some s₁ ↔ s₁.Heeded c tokens := by
  have hvalid : s₁.phase.Valid := valid_acceptAll (Phase.valid_init reasoning) hbefore
  constructor
  · intro hback
    by_contra hnot
    obtain ⟨hgrammar, hlt⟩ := (depth_acceptAll hvalid htokens).2 hnot
    have := depth_rollback hgrammar hback
    omega
  · intro hheeded
    exact rollback_acceptAll hvalid hheeded htokens

/-- A grammar of one token, without a thinking phase before it. -/
def oneToken : Config Bool Unit where
  ctx := ⟨fun q _ => if q then none else some true, id, fun _ mask _ => mask⟩
  thinkEndId := 7
  thinkExcludedTokenIds := none
  maxThinkTokens := -1
  enableTokenFilter := false
  tokenFilterFn := none

/-- Taking back a token that came after the end takes back the end as well. -/
theorem rollback_afterEnd :
    (init (some ⟨⟨false, []⟩, []⟩) false).acceptAll oneToken [20] =
      some ⟨some ⟨⟨true, [false]⟩, [20]⟩, ⟨-1, 1⟩⟩ ∧
    acceptAll oneToken ⟨some ⟨⟨true, [false]⟩, [20]⟩, ⟨-1, 1⟩⟩ [21] =
      some ⟨some ⟨⟨true, [false]⟩, [20]⟩, ⟨-1, 2⟩⟩ ∧
    rollback ⟨some ⟨⟨true, [false]⟩, [20]⟩, ⟨-1, 2⟩⟩ 1 =
      some ⟨some ⟨⟨false, []⟩, []⟩, ⟨-1, 1⟩⟩ ∧
    rollback ⟨some ⟨⟨true, [false]⟩, [20]⟩, ⟨-1, 2⟩⟩ 1 ≠
      some ⟨some ⟨⟨true, [false]⟩, [20]⟩, ⟨-1, 1⟩⟩ := by decide

/-- Thinking, the end of it and the token of the grammar are all taken back. -/
theorem rollback_bothPhases :
    rollback (Q := Bool) ⟨some ⟨⟨true, [false]⟩, [20]⟩, ⟨1, 1⟩⟩ [10, 7, 20].length =
      some (init (some ⟨⟨false, []⟩, []⟩) true) := by
  refine (rollback_restores_iff (c := oneToken) _ true [] [10, 7, 20] rfl rfl).mpr ?_
  intro us t vs s' g htokens haccept _ hgrammar
  have hus : us = [] ∨ us = [10] ∨ us = [10, 7] := by
    rcases us with _ | ⟨a, _ | ⟨b, _ | ⟨d, us⟩⟩⟩ <;> simp_all
  rcases hus with rfl | rfl | rfl
  all_goals
    obtain rfl := Option.some.inj haccept
    obtain rfl := Option.some.inj hgrammar
    rfl

end ReasonerGrammarObject

end SpecDecode.Constrained
