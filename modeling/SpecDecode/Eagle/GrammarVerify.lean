import SpecDecode.Eagle.GrammarMask
import SpecDecode.Scheduler.CommitAgree
import Mathlib.Algebra.Order.Ring.Int
import Mathlib.Order.Nat

/-!
# Greedy verification under a grammar

The logits are masked with the rows of `generate_token_bitmask` before the target's prediction
is taken. So the predictions along an accepted path are tokens that the grammar accepts, one
after the other, until it is terminated, and the loop that commits them never sees an error.
-/

namespace SpecDecode.Eagle

open Buffer Scheduler

section Generate

variable {σ : Type} {g : Matcher σ} {a : VerifyArgs} {vocabSize : Nat}

variable (hg : g.Lawful vocabSize) (hvocab : 0 < vocabSize) (hids : ∀ x, 0 ≤ a.candidates x)
  (hn : 0 < a.numDraftTokens) {trees : Nat → OrderedTree a.numDraftTokens}

include hg hvocab hids hn

theorem generateFrom_eq (i : Nat) (grammars : List (Option σ))
    (hwf : ∀ bx, bx < i + grammars.length → a.RowWellFormed bx (trees bx))
    (hroot : ∀ bx, bx < i + grammars.length → a.retriveNextSibling (bx * a.numDraftTokens) = -1)
    (mask : Option (Nat → MaskRow))
    (hfresh : ∀ x, i * a.numDraftTokens ≤ x → mask.getD (fun _ => freshRow) x = freshRow) :
    ∃ mask', generateFrom g a vocabSize i grammars mask = some (grammars, mask') ∧
      (∀ x, x < i * a.numDraftTokens →
        mask'.getD (fun _ => freshRow) x = mask.getD (fun _ => freshRow) x) ∧
      (mask.isSome = true → mask'.isSome = true) ∧
      ∀ k s, grammars[k]? = some (some s) → mask'.isSome = true ∧ ∀ v, v < a.numDraftTokens →
        RowOf g a vocabSize (i + k) (trees (i + k)) s v
          (mask'.getD (fun _ => freshRow) ((i + k) * a.numDraftTokens + v)) := by
  induction grammars generalizing i mask with
  | nil => exact ⟨mask, rfl, fun _ _ => rfl, id, fun k s hk => by simp at hk⟩
  | cons grammar grammars ih =>
      have hlen : i + (grammar :: grammars).length = i + 1 + grammars.length := by
        rw [List.length_cons]
        omega
      rw [hlen] at hwf hroot
      have hnext : (i + 1) * a.numDraftTokens = i * a.numDraftTokens + a.numDraftTokens :=
        Nat.succ_mul _ _
      cases grammar with
      | none =>
          obtain ⟨mask', hdone, hkeep, hsome, hrows⟩ := ih (i + 1) hwf hroot mask
            fun x hx => hfresh x (by omega)
          refine ⟨mask', ?_, fun x hx => hkeep x (by omega), hsome, fun k s hk => ?_⟩
          · rw [generateFrom, hdone]
            rfl
          · cases k with
            | zero => cases hk
            | succ k =>
                rw [show i + (k + 1) = i + 1 + k by omega]
                exact hrows k s hk
      | some s =>
          have hslice : ∀ w, w < a.numDraftTokens →
              row (mask.getD fun _ => freshRow) (i * a.numDraftTokens) w = freshRow :=
            fun w _ => hfresh _ (Nat.le_add_right _ _)
          obtain ⟨rows, htree, hrow⟩ := traverseTree_eq hg hvocab hids (hwf i (by omega)) hn
            (hroot i (by omega)) s hslice
          obtain ⟨mask', hdone, hkeep, hsome, hrows⟩ := ih (i + 1) hwf hroot
            (some (fill (mask.getD fun _ => freshRow) (i * a.numDraftTokens) a.numDraftTokens rows))
            fun x hx => by
              rw [Option.getD_some, fill_outside (Or.inr (by omega))]
              exact hfresh x (by omega)
          refine ⟨mask', ?_, fun x hx => ?_, fun _ => hsome rfl, fun k s' hk => ?_⟩
          · rw [generateFrom]
            simp only [htree, hdone]
            rfl
          · rw [hkeep x (by omega), Option.getD_some, fill_outside (Or.inl hx)]
          · cases k with
            | zero =>
                obtain rfl : s = s' := by simpa using hk
                refine ⟨hsome rfl, fun v hv => ?_⟩
                rw [Nat.add_zero, hkeep _ (by omega), Option.getD_some, fill_inside hv]
                exact hrow v hv
            | succ k =>
                rw [show i + (k + 1) = i + 1 + k by omega]
                exact hrows k s' hk

end Generate

section Argmax

variable {α : Type} [LinearOrder α]

/-- `torch.argmax` over the vocabulary: the first index of the largest value. -/
def argmax (vocabSize : Nat) (f : Nat → α) : Nat :=
  (List.range vocabSize).foldl (fun best t => if f best < f t then t else best) 0

theorem argmax_spec (f : Nat → α) {vocabSize : Nat} (h : 0 < vocabSize) :
    argmax vocabSize f < vocabSize ∧ ∀ t, t < vocabSize → f t ≤ f (argmax vocabSize f) := by
  induction vocabSize with
  | zero => omega
  | succ n ih =>
      have hstep : argmax (n + 1) f = if f (argmax n f) < f n then n else argmax n f := by
        rw [argmax, List.range_succ, List.foldl_append]
        rfl
      rcases Nat.eq_zero_or_pos n with rfl | hpos
      · have hzero : argmax 1 f = 0 := by simp [argmax]
        rw [hzero]
        exact ⟨Nat.one_pos, fun t ht => by rw [Nat.lt_one_iff.mp ht]⟩
      · obtain ⟨hlt, hmax⟩ := ih hpos
        rw [hstep]
        split
        · next hnew =>
            refine ⟨Nat.lt_succ_self n, fun t ht => ?_⟩
            rcases Nat.lt_succ_iff_lt_or_eq.mp ht with ht | rfl
            · exact (hmax t ht).trans hnew.le
            · exact le_refl _
        · next hold =>
            refine ⟨Nat.lt_succ_of_lt hlt, fun t ht => ?_⟩
            rcases Nat.lt_succ_iff_lt_or_eq.mp ht with ht | rfl
            · exact hmax t ht
            · exact not_lt.mp hold

variable [OrderBot α]

def applyVocabMask (mask : Option (Nat → MaskRow)) (logits : Nat → Nat → α) (x t : Nat) : α :=
  match mask with
  | none => logits x t
  | some mask => if (mask x).allows t then logits x t else ⊥

/-- The arguments of the verification with the predictions under a mask. -/
def VerifyArgs.withTarget (a : VerifyArgs) (vocabSize : Nat) (mask : Option (Nat → MaskRow))
    (logits : Nat → Nat → α) : VerifyArgs :=
  { a with targetPredict := fun x => argmax vocabSize (applyVocabMask mask logits x) }

theorem argmax_allowed (mask : Nat → MaskRow) {logits : Nat → Nat → α} {x vocabSize : Nat}
    (hlogits : ∀ t, t < vocabSize → ⊥ < logits x t)
    (hsome : ∃ t, t < vocabSize ∧ (mask x).allows t = true) :
    argmax vocabSize (applyVocabMask (some mask) logits x) < vocabSize ∧
      (mask x).allows (argmax vocabSize (applyVocabMask (some mask) logits x)) = true := by
  obtain ⟨t, ht, hallows⟩ := hsome
  obtain ⟨hlt, hmax⟩ := argmax_spec (applyVocabMask (some mask) logits x) (Nat.zero_lt_of_lt ht)
  refine ⟨hlt, ?_⟩
  by_contra hnot
  have hle := hmax t ht
  rw [applyVocabMask, if_pos hallows] at hle
  rw [applyVocabMask, if_neg hnot] at hle
  exact absurd hle (not_le.mpr (hlogits t ht))

end Argmax

/-- Every token is accepted until the grammar is terminated. -/
def Legal {σ : Type} (env : Env σ) : σ → List Int → Prop
  | _, [] => True
  | s, t :: ts => env.isTerminated s = false → ∃ s', env.acceptToken s t = some s' ∧ Legal env s' ts

theorem commit_ne_error {σ : Type} {env : Env σ} {r : Req σ} {ts : List Int}
    (h : ∀ s, r.grammar = some s → Legal env s ts) (e : Req σ) :
    commit env true r ts ≠ .error e := by
  induction ts generalizing r with
  | nil => exact nofun
  | cons t ts ih =>
      cases Req.head_cases env r t with
      | stops hstops =>
          rw [commit_stops hstops]
          exact nofun
      | raises s hs hraise hplain hterm =>
          have hlive : env.isTerminated s = false := by
            simpa [Req.grammarTerminated, hs] using hterm
          obtain ⟨s', hs', -⟩ := h s hs hlive
          cases hraise.symm.trans hs'
      | terminates s s' hs hs' hdone hplain hterm =>
          rw [(commit_terminates _ hs hs' hdone hplain hterm).1]
          exact nofun
      | goesOn gr haccept hterm' hplain hterm =>
          rw [commit_goesOn haccept hterm' hplain hterm]
          have hnext : ∀ s, (r.next t gr).grammar = some s → Legal env s ts := by
            intro s hs
            rcases acceptToken_cases haccept with ⟨hnone, heq⟩ | ⟨s₁, s₂, hs₁, hs₂, heq⟩
            · rw [heq, hnone] at hs
              cases hs
            · obtain rfl : s₂ = s := by
                rw [heq] at hs
                exact Option.some.inj hs
              have hlive : env.isTerminated s₁ = false := by
                simpa [Req.grammarTerminated, show r.grammar = some s₁ from hs₁] using hterm
              obtain ⟨s', hs', hlegal⟩ := h s₁ hs₁ hlive
              rw [hs₂] at hs'
              cases hs'
              exact hlegal
          have htail := ih hnext
          intro heq
          cases hrest : commit env true (r.next t gr) ts with
          | ok p =>
              rw [hrest] at heq
              cases heq
          | error r' =>
              rw [hrest] at heq
              cases heq
              exact htail hrest

/-- The row of `accept_index` of a request. -/
def VerifyArgs.acceptRow (a : VerifyArgs) (b : VerifyBuffers) (bx : Nat) : List Int :=
  (List.range a.numSpeculativeTokens).map fun i => b.acceptIndex (bx * a.numSpeculativeTokens + i)

namespace VerifyArgs

variable {a : VerifyArgs} {bs : Nat} {trees : Nat → OrderedTree a.numDraftTokens}

theorem rowTokens_acceptRow (hn : 0 < a.numDraftTokens) (hT : 0 < a.numSpeculativeTokens)
    (hwf : ∀ bx, bx < bs → a.RowWellFormed bx (trees bx)) {b b' : VerifyBuffers}
    (hb : ∀ x, b.acceptIndex x = -1) (hrun : a.launchVerify bs b = some b') {bx : Nat}
    (hresult : RowResult a.numDraftTokens a.numSpeculativeTokens bx
      (a.tokenTree bx (trees bx)).predicted (a.acceptedPath bx (trees bx)) b') :
    rowTokens b'.predicts (a.acceptRow b' bx) =
      (0 :: a.acceptedPath bx (trees bx)).map (a.tokenTree bx (trees bx)).predicted := by
  have hlen : (a.acceptedPath bx (trees bx)).length < a.numSpeculativeTokens :=
    acceptedPath_length_lt hT
  have hcells : ∀ i, i < a.numSpeculativeTokens →
      b'.acceptIndex (bx * a.numSpeculativeTokens + i) =
        if i < (0 :: a.acceptedPath bx (trees bx)).length then
          ((bx * a.numDraftTokens + (0 :: a.acceptedPath bx (trees bx)).getD i 0 : Nat) : Int)
        else -1 := by
    intro i hi
    split
    · next hin => exact hresult.index i (by simpa [Nat.lt_succ_iff] using hin)
    · next hout =>
        rw [List.length_cons] at hout
        rw [launchVerify_acceptIndex hn hT hwf hrun bx hi (by omega), hb]
  obtain ⟨k, hk⟩ : ∃ k, a.numSpeculativeTokens = (0 :: a.acceptedPath bx (trees bx)).length + k :=
    ⟨a.numSpeculativeTokens - (0 :: a.acceptedPath bx (trees bx)).length, by
      rw [List.length_cons]; omega⟩
  have hrow : a.acceptRow b' bx = (0 :: a.acceptedPath bx (trees bx)).map (fun v =>
      ((bx * a.numDraftTokens + v : Nat) : Int)) ++ List.replicate k (-1) := by
    refine List.ext_getElem (by simpa [acceptRow, Nat.add_right_comm] using hk) fun i hi _ => ?_
    have hiT : i < a.numSpeculativeTokens := by simpa [acceptRow] using hi
    rw [List.getElem_append]
    simp only [acceptRow, List.getElem_map, List.getElem_range, hcells i hiT, List.length_map]
    split
    · next hin => rw [List.getD_eq_getElem _ _ hin]
    · rw [List.getElem_replicate]
  have hfirst : ∀ x ∈ (0 :: a.acceptedPath bx (trees bx)).map (fun v =>
      ((bx * a.numDraftTokens + v : Nat) : Int)), decide (x ≠ -1) = true := by
    intro x hx
    obtain ⟨v, -, rfl⟩ := List.mem_map.mp hx
    simp only [decide_eq_true_eq]
    omega
  have hstop : (List.replicate k (-1 : Int)).takeWhile (· ≠ -1) = [] := by
    cases k <;> rfl
  rw [rowTokens, hrow, List.takeWhile_append_of_pos hfirst, hstop, List.append_nil, List.map_map]
  refine List.map_congr_left fun v hv => ?_
  rw [Function.comp_apply, Int.toNat_natCast]
  exact hresult.predicts v hv

end VerifyArgs

section Verify

variable {σ : Type} {g : Matcher σ} {vocabSize bx : Nat} {a : VerifyArgs}
  {t : OrderedTree a.numDraftTokens}

theorem GrammarAt.child {s s₁ s₂ : σ} {v c : Nat} (h : GrammarAt g a vocabSize bx t s v s₁)
    (hlive : g.isTerminated s₁ = false) (hc : c ∈ t.children v)
    (hvocab : a.candidates (bx * a.numDraftTokens + c) < vocabSize)
    (haccept : g.acceptToken s₁ (a.candidates (bx * a.numDraftTokens + c)) = some s₂) :
    GrammarAt g a vocabSize bx t s c s₂ := by
  rcases h with ⟨rfl, rfl⟩ | ⟨hlive₀, hmoved⟩
  · exact .inr ⟨hlive, .start hc hvocab haccept⟩
  · exact .inr ⟨hlive₀, .child hmoved hlive hc hvocab haccept⟩

theorem MatchPath.legal {T : TokenTree a.numDraftTokens} (hT : T.toOrderedTree = t)
    (htoken : ∀ v, T.token v = a.candidates (bx * a.numDraftTokens + v)) {s : σ}
    (hpredicted : ∀ v s', v < a.numDraftTokens → GrammarAt g a vocabSize bx t s v s' →
      g.isTerminated s' = false →
      T.predicted v < vocabSize ∧ (g.acceptToken s' (T.predicted v)).isSome = true)
    {v : Nat} {path : List Nat} (h : T.MatchPath v path) (hv : v < a.numDraftTokens) {s' : σ}
    (hat : GrammarAt g a vocabSize bx t s v s') :
    Legal g.toEnv s' ((v :: path).map T.predicted) := by
  induction h generalizing s' with
  | nil =>
      intro hlive
      obtain ⟨s₂, hs₂⟩ := Option.isSome_iff_exists.mp (hpredicted _ s' hv hat hlive).2
      exact ⟨s₂, hs₂, trivial⟩
  | @cons v c path hc hmatch _ ih =>
      intro hlive
      obtain ⟨hlt, hsome⟩ := hpredicted v s' hv hat hlive
      obtain ⟨s₂, hs₂⟩ := Option.isSome_iff_exists.mp hsome
      rw [← hmatch, htoken] at hlt hs₂
      refine ⟨s₂, by rw [← hmatch, htoken]; exact hs₂, ih (T.child_lt hc) ?_⟩
      exact hat.child hlive (hT ▸ hc) hlt hs₂

/-- The row of a node is exactly what the grammar accepts after the tokens that lead there, or
everything. -/
structure ExactRow (g : Matcher σ) (a : VerifyArgs) (vocabSize bx : Nat)
    (t : OrderedTree a.numDraftTokens) (s : σ) (v : Nat) (row : MaskRow) : Prop where
  exact : ∀ s', GrammarAt g a vocabSize bx t s v s' → g.isTerminated s' = false →
    ∀ token : Nat, token < vocabSize →
      (row.allows token = true ↔ (g.acceptToken s' token).isSome = true)
  all : (∀ s', GrammarAt g a vocabSize bx t s v s' → g.isTerminated s' = true) → row = freshRow

/-- Verification under a grammar: the masks are exact, the grammars are as before, and the accepted
tokens are taken by the grammar until it is terminated, so that the commit loop does not raise. The
rows of nodes that no accepted path reaches allow everything with backends that allocate a fresh
mask; `llguidance` reuses its mask, and such rows then hold what an earlier batch left there. -/
theorem verify_grammar {α : Type} [LinearOrder α] [OrderBot α] (hg : g.Lawful vocabSize)
    (hvocab : 0 < vocabSize) (hn : 0 < a.numDraftTokens) (hT : 0 < a.numSpeculativeTokens)
    (hids : ∀ x, 0 ≤ a.candidates x) (trees : Nat → OrderedTree a.numDraftTokens)
    (grammars : List (Option σ)) (hwf : ∀ bx, bx < grammars.length → a.RowWellFormed bx (trees bx))
    (hroot : ∀ bx, bx < grammars.length → a.retriveNextSibling (bx * a.numDraftTokens) = -1)
    (logits : Nat → Nat → α) (hlogits : ∀ x t, t < vocabSize → ⊥ < logits x t)
    (b : VerifyBuffers) (hb : ∀ x, b.acceptIndex x = -1) :
    ∃ mask b', generateTokenBitmask g a vocabSize grammars = some (grammars, mask) ∧
      (a.withTarget vocabSize mask logits).launchVerify grammars.length b = some b' ∧
      ∀ bx s, grammars[bx]? = some (some s) →
        (∃ rows, mask = some rows ∧ ∀ v, v < a.numDraftTokens →
          ExactRow g a vocabSize bx (trees bx) s v (rows (bx * a.numDraftTokens + v))) ∧
        Legal g.toEnv s (rowTokens b'.predicts (a.acceptRow b' bx)) ∧
        ∀ (r : Req σ) (thinkEndId : Option Int) (e : Req σ), r.grammar = some s →
          eagleCommit g.toEnv thinkEndId b'.predicts r (a.acceptRow b' bx) ≠ .error e := by
  obtain ⟨mask, hgenerate, -, -, hrows⟩ := generateFrom_eq hg hvocab hids hn 0 grammars
    (by simpa using hwf) (by simpa using hroot) none fun _ _ => rfl
  have hwf' : ∀ bx, bx < grammars.length →
      (a.withTarget vocabSize mask logits).RowWellFormed bx (trees bx) :=
    fun bx hbx => ⟨(hwf bx hbx).chains, (hwf bx hbx).index⟩
  obtain ⟨b', hrun, hresult⟩ := VerifyArgs.launchVerify_result
    (a := a.withTarget vocabSize mask logits) hn hT hwf' b
  refine ⟨mask, b', hgenerate, hrun, fun bx s hs => ?_⟩
  have hbx : bx < grammars.length := (List.getElem?_eq_some_iff.mp hs).1
  obtain ⟨hsome, hrow⟩ := hrows bx s hs
  obtain ⟨rows, rfl⟩ := Option.isSome_iff_exists.mp hsome
  simp only [Nat.zero_add, Option.getD_some] at hrow
  have hexact : ∀ v, v < a.numDraftTokens →
      ExactRow g a vocabSize bx (trees bx) s v (rows (bx * a.numDraftTokens + v)) := by
    intro v hv
    refine ⟨fun s' hat hlive token htoken => ?_, (hrow v hv).unfilled⟩
    rw [(hrow v hv).filled s' hat hlive]
    exact hg.fill_allows s' hlive token htoken
  have hlegal : Legal g.toEnv s (rowTokens b'.predicts (a.acceptRow b' bx)) := by
    have htokens := VerifyArgs.rowTokens_acceptRow
      (a := a.withTarget vocabSize (some rows) logits) hn hT hwf' hb hrun (hresult bx hbx)
    rw [show a.acceptRow b' bx = (a.withTarget vocabSize (some rows) logits).acceptRow b' bx
      from rfl, htokens]
    have hstart : GrammarAt g a vocabSize bx (trees bx) s 0 s := .inl ⟨rfl, rfl⟩
    refine MatchPath.legal rfl (fun _ => rfl) (fun v s' hv hat hlive => ?_)
      (TokenTree.followTarget_matches _ 0) hn hstart
    obtain ⟨token, htoken, haccept⟩ := hg.live s' hlive
    obtain ⟨hlt, hallows⟩ := argmax_allowed rows (fun t ht => hlogits _ t ht)
      ⟨token, htoken, ((hexact v hv).exact s' hat hlive token htoken).mpr haccept⟩
    exact ⟨Int.ofNat_lt.mpr hlt, ((hexact v hv).exact s' hat hlive _ hlt).mp hallows⟩
  refine ⟨⟨rows, rfl, hexact⟩, hlegal, fun r thinkEndId e hr herror => ?_⟩
  have houtcome : rowOutcome (eagleCommit g.toEnv thinkEndId b'.predicts r (a.acceptRow b' bx)) =
      commit g.toEnv true r.forget (rowTokens b'.predicts (a.acceptRow b' bx)) :=
    eagleCommit_eq thinkEndId b'.predicts r (a.acceptRow b' bx)
  rw [herror] at houtcome
  refine commit_ne_error (fun s' hs' => ?_) e.forget houtcome.symm
  obtain rfl : s = s' := Option.some.inj (hr.symm.trans hs')
  exact hlegal

end Verify

/-- A grammar that takes the tokens `1` and `2` and is then terminated. -/
def pairMatcher : Matcher Nat where
  acceptToken s t := if s < 2 ∧ t = s + 1 then some (s + 1) else none
  isTerminated s := 2 ≤ s
  decode _ := ""
  search _ _ := false
  rollback s k := s - k
  fillVocabMask s _ w := if w = 0 then 1#32 <<< (s + 1) else 0#32

theorem pairMatcher_lawful : pairMatcher.Lawful 4 where
  rollback_accept s t s' _ haccept := by
    simp only [pairMatcher] at haccept ⊢
    split at haccept
    · obtain rfl := Option.some.inj haccept
      rfl
    · cases haccept
  fill_allows s hlive t ht := by
    have hs : s < 2 := by simpa [pairMatcher] using hlive
    match s, hs, t, ht with
    | 0, _, 0, _ | 0, _, 1, _ | 0, _, 2, _ | 0, _, 3, _ => decide
    | 1, _, 0, _ | 1, _, 1, _ | 1, _, 2, _ | 1, _, 3, _ => decide
  live s hlive := by
    have hs : s < 2 := by simpa [pairMatcher] using hlive
    refine ⟨s + 1, by omega, ?_⟩
    simp [pairMatcher]
    omega

/-- A chain of three nodes. -/
def chainTree : ParentTree where
  parent i := i - 1
  parent_lt _ hi := Nat.sub_lt hi Nat.one_pos

def chainArgs : VerifyArgs where
  candidates x := [3, 1, 2].getD x 0
  retriveIndex x := x
  retriveNextToken x := [1, 2, -1].getD x (-1)
  retriveNextSibling _ := -1
  targetPredict _ := 0
  numSpeculativeTokens := 3
  numDraftTokens := 3

private theorem chainArgs_rowWellFormed : chainArgs.RowWellFormed 0 (chainTree.ordered 3) where
  chains v hv := by
    match v, hv with
    | 0, _ => exact Chain.cons (i := 1) Chain.nil
    | 1, _ => exact Chain.cons (i := 2) Chain.nil
    | 2, _ => exact Chain.nil
  index v _ := by simp [chainArgs]

/-- Both draft tokens are accepted, and the grammar is terminated with them. -/
theorem verify_grammar_chain :
    ∃ mask b', generateTokenBitmask pairMatcher chainArgs 4 [some 0] = some ([some 0], mask) ∧
      (chainArgs.withTarget 4 mask fun _ t => t + 1).launchVerify 1
        ⟨fun _ => 0, fun _ => -1, fun _ => 0⟩ = some b' ∧
      ∀ bx s, [some 0][bx]? = some (some s) →
        (∃ rows, mask = some rows ∧ ∀ v, v < 3 →
          ExactRow pairMatcher chainArgs 4 bx (chainTree.ordered 3) s v (rows (bx * 3 + v))) ∧
        Legal pairMatcher.toEnv s (rowTokens b'.predicts (chainArgs.acceptRow b' bx)) ∧
        ∀ (r : Req Nat) (thinkEndId : Option Int) (e : Req Nat), r.grammar = some s →
          eagleCommit pairMatcher.toEnv thinkEndId b'.predicts r (chainArgs.acceptRow b' bx) ≠
            .error e :=
  verify_grammar (a := chainArgs) pairMatcher_lawful (by decide) (by decide) (by decide)
    (fun x => by
      match x with
      | 0 | 1 | 2 => decide
      | x + 3 => simp [chainArgs])
    (fun _ => chainTree.ordered 3) [some 0]
    (fun bx hbx => by
      obtain rfl : bx = 0 := Nat.lt_one_iff.mp hbx
      exact chainArgs_rowWellFormed)
    (fun _ _ => rfl) _ (fun _ t _ => Nat.succ_pos t) _ fun _ => rfl

end SpecDecode.Eagle
