import SpecDecode.Eagle.VerifyGreedySpec
import SpecDecode.Scheduler.VerifyCommit

/-!
# Vocabulary masks along a draft tree

With a grammar, the target may only predict what the grammar allows. `traverse_tree` walks
the draft tree depth first, moves the grammar along with it, writes the mask of every node it
gets to and takes the grammar back again. The grammar backend is a parameter.

A mask has a row for every node; 32 tokens share a word. Token ids are not negative.
-/

namespace SpecDecode.Eagle

open Function Buffer Scheduler

abbrev MaskRow := Nat → BitVec 32

structure Matcher (σ : Type) extends Env σ where
  rollback : σ → Nat → σ
  fillVocabMask : σ → MaskRow → MaskRow

/-- `parent_bitmask[token // 32] & (1 << (token % 32)) != 0`. -/
def MaskRow.allows (row : MaskRow) (token : Nat) : Bool :=
  row (token / 32) &&& (1#32 <<< (token % 32)) ≠ 0#32

def freshRow : MaskRow := fun _ => BitVec.allOnes 32

variable {σ : Type} (g : Matcher σ) (a : VerifyArgs) (vocabSize : Nat)

/-- The part of `dfs` before the sibling: `accept` and `rollback` around the call `next` for the
first child. -/
def visit (next : Nat → Int → σ × (Nat → MaskRow) → Option (σ × (Nat → MaskRow))) (bx curr : Nat)
    (parentPos : Int) : σ × (Nat → MaskRow) → Option (σ × (Nat → MaskRow))
  | (s, mask) =>
      let token := a.candidates (bx * a.numDraftTokens + curr)
      let accepted :=
        if curr = 0 then true
        else if vocabSize ≠ 0 ∧ (vocabSize : Int) ≤ token then false
        else (mask parentPos.toNat).allows token.toNat
      if accepted then
        match if curr ≠ 0 then g.acceptToken s token else some s with
        | none => none
        | some s =>
            let below :=
              if g.isTerminated s then some (s, mask)
              else
                let mask := update mask curr (g.fillVocabMask s (mask curr))
                let child := a.retriveNextToken (bx * a.numDraftTokens + curr)
                if child ≠ -1 then next child.toNat curr (s, mask) else some (s, mask)
            below.map fun (s, mask) => (if curr ≠ 0 then g.rollback s 1 else s, mask)
      else some (s, mask)

/-- `dfs` of `traverse_tree` in the tree of request `bx`; `none` if `accept_token` raises, or if
there is no end. -/
def dfs (bx : Nat) : (fuel : Nat) → (curr : Nat) → (parentPos : Int) → σ × (Nat → MaskRow) →
    Option (σ × (Nat → MaskRow))
  | 0, _, _, _ => none
  | fuel + 1, curr, parentPos, state =>
      match visit g a vocabSize (dfs bx fuel) bx curr parentPos state with
      | none => none
      | some state =>
          let sibling := a.retriveNextSibling (bx * a.numDraftTokens + curr)
          if sibling ≠ -1 then dfs bx fuel sibling.toNat parentPos state else some state

/-- `traverse_tree`. A call path has at most `num_draft_tokens` nodes. -/
def traverseTree (bx : Nat) (s : σ) (mask : Nat → MaskRow) : Option (σ × (Nat → MaskRow)) :=
  dfs g a vocabSize bx (a.numDraftTokens + 1) 0 (-1) (s, mask)

/-- The loop of `generate_token_bitmask` from request `i` on: the grammars after it and the mask,
which is allocated at the first grammar. -/
def generateFrom (i : Nat) : List (Option σ) → Option (Nat → MaskRow) →
    Option (List (Option σ) × Option (Nat → MaskRow))
  | [], mask => some ([], mask)
  | none :: grammars, mask =>
      (generateFrom (i + 1) grammars mask).map fun (grammars, mask) => (none :: grammars, mask)
  | some s :: grammars, mask =>
      let mask := mask.getD fun _ => freshRow
      match traverseTree g a vocabSize i s (row mask (i * a.numDraftTokens)) with
      | none => none
      | some (s, rows) =>
          let mask := fill mask (i * a.numDraftTokens) a.numDraftTokens rows
          (generateFrom (i + 1) grammars (some mask)).map fun (grammars, mask) =>
            (some s :: grammars, mask)

/-- `generate_token_bitmask`. -/
def generateTokenBitmask (grammars : List (Option σ)) :
    Option (List (Option σ) × Option (Nat → MaskRow)) :=
  generateFrom g a vocabSize 0 grammars none

/-- What the walk relies on: a rollback takes back one token, and the mask of a grammar that is
not terminated has the tokens it accepts, of which there is one. -/
structure Matcher.Lawful (g : Matcher σ) (vocabSize : Nat) : Prop where
  rollback_accept : ∀ s t s', g.isTerminated s = false → g.acceptToken s t = some s' →
    g.rollback s' 1 = s
  fill_allows : ∀ s, g.isTerminated s = false → ∀ t : Nat, t < vocabSize →
    ((g.fillVocabMask s freshRow).allows t = true ↔ (g.acceptToken s t).isSome = true)
  live : ∀ s, g.isTerminated s = false → ∃ t : Nat, t < vocabSize ∧
    (g.acceptToken s t).isSome = true

section Walk

variable {g a vocabSize} {bx : Nat} {t : OrderedTree a.numDraftTokens}

inductive MovedTo (g : Matcher σ) (a : VerifyArgs) (vocabSize bx : Nat)
    (t : OrderedTree a.numDraftTokens) (s : σ) (xs : List Nat) : Nat → σ → Prop where
  | start {x : Nat} {s' : σ} (hx : x ∈ xs)
      (hvocab : a.candidates (bx * a.numDraftTokens + x) < vocabSize)
      (haccept : g.acceptToken s (a.candidates (bx * a.numDraftTokens + x)) = some s') :
      MovedTo g a vocabSize bx t s xs x s'
  | child {v c : Nat} {s₁ s₂ : σ} (h : MovedTo g a vocabSize bx t s xs v s₁)
      (hlive : g.isTerminated s₁ = false) (hc : c ∈ t.children v)
      (hvocab : a.candidates (bx * a.numDraftTokens + c) < vocabSize)
      (haccept : g.acceptToken s₁ (a.candidates (bx * a.numDraftTokens + c)) = some s₂) :
      MovedTo g a vocabSize bx t s xs c s₂

variable {s s' : σ} {xs : List Nat} {w x : Nat} {mask : Nat → MaskRow}

theorem MovedTo.isBelow
    (h : MovedTo g a vocabSize bx t s xs w s') : ∃ x ∈ xs, t.Below x w := by
  induction h with
  | @start x _ hx _ _ => exact ⟨x, hx, .refl⟩
  | child _ _ hc _ _ ih =>
      obtain ⟨x, hx, hxv⟩ := ih
      exact ⟨x, hx, hxv.tail hc⟩

theorem MovedTo.mono {ys : List Nat}
    (h : MovedTo g a vocabSize bx t s xs w s') (hsub : ∀ x ∈ xs, x ∈ ys) :
    MovedTo g a vocabSize bx t s ys w s' := by
  induction h with
  | start hx hvocab haccept => exact .start (hsub _ hx) hvocab haccept
  | child _ hlive hc hvocab haccept ih => exact .child ih hlive hc hvocab haccept

theorem movedTo_cons :
    MovedTo g a vocabSize bx t s (x :: xs) w s' ↔
      MovedTo g a vocabSize bx t s [x] w s' ∨ MovedTo g a vocabSize bx t s xs w s' := by
  constructor
  · intro h
    induction h with
    | start hx hvocab haccept =>
        rcases List.mem_cons.mp hx with rfl | hx
        · exact .inl (.start List.mem_cons_self hvocab haccept)
        · exact .inr (.start hx hvocab haccept)
    | child _ hlive hc hvocab haccept ih =>
        rcases ih with ih | ih
        · exact .inl (.child ih hlive hc hvocab haccept)
        · exact .inr (.child ih hlive hc hvocab haccept)
  · rintro (h | h)
    · exact h.mono fun y hy => List.mem_cons.mpr (.inl (List.mem_singleton.mp hy))
    · exact h.mono fun y hy => List.mem_cons_of_mem _ hy

theorem movedTo_singleton {s'' : σ} (hvocab : a.candidates (bx * a.numDraftTokens + x) < vocabSize)
    (haccept : g.acceptToken s (a.candidates (bx * a.numDraftTokens + x)) = some s')
    (hlive : g.isTerminated s' = false) :
    MovedTo g a vocabSize bx t s [x] w s'' ↔
      w = x ∧ s'' = s' ∨ MovedTo g a vocabSize bx t s' (t.children x) w s'' := by
  constructor
  · intro h
    induction h with
    | start hx _ haccept' =>
        obtain rfl := List.mem_singleton.mp hx
        exact .inl ⟨rfl, Option.some.inj (haccept'.symm.trans haccept)⟩
    | child _ hlive' hc hvocab' haccept' ih =>
        rcases ih with ⟨rfl, rfl⟩ | ih
        · exact .inr (.start hc hvocab' haccept')
        · exact .inr (.child ih hlive' hc hvocab' haccept')
  · rintro (⟨rfl, rfl⟩ | h)
    · exact .start List.mem_cons_self hvocab haccept
    · induction h with
      | start hx hvocab' haccept' =>
          exact .child (.start List.mem_cons_self hvocab haccept) hlive hx hvocab' haccept'
      | child _ hlive' hc hvocab' haccept' ih => exact .child ih hlive' hc hvocab' haccept'

structure Written (g : Matcher σ) (a : VerifyArgs) (vocabSize bx : Nat)
    (t : OrderedTree a.numDraftTokens) (s : σ) (xs : List Nat) (mask mask' : Nat → MaskRow) :
    Prop where
  rows : ∀ w s', MovedTo g a vocabSize bx t s xs w s' → g.isTerminated s' = false →
    mask' w = g.fillVocabMask s' freshRow
  rest : ∀ w, (∀ s', MovedTo g a vocabSize bx t s xs w s' → g.isTerminated s' = true) →
    mask' w = mask w

theorem Written.keep {mask' : Nat → MaskRow}
    (h : Written g a vocabSize bx t s xs mask mask') (hw : ∀ x ∈ xs, ¬ t.Below x w) :
    mask' w = mask w := by
  refine h.rest w fun s' hmoved => ?_
  obtain ⟨x, hx, hxw⟩ := hmoved.isBelow
  exact absurd hxw (hw x hx)

theorem Written.trans {v : Nat} (hxs : ∀ y ∈ x :: xs, y ∈ t.children v)
    (hnodup : (x :: xs).Nodup) {mask₁ mask₂ : Nat → MaskRow}
    (h₁ : Written g a vocabSize bx t s [x] mask mask₁)
    (h₂ : Written g a vocabSize bx t s xs mask₁ mask₂) :
    Written g a vocabSize bx t s (x :: xs) mask mask₂ := by
  have hdisjoint : ∀ {w}, t.Below x w → ∀ y ∈ xs, ¬ t.Below y w := by
    intro w hw y hy hyw
    have heq := OrderedTree.eq_of_below (hxs x List.mem_cons_self)
      (hxs y (List.mem_cons_of_mem _ hy)) hw hyw
    exact (List.nodup_cons.mp hnodup).1 (heq ▸ hy)
  constructor
  · intro w s' hmoved hlive
    rcases movedTo_cons.mp hmoved with hx | hrest
    · obtain ⟨y, hy, hyw⟩ := hx.isBelow
      obtain rfl := List.mem_singleton.mp hy
      rw [h₂.keep (hdisjoint hyw), h₁.rows w s' hx hlive]
    · exact h₂.rows w s' hrest hlive
  · intro w hnone
    rw [h₂.rest w fun s' hs' => hnone s' (movedTo_cons.mpr (.inr hs')),
      h₁.rest w fun s' hs' => hnone s' (movedTo_cons.mpr (.inl hs'))]

theorem chain_cons {next : Nat → Int} {head : Int} {y : Nat} {ys : List Nat}
    (h : Chain next head (y :: ys)) : head = y ∧ Chain next (next y) ys := by
  cases h with
  | cons rest => exact ⟨rfl, rest⟩

variable (hg : g.Lawful vocabSize) (hvocab : 0 < vocabSize) (hids : ∀ x, 0 ≤ a.candidates x)

include hg hvocab hids

omit hg in
theorem accepted_iff {row : MaskRow} (hrow : ∀ t : Nat, t < vocabSize →
      (row.allows t = true ↔ (g.acceptToken s t).isSome = true)) (x : Nat) :
    ((if vocabSize ≠ 0 ∧ (vocabSize : Int) ≤ a.candidates x then false
      else row.allows (a.candidates x).toNat) = true) ↔
      a.candidates x < vocabSize ∧ (g.acceptToken s (a.candidates x)).isSome = true := by
  have hnat : ((a.candidates x).toNat : Int) = a.candidates x := Int.toNat_of_nonneg (hids x)
  by_cases hout : (vocabSize : Int) ≤ a.candidates x
  · rw [if_pos ⟨Nat.pos_iff_ne_zero.mp hvocab, hout⟩]
    simp only [Bool.false_eq_true, false_iff, not_and]
    omega
  · rw [if_neg fun h => hout h.2, hrow _ (by omega), hnat]
    exact ⟨fun h => ⟨by omega, h⟩, fun h => h.2⟩

/-- What is expected of a walk below the children of `x`. -/
def Descends (g : Matcher σ) (a : VerifyArgs) (vocabSize bx : Nat)
    (t : OrderedTree a.numDraftTokens) (x : Nat)
    (next : Nat → Int → σ × (Nat → MaskRow) → Option (σ × (Nat → MaskRow))) : Prop :=
  ∀ c cs s mask, t.children x = c :: cs → g.isTerminated s = false →
    (∀ t : Nat, t < vocabSize →
      ((mask x).allows t = true ↔ (g.acceptToken s t).isSome = true)) →
    (∀ y ∈ c :: cs, ∀ w, t.Below y w → mask w = freshRow) →
    ∃ mask', next c x (s, mask) = some (s, mask') ∧
      Written g a vocabSize bx t s (c :: cs) mask mask'

omit hvocab hids in
theorem visit_below (hwf : a.RowWellFormed bx t) (hx : x < a.numDraftTokens)
    {next : Nat → Int → σ × (Nat → MaskRow) → Option (σ × (Nat → MaskRow))}
    (hnext : Descends g a vocabSize bx t x next) (hlive : g.isTerminated s = false)
    (hfresh : ∀ w, t.Below x w → mask w = freshRow) :
    ∃ mask', (if a.retriveNextToken (bx * a.numDraftTokens + x) ≠ -1 then
        next (a.retriveNextToken (bx * a.numDraftTokens + x)).toNat x
          (s, update mask x (g.fillVocabMask s (mask x)))
      else some (s, update mask x (g.fillVocabMask s (mask x)))) = some (s, mask') ∧
      mask' x = g.fillVocabMask s freshRow ∧
      (∀ w s', MovedTo g a vocabSize bx t s (t.children x) w s' → g.isTerminated s' = false →
        mask' w = g.fillVocabMask s' freshRow) ∧
      ∀ w, w ≠ x → (∀ s', MovedTo g a vocabSize bx t s (t.children x) w s' →
        g.isTerminated s' = true) → mask' w = mask w := by
  have hchain := hwf.chains x hx
  have hself : update mask x (g.fillVocabMask s (mask x)) x =
      g.fillVocabMask s freshRow := by
    rw [update_self, hfresh x .refl]
  cases hchildren : t.children x with
  | nil =>
      rw [hchildren] at hchain
      rw [if_neg (not_not.mpr (hchain.head_eq_neg_one_iff.mpr rfl))]
      refine ⟨_, rfl, hself, fun w s' hmoved => ?_, fun w hw _ => update_of_ne hw _ _⟩
      obtain ⟨c, hc, -⟩ := hmoved.isBelow
      cases hc
  | cons c cs =>
      rw [hchildren] at hchain
      obtain ⟨hhead, -⟩ := chain_cons hchain
      have hbelow : ∀ y ∈ c :: cs, ¬ t.Below y x := fun y hy =>
        OrderedTree.not_below_parent (by rwa [hchildren])
      obtain ⟨mask', hdfs, hwritten⟩ := hnext c cs s
        (update mask x (g.fillVocabMask s (mask x))) hchildren hlive
        (fun t ht => by rw [hself]; exact hg.fill_allows s hlive t ht)
        (fun y hy w hw => by
          have hne : w ≠ x := fun h => hbelow y hy (h ▸ hw)
          rw [update_of_ne hne]
          exact hfresh w (.head (by rwa [hchildren]) hw))
      refine ⟨mask', ?_, ?_, hwritten.rows, fun w hw hnone => ?_⟩
      · rw [hhead, if_pos (by omega), Int.toNat_natCast]
        exact hdfs
      · rw [hwritten.keep hbelow, hself]
      · rw [hwritten.rest w hnone, update_of_ne hw]

theorem visit_eq (hwf : a.RowWellFormed bx t) {v : Nat} (hxv : x ∈ t.children v)
    {next : Nat → Int → σ × (Nat → MaskRow) → Option (σ × (Nat → MaskRow))}
    (hnext : Descends g a vocabSize bx t x next) (hlive : g.isTerminated s = false)
    (hrow : ∀ t : Nat, t < vocabSize →
      ((mask v).allows t = true ↔ (g.acceptToken s t).isSome = true))
    (hfresh : ∀ w, t.Below x w → mask w = freshRow) :
    ∃ mask', visit g a vocabSize next bx x v (s, mask) = some (s, mask') ∧
      Written g a vocabSize bx t s [x] mask mask' := by
  have hx0 : x ≠ 0 := fun h => t.root_orphan v (h ▸ hxv)
  have hasked := accepted_iff hvocab hids hrow (bx * a.numDraftTokens + x)
  unfold visit
  simp only [if_neg hx0, if_pos hx0, Int.toNat_natCast]
  by_cases haccepted : a.candidates (bx * a.numDraftTokens + x) < vocabSize ∧
      (g.acceptToken s (a.candidates (bx * a.numDraftTokens + x))).isSome = true
  · obtain ⟨hlt, hsome⟩ := haccepted
    obtain ⟨s', hs'⟩ := Option.isSome_iff_exists.mp hsome
    rw [if_pos (hasked.mpr ⟨hlt, hsome⟩), hs']
    simp only
    by_cases hterm : g.isTerminated s' = true
    · refine ⟨mask, ?_, ?_⟩
      · rw [if_pos hterm, Option.map_some, hg.rollback_accept s _ s' hlive hs']
      -- nothing below a terminated grammar
      · have honly : ∀ w s'', MovedTo g a vocabSize bx t s [x] w s'' →
            g.isTerminated s'' = true := by
          intro w s'' hmoved
          induction hmoved with
          | start hx _ haccept =>
              obtain rfl := List.mem_singleton.mp hx
              rw [← Option.some.inj (hs'.symm.trans haccept)]
              exact hterm
          | child _ hlive' _ _ _ ih =>
              rw [ih] at hlive'
              cases hlive'
        refine ⟨fun w s'' hmoved hlive' => ?_, fun w _ => rfl⟩
        rw [honly w s'' hmoved] at hlive'
        cases hlive'
    · have hlive' : g.isTerminated s' = false := by simpa using hterm
      obtain ⟨mask', hbelow, hself, hrows, hrest⟩ :=
        visit_below hg hwf (t.child_lt hxv) hnext hlive'
        hfresh
      have hiff : ∀ w s'', MovedTo g a vocabSize bx t s [x] w s'' ↔
          w = x ∧ s'' = s' ∨ MovedTo g a vocabSize bx t s' (t.children x) w s'' :=
        fun _ _ => movedTo_singleton hlt hs' hlive'
      refine ⟨mask', ?_, ⟨fun w s'' hmoved hs'' => ?_, fun w hnone => ?_⟩⟩
      · rw [if_neg hterm, hbelow, Option.map_some, hg.rollback_accept s _ s' hlive hs']
      · rcases (hiff w s'').mp hmoved with ⟨rfl, rfl⟩ | hdeep
        · exact hself
        · exact hrows w s'' hdeep hs''
      · refine hrest w (fun hw => ?_) fun s'' hdeep => hnone s'' ((hiff w s'').mpr (.inr hdeep))
        have hdone := hnone s' ((hiff w s').mpr (.inl ⟨hw, rfl⟩))
        rw [hlive'] at hdone
        cases hdone
  · rw [if_neg (hasked.not.mpr haccepted)]
    refine ⟨mask, rfl, ⟨fun w s'' hmoved => ?_, fun w _ => rfl⟩⟩
    exfalso
    induction hmoved with
    | start hx hlt haccept =>
        obtain rfl := List.mem_singleton.mp hx
        exact haccepted ⟨hlt, by rw [haccept]; rfl⟩
    | child _ _ _ _ _ ih => exact ih

theorem dfs_eq (hwf : a.RowWellFormed bx t) (fuel : Nat) {v : Nat}
    (hxs : ∀ y ∈ x :: xs, y ∈ t.children v) (hnodup : (x :: xs).Nodup)
    (hchain : Chain (row a.retriveNextSibling (bx * a.numDraftTokens))
      (a.retriveNextSibling (bx * a.numDraftTokens + x)) xs)
    (hweight : t.weight (x :: xs) ≤ fuel) (hlive : g.isTerminated s = false)
    (hrow : ∀ t : Nat, t < vocabSize →
      ((mask v).allows t = true ↔ (g.acceptToken s t).isSome = true))
    (hfresh : ∀ y ∈ x :: xs, ∀ w, t.Below y w → mask w = freshRow) :
    ∃ mask', dfs g a vocabSize bx fuel x v (s, mask) = some (s, mask') ∧
      Written g a vocabSize bx t s (x :: xs) mask mask' := by
  induction fuel generalizing v x xs s mask with
  | zero =>
      have hx := t.child_lt (hxs x List.mem_cons_self)
      have hpos : t.weight [] < t.weight (x :: xs) :=
        OrderedTree.weight_lt hx List.mem_cons_self (fun y hy => by cases hy)
          fun y hy => by cases hy
      omega
  | succ fuel ih =>
      have hxv := hxs x List.mem_cons_self
      have hx := t.child_lt hxv
      have hnext : Descends g a vocabSize bx t x (dfs g a vocabSize bx fuel) := by
        intro c cs s' mask' hchildren hlive' hrow' hfresh'
        have hmem : ∀ y ∈ c :: cs, y ∈ t.children x := fun y hy => by rwa [hchildren]
        have hchain' := hwf.chains x hx
        rw [hchildren] at hchain'
        have hless : t.weight (c :: cs) < t.weight (x :: xs) :=
          OrderedTree.weight_lt hx List.mem_cons_self
            (fun y hy => ⟨x, List.mem_cons_self, .single (hmem y hy)⟩)
            fun y hy => OrderedTree.not_below_parent (hmem y hy)
        exact ih hmem (hchildren ▸ t.nodup x) (chain_cons hchain').2 (by omega) hlive' hrow' hfresh'
      obtain ⟨mask₁, hvisit, hwritten⟩ := visit_eq hg hvocab hids hwf hxv hnext hlive hrow
        (hfresh x List.mem_cons_self)
      unfold dfs
      rw [hvisit]
      cases xs with
      | nil =>
          have hend := hchain.head_eq_neg_one_iff.mpr rfl
          refine ⟨mask₁, ?_, hwritten⟩
          simp only [hend]
          rfl
      | cons y ys =>
          obtain ⟨hhead, hrest⟩ := chain_cons hchain
          have hsib : ∀ z ∈ y :: ys, ∀ w, t.Below z w → ¬ t.Below x w := by
            intro z hz w hzw hxw
            have heq := OrderedTree.eq_of_below hxv (hxs z (List.mem_cons_of_mem _ hz)) hxw hzw
            exact (List.nodup_cons.mp hnodup).1 (heq ▸ hz)
          have hkeep : ∀ {w}, ¬ t.Below x w → mask₁ w = mask w := fun hw =>
            hwritten.keep fun z hz => List.mem_singleton.mp hz ▸ hw
          have hless : t.weight (y :: ys) < t.weight (x :: y :: ys) :=
            OrderedTree.weight_lt hx List.mem_cons_self
              (fun z hz => ⟨z, List.mem_cons_of_mem _ hz, .refl⟩)
              fun z hz hzx => hsib z hz x hzx .refl
          have hrow₁ : ∀ t : Nat, t < vocabSize →
              ((mask₁ v).allows t = true ↔ (g.acceptToken s t).isSome = true) := by
            rwa [hkeep (OrderedTree.not_below_parent hxv)]
          have hfresh₁ : ∀ z ∈ y :: ys, ∀ w, t.Below z w → mask₁ w = freshRow := by
            intro z hz w hw
            rw [hkeep (hsib z hz w hw)]
            exact hfresh z (List.mem_cons_of_mem _ hz) w hw
          obtain ⟨mask₂, hdfs, hwritten₂⟩ := ih (fun z hz => hxs z (List.mem_cons_of_mem _ hz))
            (List.nodup_cons.mp hnodup).2 hrest (by omega) hlive hrow₁ hfresh₁
          refine ⟨mask₂, ?_, hwritten.trans hxs hnodup hwritten₂⟩
          simp only [hhead]
          rw [if_pos (by omega), Int.toNat_natCast]
          exact hdfs

/-- The state of the grammar after the tokens from the root to `v`, if it takes them all. -/
def GrammarAt (g : Matcher σ) (a : VerifyArgs) (vocabSize bx : Nat)
    (t : OrderedTree a.numDraftTokens) (s : σ) (v : Nat) (s' : σ) : Prop :=
  v = 0 ∧ s' = s ∨ g.isTerminated s = false ∧ MovedTo g a vocabSize bx t s (t.children 0) v s'

structure RowOf (g : Matcher σ) (a : VerifyArgs) (vocabSize bx : Nat)
    (t : OrderedTree a.numDraftTokens) (s : σ) (v : Nat) (row : MaskRow) : Prop where
  filled : ∀ s', GrammarAt g a vocabSize bx t s v s' → g.isTerminated s' = false →
    row = g.fillVocabMask s' freshRow
  unfilled : (∀ s', GrammarAt g a vocabSize bx t s v s' → g.isTerminated s' = true) → row = freshRow

theorem traverseTree_eq (hwf : a.RowWellFormed bx t) (hn : 0 < a.numDraftTokens)
    (hroot : a.retriveNextSibling (bx * a.numDraftTokens) = -1) (s : σ)
    (hfresh : ∀ w, w < a.numDraftTokens → mask w = freshRow) :
    ∃ mask', traverseTree g a vocabSize bx s mask = some (s, mask') ∧
      ∀ v, v < a.numDraftTokens → RowOf g a vocabSize bx t s v (mask' v) := by
  have hbelow : ∀ w, t.Below 0 w → mask w = freshRow := by
    intro w hw
    refine hfresh w ?_
    rcases hw.cases_tail with rfl | ⟨p, -, hp⟩
    · exact hn
    · exact t.child_lt hp
  have hnext : Descends g a vocabSize bx t 0 (dfs g a vocabSize bx a.numDraftTokens) := by
    intro c cs s' mask' hchildren hlive hrow' hfresh'
    have hchain := hwf.chains 0 hn
    rw [hchildren] at hchain
    exact dfs_eq hg hvocab hids hwf _ (fun y hy => by rwa [hchildren]) (hchildren ▸ t.nodup 0)
      (chain_cons hchain).2 (OrderedTree.weight_le _) hlive hrow' hfresh'
  have hvisit : ∃ mask', visit g a vocabSize (dfs g a vocabSize bx a.numDraftTokens) bx 0 (-1)
      (s, mask) = some (s, mask') ∧
        ∀ v, v < a.numDraftTokens → RowOf g a vocabSize bx t s v (mask' v) := by
    unfold visit
    simp only [if_true, ne_eq, not_true_eq_false, if_false]
    by_cases hterm : g.isTerminated s = true
    · rw [if_pos hterm]
      refine ⟨mask, rfl, fun v hv => ⟨fun s' hat hlive => ?_, fun _ => hfresh v hv⟩⟩
      rcases hat with ⟨-, rfl⟩ | ⟨hlive', -⟩
      · rw [hterm] at hlive
        cases hlive
      · rw [hterm] at hlive'
        cases hlive'
    · have hlive : g.isTerminated s = false := by simpa using hterm
      obtain ⟨mask', hdone, hself, hrows, hrest⟩ := visit_below hg hwf hn hnext hlive hbelow
      refine ⟨mask', ?_, fun v hv => ⟨fun s' hat hlive' => ?_, fun hnone => ?_⟩⟩
      · rw [if_neg hterm, hdone]
        rfl
      · rcases hat with ⟨rfl, rfl⟩ | ⟨-, hmoved⟩
        · exact hself
        · exact hrows v s' hmoved hlive'
      · have hv0 : v ≠ 0 := by
          rintro rfl
          rw [hnone s (.inl ⟨rfl, rfl⟩)] at hlive
          cases hlive
        rw [hrest v hv0 fun s' hmoved => hnone s' (.inr ⟨hlive, hmoved⟩)]
        exact hfresh v hv
  obtain ⟨mask', hdone, hrows⟩ := hvisit
  refine ⟨mask', ?_, hrows⟩
  unfold traverseTree dfs
  rw [hdone]
  simp only [Nat.add_zero, hroot]
  rfl

end Walk

end SpecDecode.Eagle
