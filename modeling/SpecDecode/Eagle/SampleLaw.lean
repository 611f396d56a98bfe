import SpecDecode.Eagle.SamplePath
import Mathlib.Data.List.Dedup

/-!
# The law of sampling along a draft tree

With uniform coins the emitted tokens begin with the tokens of a path and one token more with the
chance that the target gives to them (`Fair.chance`). The coin of a node on the path decides
between its children, that of the last node and the last coin share the next token.
-/

namespace SpecDecode.Eagle

open Function MeasureTheory Set

/-- The chance that the target samples some tokens one by one behind a context. -/
def sampleProb (target : List Nat → Nat → ℝ) : (context tokens : List Nat) → ℝ
  | _, [] => 1
  | context, x :: xs => target context x * sampleProb target (context ++ [x]) xs

namespace SampleTree

variable {n : Nat} {t : SampleTree n ℝ} {v c x limit : Nat} {path : List Nat}

/-- The rows of the target are distributions, and siblings carry distinct tokens of the
vocabulary. -/
structure Rows (t : SampleTree n ℝ) : Prop where
  prob_nonneg : ∀ v x, v < n → x < t.vocab → 0 ≤ t.prob v x
  prob_sum : ∀ v, v < n → ∑ x ∈ Finset.range t.vocab, t.prob v x = 1
  token_lt : ∀ v, ∀ c ∈ t.children v, t.token c < t.vocab
  distinct : ∀ v, (t.tokens v).Nodup

/-- The thresholds relax nothing besides. -/
structure Fair (t : SampleTree n ℝ) : Prop extends t.Rows where
  acc : t.thresholdAcc = 1
  single : 1 ≤ t.thresholdSingle

/-- The rows are what the target gives behind the tokens that lead to the node. -/
def DecodedBy (t : SampleTree n ℝ) (target : List Nat → Nat → ℝ) : Prop :=
  ∀ v p, t.Context v p → ∀ x, x < t.vocab → t.prob v x = target p x

def childProbs (t : SampleTree n ℝ) (v : Nat) : List ℝ := (t.tokens v).map (t.prob v)

theorem sum_range_map (f : Nat → ℝ) (m : Nat) :
    ((List.range m).map f).sum = ∑ x ∈ Finset.range m, f x := rfl

namespace Rows

theorem mem_tokens_lt (h : t.Rows) (hx : x ∈ t.tokens v) : x < t.vocab := by
  obtain ⟨c, hc, rfl⟩ := List.mem_map.mp hx
  exact h.token_lt v c hc

section

variable (h : t.Rows) (hv : v < n)

include h hv

theorem childProbs_nonneg : ∀ p ∈ t.childProbs v, 0 ≤ p := by
  intro p hp
  obtain ⟨x, hx, rfl⟩ := List.mem_map.mp hp
  exact h.prob_nonneg v x hv (h.mem_tokens_lt hx)

private theorem residual_nonneg (atLimit : Bool) (hx : x < t.vocab) :
    0 ≤ t.residual atLimit v x := by
  rw [residual]
  split
  · exact le_rfl
  · exact h.prob_nonneg v x hv hx

theorem residuals_nonneg (atLimit : Bool) :
    ∀ p ∈ t.residuals atLimit v, 0 ≤ p := by
  intro p hp
  obtain ⟨x, hx, rfl⟩ := List.mem_map.mp hp
  exact h.residual_nonneg hv atLimit (List.mem_range.mp hx)

theorem residuals_sum_limit : (t.residuals true v).sum = 1 := by
  have hrow : t.residual true v = t.prob v := by
    funext x
    simp [residual]
  rw [residuals, hrow, sum_range_map, h.prob_sum v hv]

theorem residuals_sum : (t.residuals false v).sum = 1 - (t.childProbs v).sum := by
  have hsplit : ∀ x, t.prob v x =
      (if x ∈ (t.tokens v).toFinset then t.prob v x else 0) + t.residual false v x := by
    intro x
    by_cases hx : x ∈ t.tokens v <;> simp [residual, hx]
  have hsub : Finset.range t.vocab ∩ (t.tokens v).toFinset = (t.tokens v).toFinset := by
    rw [Finset.inter_eq_right]
    intro x hx
    exact Finset.mem_range.mpr (h.mem_tokens_lt (List.mem_toFinset.mp hx))
  have hsum := h.prob_sum v hv
  rw [Finset.sum_congr rfl fun x _ => hsplit x, Finset.sum_add_distrib, Finset.sum_ite_mem, hsub,
    List.sum_toFinset _ (h.distinct v)] at hsum
  rw [residuals, sum_range_map, childProbs]
  linarith

theorem childProbs_sum_le : (t.childProbs v).sum ≤ 1 := by
  have hrest := List.sum_nonneg (h.residuals_nonneg hv false)
  rw [h.residuals_sum hv] at hrest
  linarith

theorem finalToken_spec {atLimit : Bool} {y : ℝ} (hpos : 0 ≤ y)
    (hy : y < 1) (hsum : 0 < (t.residuals atLimit v).sum) :
    firstReach (y * (t.residuals atLimit v).sum < ·) 0 (t.residuals atLimit v) =
      some (t.finalToken y atLimit v) ∧
    t.finalToken y atLimit v < t.vocab ∧ 0 < t.residual atLimit v (t.finalToken y atLimit v) := by
  have hnonneg := h.residuals_nonneg hv atLimit
  have hmono : ∀ a b : ℝ, a ≤ b → y * (t.residuals atLimit v).sum < a →
      y * (t.residuals atLimit v).sum < b := fun a b hab ha => ha.trans_le hab
  have hstart : ¬ y * (t.residuals atLimit v).sum < 0 := (mul_nonneg hpos hsum.le).not_gt
  cases hreach : firstReach (y * (t.residuals atLimit v).sum < ·) 0 (t.residuals atLimit v) with
  | none =>
      rw [firstReach_eq_none_iff hmono hnonneg hstart, zero_add] at hreach
      exact absurd (by nlinarith) hreach
  | some x =>
      have hfinal : t.finalToken y atLimit v = x := by
        rw [finalToken, hreach, Option.getD_some]
      obtain ⟨hlt, hnext, hbefore⟩ := (firstReach_eq_some_iff hmono hnonneg hstart).mp hreach
      have hx : x < t.vocab := by simpa [residuals] using hlt
      have hweight : (t.residuals atLimit v)[x] = t.residual atLimit v x := by
        simp only [residuals, List.getElem_map, List.getElem_range]
      rw [List.sum_take_succ _ _ hlt, hweight] at hnext
      rw [hfinal]
      exact ⟨rfl, hx, by linarith⟩

end

/-- Where no child is accepted, the running sum has not reached the coin. -/
theorem acceptFrom_none {coin sum : ℝ} (hacc : 0 < t.thresholdAcc)
    (hsum : sum < coin * t.thresholdAcc) {cs : List Nat}
    (hnone : t.acceptFrom coin v sum cs = none) :
    sum + (cs.map fun c => t.prob v (t.token c)).sum < coin * t.thresholdAcc := by
  induction cs generalizing sum with
  | nil => simpa using hsum
  | cons c cs ih =>
      rw [acceptFrom] at hnone
      split at hnone
      · cases hnone
      · next hreject =>
          rw [not_or, not_le, div_lt_iff₀ hacc] at hreject
          rw [List.map_cons, List.sum_cons, ← add_assoc]
          exact ih hreject.1 hnone

theorem acceptFrom_pos {coin sum : ℝ} (hacc : 0 < t.thresholdAcc) (hsingle : 0 < t.thresholdSingle)
    (hsum : sum < coin * t.thresholdAcc) {cs : List Nat}
    (hsome : t.acceptFrom coin v sum cs = some c) : 0 < t.prob v (t.token c) := by
  induction cs generalizing sum with
  | nil => cases hsome
  | cons d cs ih =>
      rw [acceptFrom] at hsome
      split at hsome
      · next haccept =>
          obtain rfl := Option.some.inj hsome
          rcases haccept with hreach | hlarge
          · rw [le_div_iff₀ hacc] at hreach
            linarith
          · exact hsingle.trans_le hlarge
      · next hreject =>
          rw [not_or, not_le, div_lt_iff₀ hacc] at hreject
          exact ih hreject.1 hsome

/-- Where the coin accepts no child, something is left to draw from. -/
theorem residuals_sum_pos (h : t.Rows) (hv : v < n) (hacc : 0 < t.thresholdAcc)
    (hle : t.thresholdAcc ≤ 1) {y : ℝ} (hpos : 0 < y) (hy : y < 1)
    (hnone : t.nextNode y v = none) : 0 < (t.residuals false v).sum := by
  have hless := acceptFrom_none hacc (mul_pos hpos hacc) hnone
  have hprobs : (t.childProbs v).sum = ((t.children v).map fun c => t.prob v (t.token c)).sum := by
    rw [childProbs, tokens, List.map_map]
    rfl
  rw [h.residuals_sum hv, hprobs]
  nlinarith

end Rows

namespace Fair

section

variable (h : t.Fair) (hv : v < n)

include h hv

/-- Inside of `(0, 1)` a coin accepts the child at which the running sum reaches it. -/
theorem acceptFrom_eq {y sum : ℝ} (hy : y < 1) (hsum : 0 ≤ sum)
    {cs : List Nat} (hcs : ∀ c ∈ cs, t.token c < t.vocab) : t.acceptFrom y v sum cs =
      (firstReach (y ≤ ·) sum (cs.map fun c => t.prob v (t.token c))).bind (cs[·]?) := by
  induction cs generalizing sum with
  | nil => rfl
  | cons c cs ih =>
      have hprob := h.prob_nonneg v _ hv (hcs c List.mem_cons_self)
      have hreach : y ≤ (sum + t.prob v (t.token c)) / t.thresholdAcc ∨
          t.thresholdSingle ≤ t.prob v (t.token c) ↔ y ≤ sum + t.prob v (t.token c) := by
        rw [h.acc, div_one]
        refine or_iff_left_of_imp fun hsingle => ?_
        linarith [h.single]
      rw [acceptFrom, List.map_cons, firstReach, ih (add_nonneg hsum hprob) fun d hd =>
        hcs d (List.mem_cons_of_mem _ hd)]
      by_cases hle : y ≤ sum + t.prob v (t.token c)
      · rw [if_pos (hreach.mpr hle), if_pos hle]
        rfl
      · rw [if_neg fun hor => hle (hreach.mp hor), if_neg hle]
        cases firstReach (y ≤ ·) (sum + t.prob v (t.token c))
          (cs.map fun c => t.prob v (t.token c)) <;> rfl

theorem nextNode_eq {y : ℝ} (hy : y < 1) : t.nextNode y v =
    (firstReach (y ≤ ·) 0 (t.childProbs v)).bind ((t.children v)[·]?) := by
  rw [nextNode, h.acceptFrom_eq hv hy le_rfl (h.token_lt v), childProbs, tokens, List.map_map]
  rfl

theorem nextNode_eq_none_iff {y : ℝ} (hy : y < 1) :
    t.nextNode y v = none ↔ firstReach (y ≤ ·) 0 (t.childProbs v) = none := by
  rw [h.nextNode_eq hv hy]
  constructor
  · intro hnone
    cases hreach : firstReach (y ≤ ·) 0 (t.childProbs v) with
    | none => rfl
    | some i =>
        have hlt := firstReach_lt hreach
        rw [childProbs, tokens, List.length_map, List.length_map] at hlt
        rw [hreach, Option.bind_some, List.getElem?_eq_getElem hlt] at hnone
        cases hnone
  · intro hnone
    rw [hnone, Option.bind_none]

theorem toss_nextNode (hc : c ∈ t.children v) :
    toss {y | t.nextNode y v = some c} = ENNReal.ofReal (t.prob v (t.token c)) := by
  obtain ⟨i, hi, rfl⟩ := List.getElem_of_mem hc
  have hlength : (t.childProbs v).length = (t.children v).length := by
    rw [childProbs, tokens, List.length_map, List.length_map]
  have hi' : i < (t.childProbs v).length := hlength.symm ▸ hi
  have hweight : (t.childProbs v)[i] = t.prob v (t.token (t.children v)[i]) := by
    simp only [childProbs, tokens, List.getElem_map]
  rw [← hweight, ← toss_reach (h.childProbs_nonneg hv) (h.childProbs_sum_le hv) hi']
  refine toss_congr fun y _ hy => ?_
  rw [mem_ofPred_eq, mem_ofPred_eq, h.nextNode_eq hv hy]
  constructor
  · intro hsome
    obtain ⟨j, hj, hget⟩ := Option.bind_eq_some_iff.mp hsome
    have hlt := hlength ▸ firstReach_lt hj
    rw [List.getElem?_eq_getElem hlt, Option.some.injEq] at hget
    rw [hj, (t.nodup v).getElem_inj_iff.mp hget]
  · intro hsome
    rw [hsome, Option.bind_some, List.getElem?_eq_getElem hi]

theorem toss_nextNode_none :
    toss {y | t.nextNode y v = none} = ENNReal.ofReal (1 - (t.childProbs v).sum) := by
  rw [← toss_reach_none (h.childProbs_nonneg hv)]
  exact toss_congr fun y _ hy => h.nextNode_eq_none_iff hv hy

theorem toss_finalToken (atLimit : Bool) (hx : x < t.vocab)
    (hsum : 0 < (t.residuals atLimit v).sum) : toss {y | t.finalToken y atLimit v = x} =
      ENNReal.ofReal (t.residual atLimit v x / (t.residuals atLimit v).sum) := by
  have hx' : x < (t.residuals atLimit v).length := by simpa [residuals] using hx
  have hweight : (t.residuals atLimit v)[x] = t.residual atLimit v x := by
    simp only [residuals, List.getElem_map, List.getElem_range]
  rw [← hweight, ← toss_share (h.residuals_nonneg hv atLimit) hsum hx']
  refine toss_congr fun y hpos hy => ?_
  rw [mem_ofPred_eq, mem_ofPred_eq, (h.finalToken_spec hv hpos.le hy hsum).1, Option.some.injEq]

end

end Fair

/-- What the coin of a node does where the next token is `x`. -/
def headCoin (t : SampleTree n ℝ) (v x : Nat) : Set ℝ :=
  if x ∈ t.tokens v then {y | ∃ c, t.nextNode y v = some c ∧ t.token c = x}
  else {y | t.nextNode y v = none}

/-- What the last coin does where the next token is `x`. -/
def headLast (t : SampleTree n ℝ) (atLimit : Bool) (v x : Nat) : Set ℝ :=
  if atLimit = false ∧ x ∈ t.tokens v then univ else {y | t.finalToken y atLimit v = x}

namespace Fair

/-- Both coins together give the next token its probability. -/
theorem toss_head (h : t.Fair) (hv : v < n) (hx : x < t.vocab) :
    toss (t.headCoin v x) * toss (t.headLast false v x) = ENNReal.ofReal (t.prob v x) := by
  by_cases hmem : x ∈ t.tokens v
  · obtain ⟨c, hc, rfl⟩ := List.mem_map.mp hmem
    have hone : {y | ∃ d, t.nextNode y v = some d ∧ t.token d = t.token c} =
        {y | t.nextNode y v = some c} := by
      ext y
      constructor
      · rintro ⟨d, hd, htoken⟩
        rw [mem_ofPred_eq, hd, List.inj_on_of_nodup_map (h.distinct v) (nextNode_mem hd) hc htoken]
      · exact fun hd => ⟨c, hd, rfl⟩
    rw [headCoin, headLast, if_pos hmem, if_pos ⟨rfl, hmem⟩, hone, h.toss_nextNode hv hc,
      measure_univ, mul_one]
  · have hprob : t.residual false v x = t.prob v x := by
      rw [residual, if_neg fun hand => hmem hand.2]
    rw [headCoin, headLast, if_neg hmem, if_neg fun hand => hmem hand.2, h.toss_nextNode_none hv,
      ← h.residuals_sum hv]
    rcases (List.sum_nonneg (h.residuals_nonneg hv false)).eq_or_lt with hzero | hpos
    · have hle : t.prob v x ≤ (t.residuals false v).sum := by
        rw [← hprob]
        exact List.single_le_sum (h.residuals_nonneg hv false) _
          (List.mem_map.mpr ⟨x, List.mem_range.mpr hx, rfl⟩)
      have hnil : t.prob v x = 0 := le_antisymm (hzero ▸ hle) (h.prob_nonneg v x hv hx)
      rw [← hzero, hnil, ENNReal.ofReal_zero, zero_mul]
    · rw [h.toss_finalToken hv false hx hpos, hprob, ← ENNReal.ofReal_mul hpos.le,
        mul_div_cancel₀ _ hpos.ne']

theorem toss_head_limit (h : t.Fair) (hv : v < n) (hx : x < t.vocab) :
    toss (t.headLast true v x) = ENNReal.ofReal (t.prob v x) := by
  have hrow : t.residual true v x = t.prob v x := by simp [residual]
  have hsum := h.residuals_sum_limit hv
  rw [headLast, if_neg (by simp), h.toss_finalToken hv true hx (hsum ▸ one_pos), hrow,
    hsum, div_one]

theorem emits_head (h : t.Fair) (hv : v < n) {coins : Nat → ℝ} {last : ℝ}
    (hcoin : 0 < coins v ∧ coins v < 1) (hlast : 0 < last ∧ last < 1) :
    (t.emits coins last limit v).head? = some x ↔
      (limit ≠ 0 → coins v ∈ t.headCoin v x) ∧ last ∈ t.headLast (decide (limit = 0)) v x := by
  cases limit with
  | zero => simp [emits, headLast]
  | succ limit =>
      have hdraw : t.nextNode (coins v) v = none → t.finalToken last false v ∉ t.tokens v := by
        intro hnone hmem
        have hsum := h.residuals_sum_pos hv (h.acc ▸ one_pos) h.acc.le hcoin.1 hcoin.2 hnone
        have hleft := (h.finalToken_spec hv hlast.1.le hlast.2 hsum).2.2
        rw [residual, if_pos ⟨rfl, hmem⟩] at hleft
        exact lt_irrefl 0 hleft
      have hlimit : decide (limit + 1 = 0) = false := rfl
      rw [emits, hlimit, headCoin, headLast]
      by_cases hmem : x ∈ t.tokens v
      · rw [if_pos hmem, if_pos ⟨rfl, hmem⟩]
        cases hnext : t.nextNode (coins v) v with
        | none =>
            simp only [List.head?_cons, Option.some.injEq, mem_univ, and_true, mem_ofPred_eq, hnext]
            refine iff_of_false (fun heq => hdraw hnext (heq ▸ hmem)) fun hex => ?_
            obtain ⟨c, hc, -⟩ := hex (Nat.succ_ne_zero _)
            cases hc
        | some c => simp [hnext]
      · rw [if_neg hmem, if_neg fun hand => hmem hand.2]
        cases hnext : t.nextNode (coins v) v with
        | none => simp [hnext]
        | some c =>
            have hc : t.token c ∈ t.tokens v := List.mem_map_of_mem (nextNode_mem hnext)
            simp only [List.head?_cons, Option.some.injEq, mem_ofPred_eq, hnext]
            refine iff_of_false (fun heq => hmem (heq ▸ hc)) fun hand => ?_
            cases hand.1 (Nat.succ_ne_zero _)

end Fair

def pathProb (t : SampleTree n ℝ) : (v : Nat) → (path : List Nat) → ℝ
  | _, [] => 1
  | v, c :: path => t.prob v (t.token c) * pathProb t c path

/-- What the coins of the nodes do where the tokens of a path are emitted and then `x`. -/
def coinSets (t : SampleTree n ℝ) (x : Nat) : (limit v : Nat) → (path : List Nat) → Nat → Set ℝ
  | limit, v, [] =>
      if limit = 0 then fun _ => univ else update (fun _ => univ) v (t.headCoin v x)
  | limit, v, c :: path =>
      update (coinSets t x (limit - 1) c path) v {y | t.nextNode y v = some c}

theorem coinSets_of_notMem {u : Nat} (hu : u ∉ v :: path) : t.coinSets x limit v path u = univ := by
  induction path generalizing v limit with
  | nil =>
      have hne : u ≠ v := fun heq => hu (heq ▸ List.mem_cons_self)
      rw [coinSets]
      split
      · rfl
      · exact update_of_ne hne _ _
  | cons c path ih =>
      rw [List.mem_cons, not_or] at hu
      rw [coinSets, update_of_ne hu.1, ih hu.2]

theorem forall_mem_update_iff {f : Nat → Set ℝ} {s : Set ℝ} (hf : f v = univ) (coins : Nat → ℝ) :
    (∀ u, coins u ∈ update f v s u) ↔ coins v ∈ s ∧ ∀ u, coins u ∈ f u := by
  constructor
  · intro h
    refine ⟨by simpa using h v, fun u => ?_⟩
    by_cases hu : u = v
    · rw [hu, hf]
      exact mem_univ _
    · simpa [update_of_ne hu] using h u
  · rintro ⟨hs, h⟩ u
    by_cases hu : u = v
    · rw [hu, update_self]
      exact hs
    · rw [update_of_ne hu]
      exact h u

theorem prod_update {f : Nat → Set ℝ} {s : Set ℝ} (hf : f v = univ) (hv : v < n) :
    ∏ i ∈ Finset.range n, toss (update f v s i) =
      toss s * ∏ i ∈ Finset.range n, toss (f i) := by
  have hmem := Finset.mem_range.mpr hv
  rw [← Finset.mul_prod_erase _ _ hmem, ← Finset.mul_prod_erase _ (fun i => toss (f i)) hmem,
    update_self, hf, measure_univ, one_mul]
  congr 1
  exact Finset.prod_congr rfl fun i hi => by rw [update_of_ne (Finset.ne_of_mem_erase hi)]

namespace Fair

section

variable (h : t.Fair) (hpath : t.ChildPath v path) (hv : v < n)

include h hpath hv

/-- When the emitted tokens begin with the tokens of a path and then `x`. -/
theorem begins_iff
    (hlength : path.length ≤ limit) {coins : Nat → ℝ} {last : ℝ}
    (hcoins : ∀ u, u < n → 0 < coins u ∧ coins u < 1) (hlast : 0 < last ∧ last < 1) :
    path.map t.token ++ [x] <+: t.emits coins last limit v ↔
      (∀ u, coins u ∈ t.coinSets x limit v path u) ∧
        last ∈ t.headLast (decide (path.length = limit))
          ((v :: path).getLast (List.cons_ne_nil _ _)) x := by
  induction hpath generalizing limit with
  | @nil v =>
      have hhead : [x] <+: t.emits coins last limit v ↔
          (t.emits coins last limit v).head? = some x := by
        cases t.emits coins last limit v with
        | nil => simp
        | cons y ys => simp [List.cons_prefix_cons, eq_comm]
      have hsets : (∀ u, coins u ∈ t.coinSets x limit v [] u) ↔
          (limit ≠ 0 → coins v ∈ t.headCoin v x) := by
        rw [coinSets]
        split
        · next hzero => simp [hzero]
        · next hpos =>
            rw [forall_mem_update_iff rfl]
            simp [hpos]
      simp only [List.map_nil, List.nil_append, hhead, h.emits_head hv (hcoins v hv) hlast, hsets,
        List.length_nil, List.getLast_singleton, eq_comm (a := 0)]
  | @cons v c path hc rest ih =>
      obtain ⟨k, rfl⟩ := Nat.exists_eq_succ_of_ne_zero (Nat.ne_zero_of_lt hlength)
      have hfresh : t.coinSets x k c path v = univ :=
        coinSets_of_notMem (List.nodup_cons.mp (ChildPath.cons hc rest).nodup).1
      rw [coinSets, Nat.succ_sub_one, forall_mem_update_iff hfresh, and_assoc, emits,
        List.getLast_cons (List.cons_ne_nil c path), List.length_cons]
      simp only [Nat.succ_eq_add_one, Nat.add_right_cancel_iff]
      rw [← ih (t.child_lt hc) (Nat.le_of_succ_le_succ hlength)]
      simp only [List.map_cons, List.cons_append, mem_ofPred_eq]
      cases hnext : t.nextNode (coins v) v with
      | none =>
          refine iff_of_false (fun hprefix => ?_) fun hand => by cases hand.1
          have hle := hprefix.length_le
          simp at hle
      | some d =>
          simp only [List.cons_prefix_cons, Option.some.injEq]
          refine and_congr_left' ⟨fun htoken => ?_, fun heq => by rw [heq]⟩ |>.trans
            (and_congr_right fun heq => by rw [heq])
          exact (List.inj_on_of_nodup_map (h.distinct v) hc (nextNode_mem hnext) htoken).symm

/-- The coins of the nodes make a path with the probability of its tokens. -/
theorem prod_coinSets
    (hlength : path.length ≤ limit) :
    ∏ i ∈ Finset.range n, toss (t.coinSets x limit v path i) =
      ENNReal.ofReal (t.pathProb v path) * if path.length = limit then 1
        else toss (t.headCoin ((v :: path).getLast (List.cons_ne_nil _ _)) x) := by
  induction hpath generalizing limit with
  | @nil v =>
      rw [coinSets, pathProb, ENNReal.ofReal_one, one_mul, List.getLast_singleton, List.length_nil]
      by_cases hzero : limit = 0
      · rw [if_pos hzero, if_pos hzero.symm]
        simp
      · rw [if_neg hzero, if_neg (Ne.symm hzero), prod_update rfl hv]
        simp
  | @cons v c path hc rest ih =>
      obtain ⟨k, rfl⟩ := Nat.exists_eq_succ_of_ne_zero (Nat.ne_zero_of_lt hlength)
      have hfresh : t.coinSets x k c path v = univ :=
        coinSets_of_notMem (List.nodup_cons.mp (ChildPath.cons hc rest).nodup).1
      rw [coinSets, Nat.succ_sub_one, prod_update hfresh hv, h.toss_nextNode hv hc,
        ih (t.child_lt hc) (Nat.le_of_succ_le_succ hlength), pathProb,
        ENNReal.ofReal_mul (h.prob_nonneg v _ hv (h.token_lt v c hc)), mul_assoc,
        List.getLast_cons (List.cons_ne_nil c path), List.length_cons]
      simp only [Nat.succ_eq_add_one, Nat.add_right_cancel_iff]

private theorem pathProb_nonneg : 0 ≤ t.pathProb v path := by
  induction hpath with
  | nil => exact zero_le_one
  | @cons v c path hc _ ih =>
      exact mul_nonneg (h.prob_nonneg v _ hv (h.token_lt v c hc)) (ih (t.child_lt hc))

theorem chance
    (hlength : path.length ≤ limit) (hx : x < t.vocab) :
    (∏ i ∈ Finset.range n, toss (t.coinSets x limit v path i)) *
        toss (t.headLast (decide (path.length = limit))
          ((v :: path).getLast (List.cons_ne_nil _ _)) x) =
      ENNReal.ofReal (t.pathProb v path *
        t.prob ((v :: path).getLast (List.cons_ne_nil _ _)) x) := by
  have hu := hpath.last_lt hv
  rw [h.prod_coinSets hpath hv hlength, mul_assoc,
    ENNReal.ofReal_mul (h.pathProb_nonneg hpath hv)]
  congr 1
  by_cases hlimit : path.length = limit
  · rw [if_pos hlimit, decide_eq_true hlimit, one_mul, h.toss_head_limit hu hx]
  · rw [if_neg hlimit, decide_eq_false hlimit, h.toss_head hu hx]

end

end Fair

theorem DecodedBy.sampleProb_eq {target : List Nat → Nat → ℝ} (hdec : t.DecodedBy target)
    (htoken : ∀ v, ∀ c ∈ t.children v, t.token c < t.vocab) {p : List Nat} (hp : t.Context v p)
    (hpath : t.ChildPath v path) (hx : x < t.vocab) :
    sampleProb target p (path.map t.token ++ [x]) =
      t.pathProb v path * t.prob ((v :: path).getLast (List.cons_ne_nil _ _)) x := by
  induction hpath generalizing p with
  | @nil v => simp [sampleProb, pathProb, hdec v p hp x hx]
  | @cons v c path hc _ ih =>
      rw [List.map_cons, List.cons_append, sampleProb, ih (hp.child hc), pathProb,
        hdec v p hp _ (htoken v c hc), mul_assoc, List.getLast_cons (List.cons_ne_nil c path)]

end SampleTree

end SpecDecode.Eagle
