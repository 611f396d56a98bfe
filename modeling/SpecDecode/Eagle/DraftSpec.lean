import SpecDecode.Eagle.Draft

/-!
# The flat layout of a draft and the closure of its best tokens

`keptFlat` is the flat index of a kept token and `FlatParent` the parent relation
of the layout. Two facts about all steps of `draft_forward` follow by induction
on the number of steps: the concatenated parent entries list the kept tokens
(`parents_getD`), and a child scores at most its parent and comes later
(`child_le_parent`). A selection of best flat indices is then closed under
parents (`selected_closed`).
-/

namespace SpecDecode.Eagle

variable {H : Type} {k : Nat}

namespace DraftModel

variable (ops : TorchOps) (m : DraftModel k H)

def nextInput (i : Nat) : StepInput H :=
  m.forward i (m.step ops i).inputIds (m.step ops i).hiddenStates

/-- The flat index of the `b`-th token that step `i` keeps. -/
def keptFlat (i b : Nat) : Nat :=
  match i with
  | 0 => b
  | i + 1 =>
      k + i * (k * k) +
        (topkCsIndex ops (m.nextInput ops i) (m.step ops i).scores k).getD b 0

/-- The parent relation of the flat layout: child `j` that step `i + 1` offers
for the `b`-th token kept at step `i`. Tokens of step `0` hang off the root. -/
inductive FlatParent : Nat → Nat → Prop where
  | child (i : Nat) {b j : Nat} (hb : b < k) (hj : j < k) :
      FlatParent (k + i * (k * k) + b * k + j) (m.keptFlat ops i b)

/-- The scores of all tokens the first `steps` steps offer, in flat order. -/
def flatScores (steps : Nat) : List Rat :=
  ((m.draftForward ops steps).map TreeInfo.scores).flatten

def flatParents (steps : Nat) : List Int :=
  ((m.draftForward ops steps).map TreeInfo.parents).flatten

variable {ops} {m}

theorem draftForward_succ (steps : Nat) :
    m.draftForward ops (steps + 1) = m.draftForward ops steps ++ [(m.step ops steps).treeInfo] := by
  simp [draftForward, List.range_succ]

theorem flatScores_succ (steps : Nat) :
    m.flatScores ops (steps + 1) = m.flatScores ops steps ++
    (m.step ops steps).treeInfo.scores := by
  simp [flatScores, draftForward_succ]

theorem flatParents_succ (steps : Nat) :
    m.flatParents ops (steps + 1) =
      m.flatParents ops steps ++ (m.step ops steps).treeInfo.parents := by
  simp [flatParents, draftForward_succ]

theorem step_succ (i : Nat) :
    m.step ops (i + 1) =
      selectTopKTokensLater ops (i + 1) (m.nextInput ops i) (m.step ops i).scores k := by
  rw [step, selectTopKTokens, if_neg (Nat.succ_ne_zero i)]
  rfl

@[simp] theorem expandScores_length (x : StepInput H) (scores : List Rat) (k : Nat) :
    (expandScores x scores k).length = k * k := by
  simp [expandScores]

theorem score_expandScores (x : StepInput H) (scores : List Rat) {f : Nat} (hf : f < k * k) :
    score (expandScores x scores k) f = score scores (f / k) * score x.topkP f := by
  simp [score, expandScores, List.getD_eq_getElem?_getD, hf]

variable (ops) in
theorem topkCsIndex_length (x : StepInput H) (scores : List Rat) (hk : 0 < k) :
    (topkCsIndex ops x scores k).length = k :=
  fastTopk_length ops (by rw [expandScores_length]; exact Nat.le_mul_of_pos_left k hk)

theorem topkCsIndex_lt (x : StepInput H) (scores : List Rat) (hk : 0 < k) {c : Nat}
    (hc : c ∈ topkCsIndex ops x scores k) : c < k * k := by
  have := fastTopk_lt ops (by rw [expandScores_length]; exact Nat.le_mul_of_pos_left k hk) hc
  rwa [expandScores_length] at this

variable (ops) in
theorem topkCsIndex_getD_lt (x : StepInput H) (scores : List Rat) (hk : 0 < k) {b : Nat}
    (hb : b < k) : (topkCsIndex ops x scores k).getD b 0 < k * k := by
  have hlen := topkCsIndex_length ops x scores hk
  rw [List.getD_eq_getElem _ _ (by omega)]
  exact topkCsIndex_lt x scores hk (List.getElem_mem _)

variable (ops m) in
/-- Every step offers `k * k` tokens, the first one `k`. -/
@[simp] theorem flatScores_length (steps : Nat) :
    (m.flatScores ops (steps + 1)).length = k + steps * (k * k) := by
  induction steps with
  | zero =>
      rw [flatScores_succ, List.length_append]
      change 0 + m.first.topkP.length = k + 0 * (k * k)
      rw [m.first_length]
      omega
  | succ steps ih =>
      rw [flatScores_succ, List.length_append, ih, step_succ]
      simp only [selectTopKTokensLater, expandScores_length]
      ring

variable (ops m) in
private theorem flatParents_length (hk : 0 < k) (steps : Nat) :
    (m.flatParents ops (steps + 1)).length = k + 1 + steps * k := by
  induction steps with
  | zero =>
      rw [flatParents_succ, List.length_append]
      change 0 + ((List.range (k + 1)).map fun (j : Nat) => (j : Int) - 1).length = k + 1 + 0 * k
      rw [List.length_map, List.length_range]
      omega
  | succ steps ih =>
      rw [flatParents_succ, List.length_append, ih, step_succ]
      simp only [selectTopKTokensLater, List.length_map, topkCsIndex_length ops _ _ hk]
      ring

/-- The parent entries from index `1` on are the kept tokens, step by step. -/
theorem parents_getD (hk : 0 < k) {steps i b : Nat} (hi : i < steps) (hb : b < k) :
    (m.flatParents ops steps).getD (1 + i * k + b) 0 = (m.keptFlat ops i b : Int) := by
  induction steps with
  | zero => omega
  | succ steps ih =>
      rw [flatParents_succ]
      rcases Nat.lt_or_ge i steps with hlt | hge
      · obtain ⟨s, rfl⟩ : ∃ s, steps = s + 1 := ⟨steps - 1, by omega⟩
        have hbound : 1 + i * k + b < (m.flatParents ops (s + 1)).length := by
          have := Nat.mul_le_mul_right k (Nat.lt_succ_iff.mp hlt)
          rw [flatParents_length ops m hk]
          omega
        rw [List.getD_append _ _ _ _ hbound]
        exact ih hlt
      · obtain rfl : i = steps := by omega
        cases i with
        | zero =>
            change (([] : List Int) ++ (List.range (k + 1)).map fun (j : Nat) => (j : Int) - 1).getD
              (1 + 0 * k + b) 0 = ((b : Nat) : Int)
            rw [List.nil_append, List.getD_eq_getElem _ _ (by simp; omega)]
            simp
        | succ i =>
            have hlen := flatParents_length ops m hk i
            have hcs := topkCsIndex_length ops (m.nextInput ops i)
              (m.step ops i).scores hk
            have hpos : 1 + (i + 1) * k + b = (m.flatParents ops (i + 1)).length + b := by
              rw [hlen]
              ring
            rw [hpos, List.getD_append_right _ _ _ _ (Nat.le_add_right _ _),
              Nat.add_sub_cancel_left, step_succ]
            simp only [selectTopKTokensLater, keptFlat]
            rw [List.getD_eq_getElem _ _ (by simpa [hcs] using hb), List.getElem_map,
              List.getD_eq_getElem _ _ (by omega)]
            congr 1
            simp only [Nat.add_sub_cancel]
            ring

variable (ops m) in
theorem keptFlat_lt (hk : 0 < k) {i b : Nat} (hb : b < k) :
    m.keptFlat ops i b < k + i * (k * k) := by
  cases i with
  | zero => simpa [keptFlat] using hb
  | succ i =>
      have := topkCsIndex_getD_lt ops (m.nextInput ops i) (m.step ops i).scores hk hb
      simp only [keptFlat]
      rw [Nat.succ_mul]
      omega

theorem score_keptFlat (hk : 0 < k) {i b : Nat} (hb : b < k) :
    score (m.flatScores ops (i + 1)) (m.keptFlat ops i b) = score (m.step ops i).scores b := by
  cases i with
  | zero =>
      rw [flatScores_succ]
      rfl
  | succ i =>
      have hcs := topkCsIndex_length ops (m.nextInput ops i) (m.step ops i).scores hk
      have hlen := flatScores_length ops m i
      rw [flatScores_succ, keptFlat, ← hlen]
      unfold score
      rw [List.getD_append_right _ _ _ _ (Nat.le_add_right _ _), Nat.add_sub_cancel_left, step_succ]
      simp only [selectTopKTokensLater]
      rw [List.getD_eq_getElem (List.map _ _) _ (by simpa [hcs] using hb), List.getElem_map,
        List.getD_eq_getElem (topkCsIndex _ _ _ _) _ (by omega)]
      rfl

theorem score_flatScores_succ {steps f : Nat} (hf : f < k + steps * (k * k)) :
    score (m.flatScores ops (steps + 2)) f = score (m.flatScores ops (steps + 1)) f := by
  rw [flatScores_succ (steps + 1)]
  exact List.getD_append _ _ _ _ (by rw [flatScores_length]; exact hf)

theorem score_nonneg_of_prob {x : StepInput H} (h : ∀ p ∈ x.topkP, 0 ≤ p ∧ p ≤ 1) (f : Nat) :
    0 ≤ score x.topkP f ∧ score x.topkP f ≤ 1 := by
  unfold score
  rw [List.getD_eq_getElem?_getD]
  cases hf : x.topkP[f]? with
  | none => simp
  | some p => exact h p (List.mem_of_getElem? hf)

theorem scores_nonneg (i b : Nat) : 0 ≤ score (m.step ops i).scores b := by
  induction i generalizing b with
  | zero => exact (score_nonneg_of_prob m.first_prob b).1
  | succ i ih =>
      rw [step_succ]
      simp only [selectTopKTokensLater]
      unfold score
      rw [List.getD_eq_getElem?_getD, List.getElem?_map]
      cases hc : (topkCsIndex ops (m.nextInput ops i) (m.step ops i).scores k)[b]? with
      | none => simp
      | some c =>
          change 0 ≤ score (expandScores (m.nextInput ops i) (m.step ops i).scores k) c
          by_cases hck : c < k * k
          · rw [score_expandScores _ _ hck]
            exact mul_nonneg (ih _) (score_nonneg_of_prob (m.forward_prob i _ _) c).1
          · unfold score
            rw [List.getD_eq_default _ _ (by rw [expandScores_length]; omega)]

variable (ops m) in
theorem child_le_parent (hk : 0 < k) {steps i b j : Nat} (hi : i < steps) (hb : b < k)
    (hj : j < k) :
    m.keptFlat ops i b < k + i * (k * k) + b * k + j ∧
    score (m.flatScores ops (steps + 1)) (k + i * (k * k) + b * k + j) ≤
      score (m.flatScores ops (steps + 1)) (m.keptFlat ops i b) := by
  have hkept := keptFlat_lt ops m hk (i := i) hb
  refine ⟨by omega, ?_⟩
  have hblock : b * k + j < k * k := by
    have := Nat.mul_le_mul_right k (Nat.succ_le_iff.mpr hb)
    rw [Nat.succ_mul] at this
    omega
  induction steps with
  | zero => omega
  | succ steps ih =>
      rcases Nat.lt_or_ge i steps with hlt | hge
      · have hmul := Nat.mul_le_mul_right (k * k) (Nat.succ_le_iff.mpr hlt)
        rw [Nat.succ_mul] at hmul
        rw [score_flatScores_succ (by omega), score_flatScores_succ (by omega)]
        exact ih hlt
      · obtain rfl : i = steps := by omega
        have hlen := flatScores_length ops m i
        rw [score_flatScores_succ (f := m.keptFlat ops i b) hkept, score_keptFlat hk hb,
          flatScores_succ (i + 1),
          show k + i * (k * k) + b * k + j = (m.flatScores ops (i + 1)).length + (b * k + j) by
            rw [hlen]; omega]
        unfold score
        rw [List.getD_append_right _ _ _ _ (Nat.le_add_right _ _), Nat.add_sub_cancel_left,
          step_succ]
        have hdiv : (b * k + j) / k = b := by
          rw [Nat.mul_comm, Nat.mul_add_div hk, Nat.div_eq_of_lt hj, Nat.add_zero]
        change score (expandScores (m.nextInput ops i) (m.step ops i).scores k) (b * k + j) ≤
          score (m.step ops i).scores b
        rw [score_expandScores _ _ hblock, hdiv]
        exact mul_le_of_le_one_right (scores_nonneg i b)
          (score_nonneg_of_prob (m.forward_prob i _ _) _).2

theorem exists_flatParent (hk : 0 < k) {steps f : Nat} (hf : k ≤ f)
    (hlt : f < k + steps * (k * k)) :
    ∃ i b j, i < steps ∧ b < k ∧ j < k ∧ f = k + i * (k * k) + b * k + j ∧
      f / k = 1 + i * k + b := by
  have hkk : 0 < k * k := Nat.mul_pos hk hk
  have hblock := Nat.div_add_mod (f - k) (k * k)
  have hrow := Nat.div_add_mod ((f - k) % (k * k)) k
  have hb : (f - k) % (k * k) / k < k :=
    Nat.div_lt_of_lt_mul (Nat.mod_lt _ hkk)
  have hj := Nat.mod_lt ((f - k) % (k * k)) hk
  have hi : (f - k) / (k * k) < steps := by
    apply Nat.div_lt_of_lt_mul
    rw [Nat.mul_comm]
    omega
  generalize (f - k) / (k * k) = i at hblock hi
  generalize (f - k) % (k * k) / k = b at hrow hb
  generalize (f - k) % (k * k) % k = j at hrow hj
  have hform : f = k + i * (k * k) + b * k + j := by
    rw [Nat.mul_comm i, Nat.mul_comm b]
    omega
  refine ⟨i, b, j, hi, hb, hj, hform, ?_⟩
  rw [hform, show k + i * (k * k) + b * k + j = k * (1 + i * k + b) + j by ring,
    Nat.mul_add_div hk, Nat.div_eq_of_lt hj, Nat.add_zero]

/-- The organized draft of one request: `organize_draft_results` on the lists
`draft_forward` collects. -/
def organized (ops : TorchOps) (m : DraftModel k H) (steps n : Nat) :
    List Int × List Nat × List Int :=
  organizeDraftResults ops ((m.draftForward ops steps).map TreeInfo.scores)
    ((m.draftForward ops steps).map TreeInfo.tokens)
    ((m.draftForward ops steps).map TreeInfo.parents) n

/-- The flat indices the request keeps, in increasing order. -/
def selectedIndex (ops : TorchOps) (m : DraftModel k H) (steps n : Nat) : List Nat :=
  (m.organized ops steps n).2.1

section Selected

variable {steps n : Nat} (hn : n - 1 ≤ k + steps * (k * k))

theorem selectedIndex_perm :
    (m.selectedIndex ops (steps + 1) n).Perm (ops.topk (m.flatScores ops (steps + 1)) (n - 1)) :=
  List.perm_insertionSort _ _

include hn

private theorem le_flatScores_length : n - 1 ≤ (m.flatScores ops (steps + 1)).length := by
  rw [flatScores_length]
  exact hn

@[simp] theorem selectedIndex_length : (m.selectedIndex ops (steps + 1) n).length = n - 1 :=
  selectedIndex_perm.length_eq.trans (ops.topk_length _ _ (le_flatScores_length hn))

theorem selectedIndex_lt {f : Nat} (hf : f ∈ m.selectedIndex ops (steps + 1) n) :
    f < k + steps * (k * k) := by
  rw [← flatScores_length ops m steps]
  exact ops.topk_lt _ _ (le_flatScores_length hn) f (selectedIndex_perm.mem_iff.mp hf)

theorem selectedIndex_strict : (m.selectedIndex ops (steps + 1) n).Pairwise (· < ·) := by
  have hsorted : (m.selectedIndex ops (steps + 1) n).Pairwise (· ≤ ·) :=
    List.pairwise_insertionSort _ _
  have hnodup : (m.selectedIndex ops (steps + 1) n).Pairwise (· ≠ ·) :=
    selectedIndex_perm.nodup_iff.mpr (ops.topk_nodup _ _ (le_flatScores_length hn))
  exact (hsorted.and hnodup).imp fun h => Nat.lt_of_le_of_ne h.1 h.2

/-- The parent of a selected token is selected: it scores at least as much and,
on a tie, has the lower index. -/
theorem selected_closed (hk : 0 < k) {f g : Nat} (hf : f ∈ m.selectedIndex ops (steps + 1) n)
    (hfg : m.FlatParent ops f g) : g ∈ m.selectedIndex ops (steps + 1) n := by
  have hlt := selectedIndex_lt hn hf
  rw [selectedIndex_perm.mem_iff] at hf ⊢
  obtain ⟨i, hb, hj⟩ := hfg
  have hi : i < steps := by
    by_contra hge
    have := Nat.mul_le_mul_right (k * k) (Nat.le_of_not_lt hge)
    omega
  obtain ⟨hbefore, hscore⟩ := child_le_parent ops m hk hi hb hj
  refine ops.topk_best _ _ (le_flatScores_length hn) _ hf _ ?_ ?_
  · rw [flatScores_length]
    omega
  · rcases lt_or_eq_of_le hscore with h | h
    · exact .inl h
    · exact .inr ⟨h.symm, hbefore⟩

end Selected

theorem organized_parentList (steps n : Nat) :
    (m.organized ops (steps + 2) n).1 = m.flatParents ops (steps + 1) := by
  have hlen : 1 < ((m.draftForward ops (steps + 2)).map TreeInfo.parents).length := by
    simp [draftForward]
  simp only [organized, organizeDraftResults, if_pos hlen]
  rw [draftForward_succ (steps + 1), List.map_append, List.map_singleton, List.dropLast_concat]
  rfl

end DraftModel

end SpecDecode.Eagle
