import SpecDecode.Eagle.DraftKvSpec

/-!
# The launch of `assign_draft_cache_locs`

The programs of the launch run at the same time: each copies its slots to its row before it moves
them, and the parts of different programs come in any order. A program that moves its slots may
overwrite slots that another one has not copied yet. `Ran` says what every order leaves, and
`After` where the slots are found if no program is disturbed.
-/

namespace SpecDecode.Eagle

open Buffer MemCache

/-- Part 1 of a program, or Parts 2 and 3. -/
inductive DraftPart where
  | copy
  | move
deriving DecidableEq

namespace DraftArgs

variable {a : DraftArgs}

/-- The slots of draft tokens are moved to the front. -/
def Compacts (a : DraftArgs) : Prop := a.LargePages ∧ 0 < a.duplicateCacheLen

instance (a : DraftArgs) : Decidable a.Compacts := inferInstanceAs (Decidable (_ ∧ _))

def placed (a : DraftArgs) (out : Nat → Int) (r b k : Nat) : Int :=
  out (a.outStart r + a.place r b k)

def runPart (a : DraftArgs) (s : DraftBuffers) (e : Nat × DraftPart) : DraftBuffers :=
  match e.2 with
  | .copy => a.copySlots e.1 s
  | .move => a.moveSlots e.1 s

/-- The launch; the parts run in the given order. -/
def launch (a : DraftArgs) (order : List (Nat × DraftPart)) (s : DraftBuffers) : DraftBuffers :=
  order.foldl a.runPart s

/-- An order of the launch: every part once, and a program copies before it moves. -/
structure Schedule (a : DraftArgs) (order : List (Nat × DraftPart)) : Prop where
  nodup : order.Nodup
  mem : ∀ e, e ∈ order ↔ e.1 < a.numSeqs
  copies : ∀ r, r < a.numSeqs → order.idxOf (r, .copy) < order.idxOf (r, .move)

/-- The move of program `r` writes to offset `x` of `out_cache_loc`. -/
def Moves (a : DraftArgs) (r x : Nat) : Prop :=
  a.Compacts ∧ r * a.keptLen ≤ x ∧ x < r * a.keptLen + a.keptLen

/-- The `j`-th slot of a request is one of a draft token, or in front of one on its page. -/
def Used (a : DraftArgs) (r j : Nat) : Prop :=
  (j + a.lastPageLen r) % a.branchWidth r < a.lastPageLen r + a.speculativeNumSteps

instance (a : DraftArgs) (r x : Nat) : Decidable (a.Moves r x) :=
  inferInstanceAs (Decidable (_ ∧ _))

instance (a : DraftArgs) (r j : Nat) : Decidable (a.Used r j) := Nat.decLt _ _

/-- The move of program `q` overwrites a used slot of request `r`. -/
def Overwrites (a : DraftArgs) (q r : Nat) : Prop :=
  ∃ j, j < a.copyLen r ∧ a.Used r j ∧ a.Moves q (a.outStart r + j)

instance (a : DraftArgs) (q r : Nat) : Decidable (a.Overwrites q r) := by
  unfold Overwrites
  infer_instance

/-- No program overwrites used slots that are not copied yet. -/
def Undisturbed (a : DraftArgs) (order : List (Nat × DraftPart)) : Prop :=
  ∀ r, r < a.numSeqs → ∀ q, q < a.numSeqs →
    order.idxOf (q, .move) < order.idxOf (r, .copy) → ¬ a.Overwrites q r

instance (a : DraftArgs) (order : List (Nat × DraftPart)) : Decidable (a.Undisturbed order) := by
  unfold Undisturbed
  infer_instance

theorem lastPageLen_pos {r x : Nat} (hx : x < a.sourceLen r) : 0 < a.lastPageLen r := by
  refine Nat.pos_of_ne_zero fun hzero => ?_
  rw [sourceLen, hzero, Nat.mul_zero] at hx
  exact Nat.not_lt_zero x hx

section

variable (h : a.Valid) (hlarge : a.LargePages)

include h hlarge

/-- The first slots of a further branch lie among those of the request. -/
theorem target_place {r x : Nat} (hx : x < a.sourceLen r) :
    a.lastPageLen r ≤ (x / a.lastPageLen r + 1) * a.branchWidth r ∧
      (x / a.lastPageLen r + 1) * a.branchWidth r - a.lastPageLen r + x % a.lastPageLen r <
        a.copyLen r := by
  have hpos := lastPageLen_pos hx
  have hmod := Nat.mod_lt x hpos
  have hwidth := lastPageLen_add_le h r
  have hcopy := copyLen_large h hlarge r
  have hdiv : x / a.lastPageLen r < a.topk - 1 := (Nat.div_lt_iff_lt_mul hpos).mpr hx
  have hle := Nat.mul_le_mul_right (a.branchWidth r)
    (Nat.succ_le_of_lt (Nat.add_lt_of_lt_sub hdiv))
  rw [Nat.succ_mul] at hle
  have hge : a.branchWidth r ≤ (x / a.lastPageLen r + 1) * a.branchWidth r :=
    Nat.le_mul_of_pos_left _ (Nat.succ_pos _)
  omega

theorem used_place (r b : Nat) {k : Nat}
    (hk : k < a.speculativeNumSteps) : a.Used r (a.place r b k) := by
  have hwidth := lastPageLen_add_le h r
  rw [Used, place, if_pos hlarge, Nat.add_assoc, Nat.mul_comm, Nat.mul_add_mod,
    Nat.mod_eq_of_lt (by omega)]
  omega

theorem used_target {r x : Nat} (hx : x < a.sourceLen r) :
    a.Used r ((x / a.lastPageLen r + 1) * a.branchWidth r - a.lastPageLen r +
      x % a.lastPageLen r) := by
  have hmod := Nat.mod_lt x (lastPageLen_pos hx)
  have hwidth := lastPageLen_add_le h r
  have hle := (target_place h hlarge hx).1
  have hplace : (x / a.lastPageLen r + 1) * a.branchWidth r - a.lastPageLen r +
      x % a.lastPageLen r + a.lastPageLen r =
      a.branchWidth r * (x / a.lastPageLen r + 1) + x % a.lastPageLen r := by
    rw [Nat.mul_comm (a.branchWidth r)]
    omega
  rw [Used, hplace, Nat.mul_add_mod, Nat.mod_eq_of_lt (by omega)]
  omega

/-- A used slot is one of a draft token, or stands in front of a further branch. -/
theorem used_cases {r j : Nat} (hj : j < a.copyLen r) (hused : a.Used r j) :
    (∃ b k, b < a.topk ∧ k < a.speculativeNumSteps ∧ j = a.place r b k) ∨
      ∃ b o, 0 < b ∧ b < a.topk ∧ o < a.lastPageLen r ∧
        j = b * a.branchWidth r - a.lastPageLen r + o := by
  have hcopy := copyLen_large h hlarge r
  have hwidth := lastPageLen_add_le h r
  have hsteps := h.steps
  have hpos : 0 < a.branchWidth r := by omega
  have hdiv := Nat.div_add_mod (j + a.lastPageLen r) (a.branchWidth r)
  have hb : (j + a.lastPageLen r) / a.branchWidth r < a.topk :=
    (Nat.div_lt_iff_lt_mul hpos).mpr (by omega)
  rw [Nat.mul_comm] at hdiv
  rw [Used] at hused
  generalize (j + a.lastPageLen r) / a.branchWidth r = b at hdiv hb
  generalize (j + a.lastPageLen r) % a.branchWidth r = m at hdiv hused
  by_cases hm : a.lastPageLen r ≤ m
  · refine .inl ⟨b, m - a.lastPageLen r, hb, by omega, ?_⟩
    rw [place, if_pos hlarge]
    omega
  · have hb0 : 0 < b := by
      refine Nat.pos_of_ne_zero fun hzero => ?_
      rw [hzero, Nat.zero_mul] at hdiv
      omega
    have hge : a.branchWidth r ≤ b * a.branchWidth r := Nat.le_mul_of_pos_left _ hb0
    exact .inr ⟨b, m, hb0, hb, by omega, by omega⟩

end

theorem mul_keptLen_le (h : a.Valid) (r : Nat) : r * a.keptLen ≤ a.outStart r := by
  induction r with
  | zero => simp
  | succ r ih =>
      have hle := keptLen_le h r
      rw [Nat.succ_mul, outStart, offset_succ]
      exact Nat.add_le_add ih hle

/-- If no program moves its slots before one with a smaller number has copied its own, nothing is
disturbed: the moves of a program stay in front of the slots of the later ones. -/
theorem undisturbed_of_lt (h : a.Valid) {order : List (Nat × DraftPart)}
    (hids : ∀ r, r < a.numSeqs → ∀ q, q < a.numSeqs →
      order.idxOf (q, .move) < order.idxOf (r, .copy) → q < r) : a.Undisturbed order := by
  rintro r hr q hq hbefore ⟨j, hj, -, -, -, hlt⟩
  have hstart := mul_keptLen_le h r
  have hmul := Nat.mul_le_mul_right a.keptLen (Nat.succ_le_of_lt (hids r hr q hq hbefore))
  rw [Nat.succ_mul] at hmul
  omega

section Program

variable (h : a.Valid) {r : Nat} (s : DraftBuffers)

theorem moveSlots_of_not_compacts (hc : ¬ a.Compacts) : a.moveSlots r s = s := if_neg hc

include h

theorem moveSlots_of_compacts (hc : a.Compacts) : a.moveSlots r s = { s with
    outCacheLoc := fill s.outCacheLoc (r * a.keptLen) a.keptLen fun x =>
      s.reqToToken (a.tokenPool r + a.seqLens r +
        a.place r (x / a.speculativeNumSteps) (x % a.speculativeNumSteps))
    sourceCacheLoc := fill s.sourceCacheLoc (a.sourceStart r) (a.sourceLen r)
      (a.sources s.reqToToken r)
    targetCacheLoc := fill s.targetCacheLoc (a.sourceStart r) (a.sourceLen r) fun x =>
      s.reqToToken (a.tokenPool r + a.seqLens r +
        ((x / a.lastPageLen r + 1) * a.branchWidth r - a.lastPageLen r +
          x % a.lastPageLen r)) } := by
  have hseq := seqLens_eq (a := a) r
  refine (if_pos hc).trans ?_
  rw [removeUsedSlots_eq h, duplicateSlots_eq h]
  congr 1
  · refine fill_congr fun x _ => ?_
    rw [place, if_pos hc.1]
  · refine fill_congr fun x hx => ?_
    obtain ⟨hle, -⟩ := target_place h hc.1 hx
    congr 1
    omega

end Program

/-- What the parts `done` of a launch on `s` leave: a row holds what stood in `out_cache_loc` when
it was copied, and the front of `out_cache_loc` what is moved there from the rows. -/
structure Ran (a : DraftArgs) (order : List (Nat × DraftPart)) (s : DraftBuffers)
    (done : List (Nat × DraftPart)) (t : DraftBuffers) : Prop where
  row : ∀ r j, (r, .copy) ∈ done → r < a.numSeqs → j < a.copyLen r →
    (∀ q, q < a.numSeqs → order.idxOf (q, .move) < order.idxOf (r, .copy) →
      ¬ a.Moves q (a.outStart r + j)) →
    t.reqToToken (a.tokenPool r + a.seqLens r + j) = s.outCacheLoc (a.outStart r + j)
  overwritten : ∀ r q j, (r, .copy) ∈ done → r < a.numSeqs → j < a.copyLen r → q < a.numSeqs →
    order.idxOf (q, .move) < order.idxOf (r, .copy) → a.Moves q (a.outStart r + j) →
    t.reqToToken (a.tokenPool r + a.seqLens r + j) = t.outCacheLoc (a.outStart r + j)
  committed : ∀ r x, r < a.numSeqs → x < a.seqLens r →
    t.reqToToken (a.tokenPool r + x) = s.reqToToken (a.tokenPool r + x)
  still : ∀ x, (∀ q, (q, .move) ∈ done → ¬ a.Moves q x) → t.outCacheLoc x = s.outCacheLoc x
  kept : a.Compacts → ∀ r x, (r, .move) ∈ done → x < a.keptLen →
    t.outCacheLoc (r * a.keptLen + x) = t.reqToToken (a.tokenPool r + a.seqLens r +
      a.place r (x / a.speculativeNumSteps) (x % a.speculativeNumSteps))
  source : a.Compacts → ∀ r x, (r, .move) ∈ done → x < a.sourceLen r →
    t.sourceCacheLoc (a.sourceStart r + x) = a.sources s.reqToToken r x
  target : a.Compacts → ∀ r x, (r, .move) ∈ done → x < a.sourceLen r →
    t.targetCacheLoc (a.sourceStart r + x) = t.reqToToken (a.tokenPool r + a.seqLens r +
      ((x / a.lastPageLen r + 1) * a.branchWidth r - a.lastPageLen r + x % a.lastPageLen r))

theorem Ran.nil (order : List (Nat × DraftPart)) (s : DraftBuffers) : a.Ran order s [] s where
  row _ _ hr := absurd hr List.not_mem_nil
  overwritten _ _ _ hr := absurd hr List.not_mem_nil
  committed _ _ _ _ := rfl
  still _ _ := rfl
  kept _ _ _ hr := absurd hr List.not_mem_nil
  source _ _ _ hr := absurd hr List.not_mem_nil
  target _ _ _ hr := absurd hr List.not_mem_nil

theorem sourceStart_add_le {r m : Nat} (hrm : r < m) :
    a.sourceStart r + a.sourceLen r ≤ a.sourceStart m := by
  have hmono := offset_mono a.lastPageLen (Nat.succ_le_of_lt hrm)
  rw [offset_succ] at hmono
  have hmul := Nat.mul_le_mul_left (a.topk - 1) hmono
  rw [Nat.mul_add] at hmul
  exact hmul

theorem idxOf_lt_length_left_iff {α : Type} [BEq α] [LawfulBEq α] {l l' : List α} {x : α} :
    (l ++ l').idxOf x < l.length ↔ x ∈ l := by
  by_cases hx : x ∈ l
  · rw [List.idxOf_append_of_mem hx]
    exact iff_of_true (List.idxOf_lt_length_of_mem hx) hx
  · rw [List.idxOf_append_of_notMem hx]
    exact iff_of_false (by omega) hx

section Step

variable (h : a.Valid) {order done : List (Nat × DraftPart)} {s t : DraftBuffers} {r : Nat}
  (hr : r < a.numSeqs) (ht : a.Ran order s done t)

include h hr ht

omit ht in
private theorem copy_other {q j : Nat} (hq : q < a.numSeqs) (hj : j < a.copyLen q) (hne : q ≠ r)
    (m f : Nat → Int) : fill m (a.tokenPool r + a.seqLens r) (a.copyLen r) f
      (a.tokenPool q + a.seqLens q + j) = m (a.tokenPool q + a.seqLens q + j) := by
  have hinside := h.inside r hr
  have hrow := h.inside q hq
  have hpool := tokenPool_disjoint h hq hr hne
  exact fill_outside (by omega)

theorem Ran.copy (hlt : ∀ e ∈ done, e.1 < a.numSeqs) (hcopy : (r, .copy) ∉ done)
    (hmove : (r, .move) ∉ done)
    (hbefore : ∀ q, order.idxOf (q, .move) < order.idxOf (r, .copy) ↔ (q, .move) ∈ done) :
    a.Ran order s (done ++ [(r, .copy)]) (a.runPart t (r, .copy)) := by
  have hrun : a.runPart t (r, .copy) = { t with
      reqToToken := fill t.reqToToken (a.tokenPool r + a.seqLens r) (a.copyLen r) fun j =>
        t.outCacheLoc (a.outStart r + j) } := copySlots_eq hr t
  have hold : ∀ q, (q, DraftPart.move) ∈ done ++ [(r, .copy)] → (q, .move) ∈ done := by
    intro q hq
    rcases List.mem_append.mp hq with hq | hq
    · exact hq
    · cases List.mem_singleton.mp hq
  have hcopied : ∀ q, (q, DraftPart.copy) ∈ done ++ [(r, .copy)] →
      (q, .copy) ∈ done ∧ q ≠ r ∨ q = r := by
    intro q hq
    rcases List.mem_append.mp hq with hq | hq
    · exact .inl ⟨hq, fun heq => hcopy (heq ▸ hq)⟩
    · exact .inr (Prod.mk.inj (List.mem_singleton.mp hq)).1
  rw [hrun]
  refine
    { row := fun q j hq hlt' hj hstill => ?_
      overwritten := fun q p j hq hlt' hj hp hidx hmoves => ?_
      committed := fun q x hq hx => ?_
      still := fun x hx => ht.still x fun q hq => hx q (List.mem_append_left _ hq)
      kept := fun hc q x hq hx => ?_
      source := fun hc q x hq hx => ht.source hc q x (hold q hq) hx
      target := fun hc q x hq hx => ?_ }
  · obtain ⟨hq, hne⟩ | rfl := hcopied q hq
    · exact (copy_other h hr hlt' hj hne _ _).trans (ht.row q j hq hlt' hj hstill)
    · refine (fill_inside hj).trans ?_
      exact ht.still _ fun p hp => hstill p (hlt _ hp) ((hbefore p).mpr hp)
  · obtain ⟨hq, hne⟩ | rfl := hcopied q hq
    · exact (copy_other h hr hlt' hj hne _ _).trans
        (ht.overwritten q p j hq hlt' hj hp hidx hmoves)
    · exact fill_inside hj
  · have hinside := h.inside r hr
    have hrow := h.inside q hq
    refine (fill_outside ?_).trans (ht.committed q x hq hx)
    by_cases heq : q = r
    · subst heq
      omega
    · have hpool := tokenPool_disjoint h hq hr heq
      omega
  · have hq := hold q hq
    have hb : x / a.speculativeNumSteps < a.topk := (Nat.div_lt_iff_lt_mul h.steps).mpr hx
    have hk : x % a.speculativeNumSteps < a.speculativeNumSteps := Nat.mod_lt _ h.steps
    exact (ht.kept hc q x hq hx).trans (copy_other h hr (hlt _ hq) (place_lt h hb hk)
      (fun heq => hmove (heq ▸ hq)) _ _).symm
  · have hq := hold q hq
    exact (ht.target hc q x hq hx).trans (copy_other h hr (hlt _ hq) (target_place h hc.1 hx).2
      (fun heq => hmove (heq ▸ hq)) _ _).symm

theorem Ran.move (hmove : (r, .move) ∉ done) (hbefore : ∀ q p, (q, .copy) ∈ done →
      order.idxOf (p, .move) < order.idxOf (q, .copy) → (p, .move) ∈ done) :
    a.Ran order s (done ++ [(r, .move)]) (a.runPart t (r, .move)) := by
  have hold : ∀ q, (q, DraftPart.copy) ∈ done ++ [(r, .move)] → (q, .copy) ∈ done := by
    intro q hq
    rcases List.mem_append.mp hq with hq | hq
    · exact hq
    · cases List.mem_singleton.mp hq
  have hmoved : ∀ q, (q, DraftPart.move) ∈ done ++ [(r, .move)] →
      (q, .move) ∈ done ∧ q ≠ r ∨ q = r := by
    intro q hq
    rcases List.mem_append.mp hq with hq | hq
    · exact .inl ⟨hq, fun heq => hmove (heq ▸ hq)⟩
    · exact .inr (Prod.mk.inj (List.mem_singleton.mp hq)).1
  by_cases hc : a.Compacts
  · have hrun : a.runPart t (r, .move) = a.moveSlots r t := rfl
    have hsources : ∀ x, x < a.sourceLen r →
        a.sources t.reqToToken r x = a.sources s.reqToToken r x := by
      intro x hx
      have hmod := Nat.mod_lt x (lastPageLen_pos hx)
      have hle := seqLens_eq (a := a) r
      rw [sources, sources, Nat.add_assoc]
      exact ht.committed r _ hr (by omega)
    rw [hrun, moveSlots_of_compacts h t hc]
    refine
      { row := fun q j hq => ht.row q j (hold q hq)
        overwritten := fun q p j hq hlt hj hp hidx hmoves => ?_
        committed := ht.committed
        still := fun x hx => ?_
        kept := fun _ q x hq hx => ?_
        source := fun _ q x hq hx => ?_
        target := fun _ q x hq hx => ?_ }
    · rw [ht.overwritten q p j (hold q hq) hlt hj hp hidx hmoves]
      have hne : p ≠ r := fun heq => hmove (heq ▸ hbefore q p (hold q hq) hidx)
      obtain ⟨-, hlo, hhi⟩ := hmoves
      obtain ⟨y, hy⟩ := Nat.exists_eq_add_of_le hlo
      rw [hy]
      exact (fill_outside (window_outside (by omega) (Ne.symm hne))).symm
    · have hr := hx r (List.mem_append_right _ List.mem_cons_self)
      refine (fill_outside ?_).trans (ht.still x fun q hq => hx q (List.mem_append_left _ hq))
      by_contra hin
      exact hr ⟨hc, by omega, by omega⟩
    · obtain ⟨hq, hne⟩ | rfl := hmoved q hq
      · exact (fill_outside (window_outside hx (Ne.symm hne))).trans (ht.kept hc q x hq hx)
      · exact fill_inside hx
    · obtain ⟨hq, hne⟩ | rfl := hmoved q hq
      · refine (fill_outside ?_).trans (ht.source hc q x hq hx)
        rcases Nat.lt_or_gt_of_ne hne with hlt | hlt
        · have hstart := sourceStart_add_le (a := a) hlt
          omega
        · have hstart := sourceStart_add_le (a := a) hlt
          omega
      · exact (fill_inside hx).trans (hsources x hx)
    · obtain ⟨hq, hne⟩ | rfl := hmoved q hq
      · refine (fill_outside ?_).trans (ht.target hc q x hq hx)
        rcases Nat.lt_or_gt_of_ne hne with hlt | hlt
        · have hstart := sourceStart_add_le (a := a) hlt
          omega
        · have hstart := sourceStart_add_le (a := a) hlt
          omega
      · exact fill_inside hx
  · have hrun : a.runPart t (r, .move) = t := moveSlots_of_not_compacts t hc
    rw [hrun]
    exact
      { row := fun q j hq => ht.row q j (hold q hq)
        overwritten := fun q p j hq => ht.overwritten q p j (hold q hq)
        committed := ht.committed
        still := fun x hx => ht.still x fun q hq => hx q (List.mem_append_left _ hq)
        kept := fun hpos => absurd hpos hc
        source := fun hpos => absurd hpos hc
        target := fun hpos => absurd hpos hc }

end Step

theorem ran_launch (h : a.Valid) {order : List (Nat × DraftPart)} (horder : a.Schedule order)
    (s : DraftBuffers) : a.Ran order s order (a.launch order s) := by
  have hrun : ∀ rest done t, order = done ++ rest → a.Ran order s done t →
      a.Ran order s order (rest.foldl a.runPart t) := by
    intro rest
    induction rest with
    | nil =>
        intro done t heq ht
        rw [List.append_nil] at heq
        exact heq ▸ ht
    | cons e rest ih =>
        intro done t heq ht
        have hnodup : (done ++ e :: rest).Nodup := heq ▸ horder.nodup
        have hnew : e ∉ done := fun hmem =>
          (List.nodup_append'.mp hnodup).2.2 hmem List.mem_cons_self
        have hidx : order.idxOf e = done.length := by
          rw [heq, List.idxOf_append_of_notMem hnew, List.idxOf_cons_self, Nat.add_zero]
        have hdone : ∀ e', order.idxOf e' < done.length ↔ e' ∈ done := fun e' => by
          rw [heq, idxOf_lt_length_left_iff]
        have hlt : ∀ e' ∈ done, e'.1 < a.numSeqs := fun e' he' =>
          (horder.mem e').mp (heq ▸ List.mem_append_left _ he')
        have hr : e.1 < a.numSeqs :=
          (horder.mem e).mp (heq ▸ List.mem_append_right _ List.mem_cons_self)
        refine ih (done ++ [e]) _ (by rw [heq, List.append_assoc, List.singleton_append]) ?_
        obtain ⟨r, part⟩ := e
        cases part with
        | copy =>
            refine ht.copy h hr hlt hnew (fun hmem => ?_) fun q => by rw [hidx, hdone]
            have hcopies := horder.copies r hr
            have hbefore := (hdone _).mpr hmem
            omega
        | move =>
            refine ht.move h hr hnew fun q p hq hbefore => (hdone _).mp ?_
            exact Nat.lt_trans hbefore ((hdone _).mpr hq)
  exact hrun order [] s rfl (Ran.nil order s)

/-- Where the slots are found in `t` if no program was disturbed in the launch on `s`. -/
structure After (a : DraftArgs) (s t : DraftBuffers) : Prop where
  row : ∀ r b k, r < a.numSeqs → b < a.topk → k < a.speculativeNumSteps →
    t.reqToToken (a.tokenPool r + a.seqLens r + a.place r b k) = a.placed s.outCacheLoc r b k
  committed : ∀ r x, r < a.numSeqs → x < a.seqLens r →
    t.reqToToken (a.tokenPool r + x) = s.reqToToken (a.tokenPool r + x)
  kept : a.Compacts → ∀ r x, r < a.numSeqs → x < a.keptLen →
    t.outCacheLoc (r * a.keptLen + x) = a.keptSlots s.outCacheLoc r x
  unmoved : ¬ a.Compacts → t.outCacheLoc = s.outCacheLoc
  source : a.Compacts → ∀ r x, r < a.numSeqs → x < a.sourceLen r →
    t.sourceCacheLoc (a.sourceStart r + x) = a.sources s.reqToToken r x
  target : a.Compacts → ∀ r x, r < a.numSeqs → x < a.sourceLen r →
    t.targetCacheLoc (a.sourceStart r + x) = a.targets s.outCacheLoc r x

theorem Ran.after (h : a.Valid) {order : List (Nat × DraftPart)} {s t : DraftBuffers}
    (horder : a.Schedule order) (hfree : a.Undisturbed order) (ht : a.Ran order s order t) :
    a.After s t := by
  have hcopied : ∀ r, r < a.numSeqs → (r, DraftPart.copy) ∈ order :=
    fun r hr => (horder.mem _).mpr hr
  have hmoved : ∀ r, r < a.numSeqs → (r, DraftPart.move) ∈ order :=
    fun r hr => (horder.mem _).mpr hr
  have hrow : a.Compacts → ∀ r j, r < a.numSeqs → j < a.copyLen r → a.Used r j →
      t.reqToToken (a.tokenPool r + a.seqLens r + j) = s.outCacheLoc (a.outStart r + j) :=
    fun _ r j hr hj hused => ht.row r j (hcopied r hr) hr hj fun q hq hbefore hmoves =>
      hfree r hr q hq hbefore ⟨j, hj, hused, hmoves⟩
  refine
    { row := fun r b k hr hb hk => ?_
      committed := ht.committed
      kept := fun hc r x hr hx => ?_
      unmoved := fun hc => funext fun x => ht.still x fun q _ hmoves => hc hmoves.1
      source := fun hc r x hr hx => ht.source hc r x (hmoved r hr) hx
      target := fun hc r x hr hx => ?_ }
  · by_cases hc : a.Compacts
    · exact hrow hc r _ hr (place_lt h hb hk) (used_place h hc.1 r b hk)
    · exact ht.row r _ (hcopied r hr) hr (place_lt h hb hk) fun q _ _ hmoves => hc hmoves.1
  · have hb : x / a.speculativeNumSteps < a.topk := (Nat.div_lt_iff_lt_mul h.steps).mpr hx
    have hk : x % a.speculativeNumSteps < a.speculativeNumSteps := Nat.mod_lt _ h.steps
    rw [ht.kept hc r x (hmoved r hr) hx, keptSlots]
    exact hrow hc r _ hr (place_lt h hb hk) (used_place h hc.1 r _ hk)
  · rw [ht.target hc r x (hmoved r hr) hx, targets]
    exact hrow hc r _ hr (target_place h hc.1 hx).2 (used_target h hc.1 hx)

end DraftArgs

end SpecDecode.Eagle
