import SpecDecode.Ngram.SuffixAutomaton
import Mathlib.Data.List.Find

/-!
# Building the suffix automaton

`extend_` divides a state if it has to and adds a state for the longer text, so the automaton
indexes the text after every token. The states of the prefixes of the text are the ones that
count an occurrence of their own.
-/

namespace SpecDecode.Ngram

open SpecDecode.SuffixAutomaton

@[simp] theorem lookup_setNext (token : Int) (state : Nat) (next : List (Int × Nat)) (t : Int) :
    (setNext token state next).lookup t = if t = token then some state else next.lookup t := by
  induction next with
  | nil =>
      by_cases ht : t = token
      · simp [setNext, ht]
      · have hne : (t == token) = false := beq_eq_false_iff_ne.mpr ht
        simp [setNext, List.lookup_cons, hne, ht]
  | cons entry rest ih =>
      obtain ⟨token', state'⟩ := entry
      unfold setNext
      by_cases htoken : token' = token
      · subst htoken
        by_cases ht : t = token'
        · simp [ht]
        · have hne : (t == token') = false := beq_eq_false_iff_ne.mpr ht
          simp [List.lookup_cons, hne, ht]
      · rw [if_neg htoken, List.lookup_cons, List.lookup_cons, ih]
        by_cases ht : t = token'
        · subst ht
          simp [htoken]
        · have hne : (t == token') = false := beq_eq_false_iff_ne.mpr ht
          simp [hne]

private theorem mem_keys_setNext {token t : Int} {state : Nat} {next : List (Int × Nat)} :
    t ∈ (setNext token state next).map Prod.fst ↔ t = token ∨ t ∈ next.map Prod.fst := by
  induction next with
  | nil => simp [setNext]
  | cons entry rest ih =>
      unfold setNext
      split
      · next heq => simp [heq]
      · rw [List.map_cons, List.mem_cons, ih, List.map_cons, List.mem_cons]
        exact or_left_comm

theorem nodup_setNext {token : Int} {state : Nat} {next : List (Int × Nat)}
    (h : (next.map Prod.fst).Nodup) : ((setNext token state next).map Prod.fst).Nodup := by
  induction next with
  | nil => simp [setNext]
  | cons entry rest ih =>
      obtain ⟨hentry, hrest⟩ := List.nodup_cons.mp h
      unfold setNext
      split
      · next heq => exact List.nodup_cons.mpr ⟨heq ▸ hentry, hrest⟩
      · next hne =>
          refine List.nodup_cons.mpr ⟨fun hmem => ?_, ih hrest⟩
          exact (mem_keys_setNext.mp hmem).elim hne hentry

namespace SuffixAutomaton

def KeysNodup (states : Nat → SamState) : Prop := ∀ v, ((states v).next.map Prod.fst).Nodup

section Keys

variable {states states' : Nat → SamState} {token : Int} {cur q clone fuel : Nat}
  {p p' : Option Nat}

theorem KeysNodup.update (h : KeysNodup states) {v : Nat} {state : SamState}
    (hstate : (state.next.map Prod.fst).Nodup) : KeysNodup (Function.update states v state) := by
  intro x
  by_cases hx : x = v
  · subst hx
    rwa [Function.update_self]
  · rw [Function.update_of_ne hx]
    exact h x

theorem KeysNodup.assign (h : KeysNodup states) (v : Nat) : KeysNodup (assign token cur v states) :=
  h.update (nodup_setNext (h v))

theorem KeysNodup.setLink (h : KeysNodup states) (v link : Nat) :
    KeysNodup (setLink v link states) :=
  h.update (h v)

theorem KeysNodup.linkLoop (h : KeysNodup states)
    (hloop : linkLoop token cur fuel p states = some (p', states')) : KeysNodup states' := by
  induction fuel generalizing p states with
  | zero =>
      cases p with
      | none => exact (Prod.mk.inj (Option.some.inj hloop)).2 ▸ h
      | some v => cases hloop
  | succ fuel ih =>
      cases p with
      | none => exact (Prod.mk.inj (Option.some.inj hloop)).2 ▸ h
      | some v =>
          unfold SuffixAutomaton.linkLoop at hloop
          split at hloop
          · exact ih (h.assign v) hloop
          · exact (Prod.mk.inj (Option.some.inj hloop)).2 ▸ h

theorem KeysNodup.cloneLoop (h : KeysNodup states)
    (hloop : cloneLoop token q clone fuel p states = some states') : KeysNodup states' := by
  induction fuel generalizing p states with
  | zero =>
      cases p with
      | none => exact Option.some.inj hloop ▸ h
      | some v => cases hloop
  | succ fuel ih =>
      cases p with
      | none => exact Option.some.inj hloop ▸ h
      | some v =>
          have htouch : ((touchNext token (states v).next).map Prod.fst).Nodup := by
            rw [touchNext]
            split
            · exact nodup_setNext (h v)
            · exact h v
          unfold SuffixAutomaton.cloneLoop at hloop
          simp only at hloop
          split at hloop
          · exact ih ((h.update htouch).assign v) hloop
          · exact Option.some.inj hloop ▸ h.update htouch

theorem KeysNodup.extend {s s' : SuffixAutomaton} {pos : Nat} (h : KeysNodup s.states)
    (hextend : s.extend token pos = some s') : KeysNodup s'.states := by
  obtain ⟨⟨p, states⟩, hloop, hrest⟩ := Option.bind_eq_some_iff.mp hextend
  have hstates := (h.update (by simp [newState, SamState.new])).linkLoop hloop
  cases p with
  | none =>
      obtain rfl := Option.some.inj hrest
      exact hstates.setLink _ _
  | some p =>
      simp only at hrest
      split at hrest
      · obtain rfl := Option.some.inj hrest
        exact hstates.setLink _ _
      · obtain ⟨states', hclone, rfl⟩ := Option.map_eq_some_iff.mp hrest
        have hcopy : KeysNodup (Function.update states (s.size + 1)
            (cloneState states p (((states p).next.lookup token).getD 0))) :=
          hstates.update (hstates (((states p).next.lookup token).getD 0))
        exact ((KeysNodup.cloneLoop hcopy hclone).setLink _ _).setLink _ _

end Keys

/-- The automaton that a vector of states describes, as far as `live`. -/
def view (live : Nat → Prop) (states : Nat → SamState) : Automaton Int where
  live := live
  next v token := (states v).next.lookup token
  link v := (states v).link
  maxLen v := (states v).maxLen

/-- The automaton behind the states. -/
def automaton (s : SuffixAutomaton) : Automaton Int := view (· < s.size) s.states

/-- `states_[v].next[token] = state` for all `v` of `vs`. -/
def assignAll (token : Int) (state : Nat) (vs : List Nat) (states : Nat → SamState) (v : Nat) :
    SamState :=
  if v ∈ vs then { states v with next := setNext token state (states v).next } else states v

section Loops

variable {token : Int} {cur q clone fuel v : Nat} {l : List Nat} {live : Nat → Prop}
variable {states : Nat → SamState}

@[simp] theorem assignAll_link (vs : List Nat) (v : Nat) :
    (assignAll token cur vs states v).link = (states v).link := by
  rw [assignAll]
  split <;> rfl

@[simp] theorem assignAll_maxLen (vs : List Nat) (v : Nat) :
    (assignAll token cur vs states v).maxLen = (states v).maxLen := by
  rw [assignAll]
  split <;> rfl

@[simp] theorem assignAll_occCount (vs : List Nat) (v : Nat) :
    (assignAll token cur vs states v).occCount = (states v).occCount := by
  rw [assignAll]
  split <;> rfl

@[simp] theorem assignAll_maxEndPos (vs : List Nat) (v : Nat) :
    (assignAll token cur vs states v).maxEndPos = (states v).maxEndPos := by
  rw [assignAll]
  split <;> rfl

theorem lookup_assignAll (vs : List Nat) (v : Nat) (t : Int) :
    (assignAll token cur vs states v).next.lookup t =
      if v ∈ vs ∧ t = token then some cur else (states v).next.lookup t := by
  rw [assignAll]
  by_cases hv : v ∈ vs
  · rw [if_pos hv, lookup_setNext]
    simp [hv]
  · rw [if_neg hv]
    simp [hv]

theorem setLink_apply (x link : Nat) :
    setLink x link states v = if v = x then { states x with link := some link } else states v :=
  Function.update_apply states x _ v

@[simp] theorem setLink_link (x link : Nat) :
    (setLink x link states v).link = if v = x then some link else (states v).link := by
  rw [setLink_apply]
  split <;> rfl

theorem setLink_rest (x link : Nat) : (setLink x link states v).next = (states v).next ∧
    (setLink x link states v).maxLen = (states v).maxLen ∧
    (setLink x link states v).occCount = (states v).occCount ∧
    (setLink x link states v).maxEndPos = (states v).maxEndPos := by
  rw [setLink_apply]
  split <;> simp [*]

theorem assignAll_cons {vs : List Nat} (hv : v ∉ vs) :
    assignAll token cur vs (assign token cur v states) = assignAll token cur (v :: vs) states := by
  funext x
  by_cases hx : x = v
  · subst hx
    simp [assignAll, assign, hv]
  · simp [assignAll, assign, hx]

theorem chain_assign {u x : Nat} (h : (view live states).Chain u l) :
    (view live (assign token cur x states)).Chain u l := by
  refine h.congr fun y _ => ?_
  by_cases hy : y = x
  · subst hy
    simp [view, assign]
  · simp [view, assign, Function.update_of_ne hy]

theorem takeWhile_congr_mem {P Q : Nat → Bool} (h : ∀ x ∈ l, P x = Q x) :
    l.takeWhile P = l.takeWhile Q := by
  induction l with
  | nil => rfl
  | cons x l ih =>
      rw [List.takeWhile_cons, List.takeWhile_cons, h x List.mem_cons_self,
        ih fun y hy => h y (List.mem_cons_of_mem _ hy)]

theorem takeWhile_assign {P : SamState → Bool} (hv : v ∉ l) :
    (l.takeWhile fun x => P (assign token cur v states x)) = l.takeWhile fun x => P (states x) := by
  refine takeWhile_congr_mem fun x hx => ?_
  have hne : x ≠ v := fun heq => hv (heq ▸ hx)
  rw [assign, Function.update_of_ne hne]

private theorem find_assign {P : SamState → Bool} (hv : v ∉ l) :
    (l.find? fun x => P (assign token cur v states x)) = l.find? fun x => P (states x) := by
  refine List.find?_congr fun x hx => ?_
  have hne : x ≠ v := fun heq => hv (heq ▸ hx)
  rw [assign, Function.update_of_ne hne]

/-- The first loop stops at the first state of the chain that has the token. -/
theorem linkLoop_eq (h : (view live states).Chain v l) (hnodup : l.Nodup)
    (hfuel : l.length ≤ fuel) :
    linkLoop token cur fuel (some v) states =
      some (l.find? fun x => (states x).next.lookup token ≠ none,
        assignAll token cur (l.takeWhile fun x => (states x).next.lookup token = none) states) := by
  induction l generalizing v states fuel with
  | nil => cases h
  | cons x l ih =>
      obtain ⟨hx, hnodup⟩ := List.nodup_cons.mp hnodup
      obtain ⟨fuel, rfl⟩ := Nat.exists_eq_succ_of_ne_zero (Nat.ne_zero_of_lt hfuel)
      have hxv : x = v := by cases h <;> rfl
      subst hxv
      rw [linkLoop]
      by_cases hnone : (states x).next.lookup token = none
      · rw [if_pos hnone, List.find?_cons_of_neg (by simp [hnone]),
          List.takeWhile_cons_of_pos (by simp [hnone]), ← assignAll_cons (fun hmem =>
            hx (List.takeWhile_subset _ hmem))]
        cases h with
        | root hroot =>
            have hroot : (states x).link = none := hroot
            rw [hroot]
            simp only [linkLoop, List.takeWhile_nil, List.find?_nil]
            congr 2
        | step hlink hl =>
            have hlink : (states x).link = some _ := hlink
            rw [hlink, ih (chain_assign hl) hnodup (Nat.le_of_succ_le_succ hfuel)]
            congr 2
            · exact find_assign (P := fun st => st.next.lookup token ≠ none) hx
            · rw [takeWhile_assign (P := fun st => st.next.lookup token = none) hx]
      · rw [if_neg hnone, List.find?_cons_of_pos (by simp [hnone]),
          List.takeWhile_cons_of_neg (by simp [hnone])]
        congr 2

/-- The second loop goes on as long as the token leads to `q`; the states it looks at have the
token. -/
theorem cloneLoop_eq (h : (view live states).Chain v l) (hnodup : l.Nodup)
    (hfuel : l.length ≤ fuel) (hhas : ∀ x ∈ l, (states x).next.lookup token ≠ none) :
    cloneLoop token q clone fuel (some v) states =
      some (assignAll token clone
        (l.takeWhile fun x => (states x).next.lookup token = some q) states) := by
  induction l generalizing v states fuel with
  | nil => cases h
  | cons x l ih =>
      obtain ⟨hx, hnodup⟩ := List.nodup_cons.mp hnodup
      obtain ⟨fuel, rfl⟩ := Nat.exists_eq_succ_of_ne_zero (Nat.ne_zero_of_lt hfuel)
      have hxv : x = v := by cases h <;> rfl
      subst hxv
      have htouch : Function.update states x
          { states x with next := touchNext token (states x).next } = states := by
        rw [touchNext, if_neg (hhas x List.mem_cons_self)]
        exact Function.update_eq_self x states
      simp only [cloneLoop, htouch]
      by_cases hq : (states x).next.lookup token = some q
      · rw [if_pos hq, List.takeWhile_cons_of_pos (by simp [hq]), ← assignAll_cons (fun hmem =>
            hx (List.takeWhile_subset _ hmem))]
        cases h with
        | root hroot =>
            have hroot : (states x).link = none := hroot
            rw [hroot]
            simp only [cloneLoop, List.takeWhile_nil]
            congr 1
        | step hlink hl =>
            have hlink : (states x).link = some _ := hlink
            have hhas' : ∀ y ∈ l, (assign token clone x states y).next.lookup token ≠ none := by
              intro y hy
              have hne : y ≠ x := fun heq => hx (heq ▸ hy)
              rw [assign, Function.update_of_ne hne]
              exact hhas y (List.mem_cons_of_mem _ hy)
            rw [hlink, ih (chain_assign hl) hnodup (Nat.le_of_succ_le_succ hfuel) hhas',
              takeWhile_assign (P := fun st => st.next.lookup token = some q) hx]
      · rw [if_neg hq, List.takeWhile_cons_of_neg (by simp [hq])]
        congr 1

/-- Where a property holds up to a place only, the states in front of it are all that have it. -/
theorem mem_takeWhile_iff {P : Nat → Bool} (h : l.Pairwise fun x y => P y → P x) (x : Nat) :
    x ∈ l.takeWhile P ↔ x ∈ l ∧ P x := by
  induction l with
  | nil => simp
  | cons y l ih =>
      obtain ⟨hy, hl⟩ := List.pairwise_cons.mp h
      by_cases hP : P y
      · rw [List.takeWhile_cons_of_pos hP, List.mem_cons, List.mem_cons, ih hl]
        constructor
        · rintro (rfl | ⟨hx, hPx⟩)
          · exact ⟨Or.inl rfl, hP⟩
          · exact ⟨Or.inr hx, hPx⟩
        · rintro ⟨rfl | hx, hPx⟩
          · exact Or.inl rfl
          · exact Or.inr ⟨hx, hPx⟩
      · rw [List.takeWhile_cons_of_neg hP]
        refine ⟨fun hx => absurd hx List.not_mem_nil, fun ⟨hx, hPx⟩ => ?_⟩
        rcases List.mem_cons.mp hx with rfl | hx
        · exact absurd hPx hP
        · exact absurd (hy x hx hPx) hP

end Loops

/-- The states index the text so far; a state counts an occurrence of its own if its longest word
is a prefix of the text, and its end position is that of an occurrence. -/
structure Built (s : SuffixAutomaton) (text : List Int) (longest : Nat → List Int) : Prop where
  indexes : Indexes s.automaton text longest s.last
  occCount : ∀ v < s.size,
    (s.states v).occCount = if longest v ≠ [] ∧ longest v <+: text then 1 else 0
  endPos_root : (s.states 0).maxEndPos = -1
  endPos : ∀ v < s.size, v ≠ 0 → ∃ e < text.length, (s.states v).maxEndPos = e ∧
    longest v <:+ text.take (e + 1) ∧ (longest v <+: text → longest v = text.take (e + 1))

theorem built_new : new.Built [] fun _ => [] where
  indexes := by
    have heq : new.automaton = empty := by
      rw [automaton, view, new, empty]
      simp only [Nat.lt_one_iff]
      rfl
    rw [heq]
    exact indexes_empty
  occCount v _ := by simp [new, SamState.new]
  endPos_root := rfl
  endPos v hv hroot := absurd (Nat.lt_one_iff.mp hv) hroot

section Extend

variable {s : SuffixAutomaton} {text : List Int} {longest : Nat → List Int} {token : Int}
variable {l : List Nat} {p q pos : Nat}

/-- The states of a chain that cannot go on with the token. -/
def before (s : SuffixAutomaton) (token : Int) (l : List Nat) : List Nat :=
  l.takeWhile fun x => (s.states x).next.lookup token = none

def linkedStates (s : SuffixAutomaton) (token : Int) (pos : Nat) (l : List Nat) : Nat → SamState :=
  assignAll token s.size (s.before token l) (Function.update s.states s.size (s.newState pos))

def redirected (s : SuffixAutomaton) (token : Int) (q : Nat) (l : List Nat) : List Nat :=
  l.takeWhile fun x => (s.states x).next.lookup token = some q

theorem chain_length (h : Indexes s.automaton text longest s.last) (hv : p < s.size)
    (hl : s.automaton.Chain p l) : l.length ≤ s.size := by
  have hsub : l ⊆ List.range s.size := fun x hx => List.mem_range.mpr (h.chain_mem hv hl hx).1
  simpa using (List.subperm_of_subset (h.chain_nodup hv hl) hsub).length_le

theorem mem_before (h : Built s text longest) (hl : s.automaton.Chain s.last l) (v : Nat) :
    v ∈ s.before token l ↔ v ∈ l ∧ s.automaton.next v token = none := by
  rw [before, mem_takeWhile_iff ?_, decide_eq_true_eq]
  · rfl
  · refine (h.indexes.chain_next_none h.indexes.live_last hl token).imp fun hxy hy => ?_
    rw [decide_eq_true_eq] at hy ⊢
    exact hxy hy

theorem mem_redirected (h : Built s text longest) (hp : p < s.size) (hl : s.automaton.Chain p l)
    (hnext : s.automaton.next p token = some q) (v : Nat) :
    v ∈ s.redirected token q l ↔ v ∈ l ∧ s.automaton.next v token = some q := by
  rw [redirected, mem_takeWhile_iff ?_, decide_eq_true_eq]
  · rfl
  · refine (h.indexes.chain_next_same hp hl hnext).imp fun hxy hy => ?_
    rw [decide_eq_true_eq] at hy ⊢
    exact hxy hy

theorem ne_size {v : Nat} (hv : v < s.size) : v ≠ s.size ∧ v ≠ s.size + 1 := by omega

private theorem states_fresh (v : Nat) (hv : v < s.size) :
    Function.update s.states s.size (s.newState pos) v = s.states v :=
  Function.update_of_ne (ne_size hv).1 _ _

theorem linkLoop_last (h : Built s text longest) (hl : s.automaton.Chain s.last l) :
    linkLoop token s.size (s.size + 1) (some s.last)
        (Function.update s.states s.size (s.newState pos)) =
      some (l.find? fun x => (s.states x).next.lookup token ≠ none,
        s.linkedStates token pos l) := by
  have hlive : ∀ x ∈ l, x < s.size := fun x hx => (h.indexes.chain_mem h.indexes.live_last hl hx).1
  have hchain : (view (· < s.size) (Function.update s.states s.size (s.newState pos))).Chain
      s.last l := hl.congr fun x hx => by
    change (Function.update s.states s.size (s.newState pos) x).link = (s.states x).link
    rw [states_fresh x (hlive x hx)]
  rw [linkLoop_eq hchain (h.indexes.chain_nodup h.indexes.live_last hl)
    (Nat.le_succ_of_le (chain_length h.indexes h.indexes.live_last hl)), linkedStates, before]
  congr 2
  · exact List.find?_congr fun x hx => by rw [states_fresh x (hlive x hx)]
  · congr 1
    exact takeWhile_congr_mem fun x hx => by rw [states_fresh x (hlive x hx)]

theorem before_lt (h : Built s text longest) (hl : s.automaton.Chain s.last l) {v : Nat}
    (hv : v ∈ s.before token l) : v < s.size :=
  (h.indexes.chain_mem h.indexes.live_last hl ((mem_before h hl v).mp hv).1).1

theorem linkedStates_size (h : Built s text longest) (hl : s.automaton.Chain s.last l) :
    s.linkedStates token pos l s.size = s.newState pos := by
  have hnot : s.size ∉ s.before token l := fun hmem => (ne_size (before_lt h hl hmem)).1 rfl
  rw [linkedStates, assignAll, if_neg hnot, Function.update_self]

theorem linkedStates_of_ne {v : Nat} (hv : v ≠ s.size) :
    s.linkedStates token pos l v = assignAll token s.size (s.before token l) s.states v := by
  rw [linkedStates, assignAll, assignAll, Function.update_of_ne hv]

/-- The new state with its link, as long as no state is divided. -/
def attached (s : SuffixAutomaton) (token : Int) (pos linked : Nat) (l : List Nat) :
    SuffixAutomaton :=
  { s with
    states := setLink s.size linked (s.linkedStates token pos l)
    size := s.size + 1
    last := s.size }

theorem maxLen_last (h : Built s text longest) : (s.states s.last).maxLen = text.length := by
  rw [← h.indexes.longest_last]
  exact h.indexes.length _ h.indexes.live_last

theorem automaton_attached (h : Built s text longest) (hl : s.automaton.Chain s.last l)
    (linked : Nat) : (s.attached token pos linked l).automaton =
      append s.automaton s.size token text.length linked (s.before token l) := by
  simp only [automaton, view, append, attached, setLink, Automaton.mk.injEq]
  refine ⟨?_, ?_, ?_, ?_⟩
  · funext v
    exact propext Nat.lt_succ_iff_lt_or_eq
  · funext v t
    by_cases hv : v = s.size
    · simp [hv, linkedStates_size h hl, newState, SamState.new]
    · simp [hv, linkedStates_of_ne hv, lookup_assignAll]
  · funext v
    by_cases hv : v = s.size
    · simp [hv]
    · simp [hv, linkedStates_of_ne hv, assignAll_link]
  · funext v
    by_cases hv : v = s.size
    · simp [hv, linkedStates_size h hl, newState, maxLen_last h]
    · simp [hv, linkedStates_of_ne hv, assignAll_maxLen]

theorem prefix_grown_iff (h : Built s text longest) {w : List Int} {v : Nat}
    (hw : s.automaton.run w = some v) : w <+: text ++ [token] ↔ w <+: text := by
  rw [List.prefix_concat_iff]
  refine or_iff_right fun heq => ?_
  have hinfix := ((h.indexes.words w).mp (by rw [hw]; rfl)).length_le
  rw [heq, List.length_append, List.length_singleton] at hinfix
  omega

private theorem take_grown {e : Nat} (he : e < text.length) :
    (text ++ [token]).take (e + 1) = text.take (e + 1) :=
  List.take_append_of_le_length he

/-- What one more token does to the occurrences: the new state has one, a clone has none of its
own and the end position of the state it was made from. -/
theorem Built.grown {s' : SuffixAutomaton} {longest' : Nat → List Int} (h : Built s text longest)
    (hindexes : Indexes s'.automaton (text ++ [token]) longest' s'.last)
    (hold : ∀ v < s.size, longest' v = longest v ∧
      (s'.states v).occCount = (s.states v).occCount ∧
      (s'.states v).maxEndPos = (s.states v).maxEndPos)
    (hnew : longest' s.size = text ++ [token] ∧ (s'.states s.size).occCount = 1 ∧
      (s'.states s.size).maxEndPos = text.length)
    (hclone : ∀ v < s'.size, v < s.size ∨ v = s.size ∨ (s'.states v).occCount = 0 ∧
      ∃ q < s.size, q ≠ 0 ∧ (s'.states v).maxEndPos = (s.states q).maxEndPos ∧
        longest' v <:+ longest q ∧ longest' v ≠ longest q ∧
        s.automaton.run (longest' v) = some q) : s'.Built (text ++ [token]) longest' := by
  -- a clone's longest word is no prefix, since its state had a longer one
  have hnotPrefixed : ∀ v q, longest' v ≠ longest q → s.automaton.run (longest' v) = some q →
      ¬ longest' v <+: text ++ [token] := by
    intro v q hne hrun hpref
    exact hne (h.indexes.longest_of_prefix hrun ((prefix_grown_iff h hrun).mp hpref)).symm
  refine ⟨hindexes, fun v hv => ?_, ?_, fun v hv hroot => ?_⟩
  · rcases hclone v hv with hv | rfl | ⟨hocc, q, _, _, _, _, hne, hrun⟩
    · obtain ⟨hlongest, hocc, _⟩ := hold v hv
      simp only [hocc, h.occCount v hv, hlongest, prefix_grown_iff h (h.indexes.run_longest hv)]
    · rw [hnew.2.1, hnew.1, if_pos ⟨by simp, List.prefix_rfl⟩]
    · rw [hocc, if_neg fun hpref => hnotPrefixed v q hne hrun hpref.2]
  · rw [(hold 0 h.indexes.live_root).2.2, h.endPos_root]
  · rw [List.length_append, List.length_singleton]
    rcases hclone v hv with hv | rfl | ⟨_, q, hq, hqroot, hend, hsuffix, hne, hrun⟩
    · obtain ⟨hlongest, _, hend⟩ := hold v hv
      obtain ⟨e, he, hpos, hsuffix, hpref⟩ := h.endPos v hv hroot
      refine ⟨e, Nat.lt_succ_of_lt he, hend.trans hpos, ?_⟩
      rw [hlongest, take_grown he, prefix_grown_iff h (h.indexes.run_longest hv)]
      exact ⟨hsuffix, hpref⟩
    · have htake : (text ++ [token]).take (text.length + 1) = text ++ [token] :=
        List.take_of_length_le (by simp)
      rw [hnew.1]
      exact ⟨text.length, Nat.lt_succ_self _, hnew.2.2, by rw [htake], fun _ => htake.symm⟩
    · obtain ⟨e, he, hpos, hlong, _⟩ := h.endPos q hq hqroot
      refine ⟨e, Nat.lt_succ_of_lt he, hend.trans hpos, ?_,
        fun hpref => absurd hpref (hnotPrefixed v q hne hrun)⟩
      rw [take_grown he]
      exact hsuffix.trans hlong

theorem built_attached (h : Built s text longest) (hl : s.automaton.Chain s.last l) {linked : Nat}
    (hp : Appends s.automaton s.last token l (s.before token l) linked) :
    (s.attached token text.length linked l).Built (text ++ [token])
      (Function.update longest s.size (text ++ [token])) := by
  refine h.grown ?_ (fun v hv => ?_) ?_ fun v hv => (Nat.lt_succ_iff_lt_or_eq.mp hv).imp_right .inl
  · rw [automaton_attached h hl]
    exact hp.indexes h.indexes (Nat.lt_irrefl _)
  · have hne := (ne_size hv).1
    rw [Function.update_of_ne hne]
    simp only [attached, setLink, Function.update_of_ne hne, linkedStates_of_ne hne,
      assignAll_occCount, assignAll_maxEndPos, and_self]
  · simp [attached, setLink, linkedStates_size h hl, newState]

/-- The new state and the clone with their links. -/
def divided (s : SuffixAutomaton) (token : Int) (pos p q : Nat) (l lp : List Nat) :
    SuffixAutomaton :=
  { s with
    states := setLink s.size (s.size + 1) (setLink q (s.size + 1)
      (assignAll token (s.size + 1) (s.redirected token q lp)
        (Function.update (s.linkedStates token pos l) (s.size + 1)
          (cloneState (s.linkedStates token pos l) p q))))
    size := s.size + 2
    last := s.size }

/-- The states that lead to the new one, the clone among them if its original does. -/
def beforeDivided (s : SuffixAutomaton) (token : Int) (q : Nat) (l : List Nat) : List Nat :=
  if q ∈ s.before token l then (s.size + 1) :: s.before token l else s.before token l

section Divided

variable {lp : List Nat} (h : Built s text longest) (hl : s.automaton.Chain s.last l)
variable (hs : Splits s.automaton p q token lp (s.redirected token q lp))
include h hl hs

theorem not_before_of_redirected {v : Nat} (hv : v ∈ s.redirected token q lp) :
    v < s.size ∧ v ∉ s.before token l := by
  obtain ⟨hmem, hsame⟩ := (hs.redirected v).mp hv
  refine ⟨(h.indexes.chain_mem hs.live hs.chain hmem).1, fun hbefore => ?_⟩
  rw [((mem_before h hl v).mp hbefore).2] at hsame
  cases hsame

omit h hl hs in
theorem mem_beforeDivided (v : Nat) : v ∈ s.beforeDivided token q l ↔
    v ∈ s.before token l ∨ v = s.size + 1 ∧ q ∈ s.before token l := by
  rw [beforeDivided]
  split <;> simp [*, or_comm]

theorem automaton_divided : (s.divided token pos p q l lp).automaton =
    append (split s.automaton (s.size + 1) p q token (s.redirected token q lp)) s.size token
      text.length (s.size + 1) (s.beforeDivided token q l) := by
  have hq' := ne_size (hs.live_q h.indexes)
  have hp' := ne_size hs.live
  have hnew : s.size ∉ s.redirected token q lp := fun hv =>
    (ne_size (not_before_of_redirected h hl hs hv).1).1 rfl
  have hclone : s.size + 1 ∉ s.redirected token q lp := fun hv =>
    (ne_size (not_before_of_redirected h hl hs hv).1).2 rfl
  have hclone' : s.size + 1 ∉ s.before token l := fun hv => (ne_size (before_lt h hl hv)).2 rfl
  simp only [automaton, view, append, split, divided, Automaton.mk.injEq, mem_beforeDivided,
    (setLink_rest _ _).1, (setLink_rest _ _).2.1, setLink_link, lookup_assignAll, assignAll_link,
    assignAll_maxLen]
  refine ⟨?_, ?_, ?_, ?_⟩
  · funext v
    exact propext (by omega)
  · funext v t
    by_cases hv : v = s.size
    · subst hv
      simp [hnew, linkedStates_size h hl, newState, SamState.new]
    · by_cases hv' : v = s.size + 1
      · subst hv'
        simp [hclone, hclone', cloneState, linkedStates_of_ne hq'.1, lookup_assignAll]
      · by_cases hvr : v ∈ s.redirected token q lp
        · simp [hv, hv', hvr, (not_before_of_redirected h hl hs hvr).2, linkedStates_of_ne hv,
            lookup_assignAll]
        · simp [hv, hv', hvr, linkedStates_of_ne hv, lookup_assignAll]
  · funext v
    by_cases hv : v = s.size
    · simp [hv]
    · by_cases hv' : v = s.size + 1
      · subst hv'
        simp [cloneState, hq'.2.symm, linkedStates_of_ne hq'.1, assignAll_link]
      · simp [hv, hv', linkedStates_of_ne hv, assignAll_link]
  · funext v
    by_cases hv : v = s.size
    · simp [hv, linkedStates_size h hl, newState, maxLen_last h]
    · by_cases hv' : v = s.size + 1
      · subst hv'
        simp [cloneState, linkedStates_of_ne hp'.1, assignAll_maxLen]
      · simp [hv, hv', linkedStates_of_ne hv, assignAll_maxLen]

private theorem mem_chain_divided {l' : List Nat}
    (hl' : (split s.automaton (s.size + 1) p q token (s.redirected token q lp)).Chain s.last l') :
    (∀ v < s.size, v ∈ l' ↔ v ∈ l) ∧ (s.size + 1 ∈ l' ↔ q ∈ l) ∧
      ∀ v ∈ l', v < s.size ∨ v = s.size + 1 := by
  have hfresh : ¬ s.automaton.live (s.size + 1) := Nat.not_lt_of_le (Nat.le_succ _)
  have h' := hs.indexes h.indexes hfresh
  refine ⟨fun v hv => ?_, ?_, fun v hv => (h'.chain_mem h'.live_last hl' hv).1⟩
  · rw [h'.mem_chain_iff h'.live_last hl' (h'.run_longest (Or.inl hv)),
      h.indexes.mem_chain_iff h.indexes.live_last hl (h.indexes.run_longest hv), h'.longest_last,
      h.indexes.longest_last, Function.update_of_ne (ne_size hv).2]
  · rw [h'.mem_chain_iff h'.live_last hl' (h'.run_longest (Or.inr rfl)),
      h.indexes.mem_chain_iff h.indexes.live_last hl (hs.run_long h.indexes), h'.longest_last,
      h.indexes.longest_last, Function.update_self]

theorem appends_divided (hp : p ∈ l) (hfirst : ∀ v ∈ l, s.automaton.next v token ≠ none →
      s.automaton.maxLen v ≤ s.automaton.maxLen p) :
    ∃ l', Appends (split s.automaton (s.size + 1) p q token (s.redirected token q lp)) s.last token
      l' (s.beforeDivided token q l) (s.size + 1) := by
  have hfresh : ¬ s.automaton.live (s.size + 1) := Nat.not_lt_of_le (Nat.le_succ _)
  have h' := hs.indexes h.indexes hfresh
  obtain ⟨l', hl'⟩ := h'.exists_chain h'.live_last
  obtain ⟨hold, hclone, hall⟩ := mem_chain_divided h hl hs hl'
  have hnext : ∀ v < s.size,
      (split s.automaton (s.size + 1) p q token (s.redirected token q lp)).next v token = none ↔
        s.automaton.next v token = none := by
    intro v hv
    by_cases hvr : v ∈ s.redirected token q lp
    · simp [split, (ne_size hv).2, hvr, ((hs.redirected v).mp hvr).2]
    · simp [split, (ne_size hv).2, hvr]
  have hnext' :
      (split s.automaton (s.size + 1) p q token (s.redirected token q lp)).next (s.size + 1) token =
        s.automaton.next q token := if_pos rfl
  have hpr : p ∈ s.redirected token q lp := (hs.redirected p).mpr ⟨hs.chain.self_mem, hs.next⟩
  refine ⟨l', hl', fun v => ?_, Or.inr ⟨p, (hold p hs.live).mpr hp, ?_, ?_, fun v hv hv' => ?_⟩⟩
  · rw [mem_beforeDivided]
    constructor
    · rintro (hv | ⟨rfl, hq⟩)
      · have hlt := before_lt h hl hv
        rw [hold v hlt, hnext v hlt]
        exact (mem_before h hl v).mp hv
      · rw [hclone, hnext']
        exact (mem_before h hl q).mp hq
    · rintro ⟨hv, hnone⟩
      rcases hall v hv with hlt | rfl
      · rw [hold v hlt] at hv
        rw [hnext v hlt] at hnone
        exact Or.inl ((mem_before h hl v).mpr ⟨hv, hnone⟩)
      · rw [hclone] at hv
        rw [hnext'] at hnone
        exact Or.inr ⟨rfl, (mem_before h hl q).mpr ⟨hv, hnone⟩⟩
  · simp [split, (ne_size hs.live).2, hpr]
  · simp [split, (ne_size hs.live).2]
  · rcases hall v hv with hlt | rfl
    · rw [hold v hlt] at hv
      rw [ne_eq, hnext v hlt] at hv'
      simpa [split, (ne_size hlt).2, (ne_size hs.live).2] using hfirst v hv hv'
    · -- the clone's original is too long to go on with the token
      rw [hclone] at hv
      rw [hnext'] at hv'
      have hle := hfirst q hv hv'
      have hlonger := hs.longer
      omega

theorem built_divided (hp : p ∈ l) (hfirst : ∀ v ∈ l, s.automaton.next v token ≠ none →
      s.automaton.maxLen v ≤ s.automaton.maxLen p) :
    (s.divided token text.length p q l lp).Built (text ++ [token])
      (Function.update (Function.update longest (s.size + 1) (longest p ++ [token])) s.size
        (text ++ [token])) := by
  have hfresh : ¬ s.automaton.live (s.size + 1) := Nat.not_lt_of_le (Nat.le_succ _)
  have hq := hs.live_q h.indexes
  obtain ⟨l', happends⟩ := appends_divided h hl hs hp hfirst
  refine h.grown ?_ (fun v hv => ?_) ?_ fun v hv => ?_
  · rw [automaton_divided h hl hs]
    refine happends.indexes (hs.indexes h.indexes hfresh) ?_
    rintro (hlt | heq)
    · exact Nat.lt_irrefl _ hlt
    · omega
  · obtain ⟨hne, hne'⟩ := ne_size hv
    rw [Function.update_of_ne hne, Function.update_of_ne hne']
    simp [divided, (setLink_rest _ _).2.2, assignAll_occCount, assignAll_maxEndPos,
      linkedStates_of_ne hne, hne']
  · simp [divided, (setLink_rest _ _).2.2, assignAll_occCount, assignAll_maxEndPos,
      linkedStates_size h hl, newState]
  · have hcases : v < s.size ∨ v = s.size ∨ v = s.size + 1 := by
      have hlt : v < s.size + 2 := hv
      omega
    refine hcases.imp_right (Or.imp_right ?_)
    rintro rfl
    obtain ⟨hsuffix, _⟩ := hs.suffix h.indexes
    rw [Function.update_of_ne (Nat.succ_ne_self _), Function.update_self]
    refine ⟨?_, q, hq, hs.q_ne_root h.indexes, ?_, hsuffix, fun heq => ?_, hs.run_long h.indexes⟩
    · simp [divided, (setLink_rest _ _).2.2, assignAll_occCount, cloneState]
    · simp [divided, (setLink_rest _ _).2.2, assignAll_maxEndPos, cloneState,
        linkedStates_of_ne (ne_size hq).1]
    · have hlonger := hs.longer
      rw [h.indexes.length p hs.live, h.indexes.length q hq, ← heq, List.length_append,
        List.length_singleton] at hlonger
      exact Nat.lt_irrefl _ hlonger

theorem cloneLoop_first {fuel : Nat} (hfuel : s.size ≤ fuel) :
    cloneLoop token q (s.size + 1) fuel (some p)
        (Function.update (s.linkedStates token pos l) (s.size + 1)
          (cloneState (s.linkedStates token pos l) p q)) =
      some (assignAll token (s.size + 1) (s.redirected token q lp)
        (Function.update (s.linkedStates token pos l) (s.size + 1)
          (cloneState (s.linkedStates token pos l) p q))) := by
  have hmem : ∀ x ∈ lp, x < s.size ∧ s.automaton.next x token ≠ none := by
    intro x hx
    obtain ⟨hlt, hsuffix, _⟩ := h.indexes.chain_mem hs.live hs.chain hx
    have hsome := h.indexes.next_isSome (h.indexes.run_longest hlt) (h.indexes.run_longest hs.live)
      hsuffix (by rw [hs.next]; rfl)
    exact ⟨hlt, Option.isSome_iff_ne_none.mp hsome⟩
  have hsame : ∀ x ∈ lp, Function.update (s.linkedStates token pos l) (s.size + 1)
      (cloneState (s.linkedStates token pos l) p q) x = s.states x := by
    intro x hx
    obtain ⟨hlt, hnext⟩ := hmem x hx
    have hnot : x ∉ s.before token l := fun hbefore => hnext ((mem_before h hl x).mp hbefore).2
    rw [Function.update_of_ne (ne_size hlt).2, linkedStates_of_ne (ne_size hlt).1, assignAll,
      if_neg hnot]
  have hchain : (view (· < s.size) (Function.update (s.linkedStates token pos l) (s.size + 1)
      (cloneState (s.linkedStates token pos l) p q))).Chain p lp :=
    hs.chain.congr fun x hx => congrArg SamState.link (hsame x hx)
  rw [cloneLoop_eq hchain (h.indexes.chain_nodup hs.live hs.chain)
    (Nat.le_trans (chain_length h.indexes hs.live hs.chain) hfuel)
    (fun x hx => by rw [hsame x hx]; exact (hmem x hx).2), redirected]
  congr 2
  exact takeWhile_congr_mem fun x hx => by rw [hsame x hx]

end Divided

/-- The first state of the chain of the text that can go on has the longest words. -/
theorem first_of_find (h : Built s text longest) (hl : s.automaton.Chain s.last l)
    (hfind : l.find? (fun x => (s.states x).next.lookup token ≠ none) = some p) :
    p < s.size ∧ p ∈ l ∧ s.automaton.next p token ≠ none ∧
      (∃ lp, s.automaton.Chain p lp ∧ lp ⊆ l) ∧ ∀ v ∈ l, s.automaton.next v token ≠ none →
        s.automaton.maxLen v ≤ s.automaton.maxLen p := by
  obtain ⟨hnext, front, rest, rfl, hfront⟩ := List.find?_eq_some_iff_append.mp hfind
  have hmem : p ∈ front ++ p :: rest := List.mem_append_right _ List.mem_cons_self
  have hp := (h.indexes.chain_mem h.indexes.live_last hl hmem).1
  refine ⟨hp, hmem, of_decide_eq_true hnext,
    ⟨p :: rest, hl.drop, List.subset_append_right _ _⟩, fun v hv hv' => ?_⟩
  rcases List.mem_append.mp hv with hv | hv
  · have hnone := hfront v hv
    rw [Bool.not_eq_true', decide_eq_false_iff_not, not_not] at hnone
    exact absurd hnone hv'
  · exact (h.indexes.chain_mem hp hl.drop hv).2.2

/-- One more token: the loops end, and the states index the longer text. -/
theorem extend_spec (h : Built s text longest) (token : Int) :
    ∃ s' longest', s.extend token text.length = some s' ∧
      s' = { s with states := s'.states, size := s'.size, last := s'.last } ∧
      s'.Built (text ++ [token]) longest' := by
  obtain ⟨l, hl⟩ := h.indexes.exists_chain h.indexes.live_last
  have hlive : ∀ x ∈ l, x < s.size := fun x hx =>
    (h.indexes.chain_mem h.indexes.live_last hl hx).1
  simp only [extend, linkLoop_last h hl, Option.bind_some]
  cases hfind : l.find? fun x => (s.states x).next.lookup token ≠ none with
  | none =>
      refine ⟨_, _, rfl, rfl, built_attached h hl
        ⟨hl, mem_before h hl, Or.inl ⟨rfl, fun v hv => ?_⟩⟩⟩
      exact not_not.mp (mt decide_eq_true (List.find?_eq_none.mp hfind v hv))
  | some p =>
      obtain ⟨hp, hpl, hhas, ⟨lp, hlp, hsub⟩, hfirst⟩ := first_of_find h hl hfind
      obtain ⟨q, hq⟩ := Option.ne_none_iff_exists'.mp hhas
      have hqlt := h.indexes.closed p hp token q hq
      have hnotbefore : p ∉ s.before token l := fun hmem =>
        hhas ((mem_before h hl p).mp hmem).2
      have hlookup : ((s.linkedStates token text.length l p).next.lookup token).getD 0 = q := by
        have hq : (s.states p).next.lookup token = some q := hq
        rw [linkedStates_of_ne (ne_size hp).1, lookup_assignAll, if_neg fun hmem =>
          hnotbefore hmem.1, hq]
        rfl
      have hmaxLen : ∀ v < s.size,
          (s.linkedStates token text.length l v).maxLen = s.automaton.maxLen v := fun v hv => by
        rw [linkedStates_of_ne (ne_size hv).1, assignAll_maxLen]
        rfl
      simp only [hlookup, hmaxLen p hp, hmaxLen q hqlt]
      by_cases hlen : s.automaton.maxLen p + 1 = s.automaton.maxLen q
      · rw [if_pos hlen]
        exact ⟨_, _, rfl, rfl, built_attached h hl
          ⟨hl, mem_before h hl, Or.inr ⟨p, hpl, hq, hlen.symm, hfirst⟩⟩⟩
      · rw [if_neg hlen]
        have hs : Splits s.automaton p q token lp (s.redirected token q lp) :=
          ⟨hp, hq, by have := h.indexes.maxLen_lt hp hq; omega, hlp, mem_redirected h hp hlp hq⟩
        rw [cloneLoop_first h hl hs (Nat.le_succ _)]
        exact ⟨_, _, rfl, rfl, built_divided h hl hs hpl hfirst⟩

end Extend

end SuffixAutomaton

end SpecDecode.Ngram
