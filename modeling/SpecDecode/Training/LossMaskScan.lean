import SpecDecode.Training.LossMask
import Mathlib.Data.List.Range

/-!
# The regular expression finds the assistant's turns

`turns` says where the turns of the assistant lie in the fallback rendering. Where the header
occurs nowhere else and the token behind a turn occurs in it at its end only, these are the
matches, and a search for a word without overlaps passes every occurrence of it.
-/

namespace SpecDecode.Training.LossMask

def OccursAt (word text : Text) (s : Nat) : Prop := s ≤ text.length ∧ word <+: text.drop s

theorem occursAt_iff {word text : Text} {s : Nat} (hs : s ≤ text.length) :
    word.isPrefixOf (text.drop s) = true ↔ OccursAt word text s := by
  rw [List.isPrefixOf_iff_prefix, OccursAt, and_iff_right hs]

theorem OccursAt.add_length_le {word text : Text} {s : Nat} (h : OccursAt word text s) :
    s + word.length ≤ text.length := by
  have hlength := h.2.length_le
  rw [List.length_drop] at hlength
  have hs := h.1
  omega

theorem range'_split (pos k r : Nat) : List.range' pos (k + r + 1) =
    List.range' pos k ++ (pos + k) :: List.range' (pos + k + 1) r := by
  rw [Nat.add_assoc, ← List.range'_append_1, List.range'_succ]

theorem findSome?_range'_eq {α : Type} {f : Nat → Option α} {v : α} {pos n k : Nat} (hk : k < n)
    (hbefore : ∀ i, i < k → f (pos + i) = none) (hv : f (pos + k) = some v) :
    (List.range' pos n).findSome? f = some v := by
  obtain ⟨r, rfl⟩ := Nat.exists_eq_add_of_lt hk
  refine List.findSome?_eq_some_iff.mpr ⟨_, _, _, range'_split pos k r, hv, fun x hx => ?_⟩
  obtain ⟨i, hi, rfl⟩ := List.mem_range'.mp hx
  rw [Nat.one_mul]
  exact hbefore i hi

theorem flatMap_range'_eq {α : Type} (f : Nat → List α) (pos : Nat) {n k : Nat} (hk : k < n)
    (hbefore : ∀ i, i < k → f (pos + i) = []) : ∃ rest,
    (List.range' pos n).flatMap f = f (pos + k) ++ rest := by
  obtain ⟨r, rfl⟩ := Nat.exists_eq_add_of_lt hk
  have hfirst : (List.range' pos k).flatMap f = [] := by
    rw [List.flatMap_eq_nil_iff]
    intro x hx
    obtain ⟨i, hi, rfl⟩ := List.mem_range'.mp hx
    rw [Nat.one_mul]
    exact hbefore i hi
  exact ⟨_, by rw [range'_split, List.flatMap_append, hfirst, List.nil_append, List.flatMap_cons]⟩

structure Turn where
  start : Nat
  contentStart : Nat
  stop : Nat

def turns (t : ChatTemplate) : Nat → List Message → List Turn
  | _, [] => []
  | offset, msg :: rest =>
      let stop := offset + (renderPart t msg).length
      if msg.role = .assistant then
        ⟨offset, offset + (t.assistantHeader.getD []).length, stop⟩ :: turns t stop rest
      else turns t stop rest

theorem le_start {t : ChatTemplate} {offset : Nat} {messages : List Message} {turn : Turn}
    (h : turn ∈ turns t offset messages) : offset ≤ turn.start := by
  induction messages generalizing offset with
  | nil => cases h
  | cons msg rest ih =>
      unfold turns at h
      split at h
      · rcases List.mem_cons.mp h with rfl | h
        · exact Nat.le_refl _
        · exact Nat.le_trans (Nat.le_add_right _ _) (ih h)
      · exact Nat.le_trans (Nat.le_add_right _ _) (ih h)

theorem atDollar_of_length {rest : Text} (h : 2 ≤ rest.length) :
    AssistantPattern.atDollar rest = false := by
  obtain ⟨c, d, more, rfl⟩ : ∃ c d more, rest = c :: d :: more := by
    cases rest with
    | nil => simp at h
    | cons c rest =>
        cases rest with
        | nil => simp at h
        | cons d more => exact ⟨c, d, more, rfl⟩
  simp [AssistantPattern.atDollar]

section Match

variable {header eot content rest text : Text} {offset : Nat}

/-- The token behind a turn occurs in it at its end only. -/
def EndsOnce (content eot : Text) : Prop :=
  ∀ e, OccursAt eot (content ++ eot) e → e = content.length

variable (heot : eot ≠ []) (honce : EndsOnce content eot)
  (htext : text.drop offset = header ++ (content ++ eot) ++ rest)

include htext in
theorem drop_content (e : Nat) (he : e ≤ content.length) :
    text.drop (offset + header.length + e) = content.drop e ++ eot ++ rest := by
  have hdrop : text.drop (offset + header.length + e) =
      ((text.drop offset).drop header.length).drop e := by
    rw [List.drop_drop, List.drop_drop, Nat.add_assoc]
  rw [hdrop, htext, List.append_assoc, List.drop_left, List.append_assoc,
    List.drop_append_of_le_length he, List.append_assoc]

include heot honce htext

theorem endsAt_content {e : Nat} (he : e < content.length) :
    AssistantPattern.endsAt ⟨header, .literal eot⟩ text (offset + header.length + e) = [] := by
  have hdrop := drop_content htext e (Nat.le_of_lt he)
  have hpos := List.length_pos_of_ne_nil heot
  have hlen : 2 ≤ (text.drop (offset + header.length + e)).length := by
    rw [hdrop, List.length_append, List.length_append, List.length_drop]
    omega
  have hliteral : eot.isPrefixOf (text.drop (offset + header.length + e)) = false := by
    rw [← Bool.not_eq_true, List.isPrefixOf_iff_prefix, hdrop]
    intro hpre
    have hinside : eot <+: content.drop e ++ eot :=
      List.prefix_of_prefix_length_le hpre (List.prefix_append _ _) (by simp)
    rw [← List.drop_append_of_le_length (Nat.le_of_lt he)] at hinside
    have hend := honce e ⟨by rw [List.length_append]; omega, hinside⟩
    omega
  have hdollar := atDollar_of_length hlen
  simp [AssistantPattern.endsAt, TurnEnd.matchLength, hliteral, hdollar]

theorem matchAt_turn : AssistantPattern.matchAt ⟨header, .literal eot⟩ text offset false =
    some (offset + header.length + content.length + eot.length) := by
  have hpre : header.isPrefixOf (text.drop offset) = true := by
    rw [htext, List.isPrefixOf_iff_prefix, List.append_assoc]
    exact List.prefix_append _ _
  have hlength := congrArg List.length htext
  simp only [List.length_drop, List.length_append] at hlength
  have hpos := List.length_pos_of_ne_nil heot
  have hend : content.length < text.length + 1 - (offset + header.length) := by omega
  obtain ⟨others, hothers⟩ := flatMap_range'_eq
    (AssistantPattern.endsAt ⟨header, .literal eot⟩ text) (offset + header.length) hend
    (fun e he => endsAt_content heot honce htext he)
  have hends : ∃ more, AssistantPattern.endsAt ⟨header, .literal eot⟩ text
      (offset + header.length + content.length) =
        (offset + header.length + content.length + eot.length) :: more := by
    have hliteral :
        eot.isPrefixOf (text.drop (offset + header.length + content.length)) = true := by
      rw [drop_content htext _ (Nat.le_refl _), List.isPrefixOf_iff_prefix, List.drop_length,
        List.nil_append]
      exact List.prefix_append _ _
    rw [AssistantPattern.endsAt, TurnEnd.matchLength, if_pos hliteral]
    exact ⟨_, rfl⟩
  obtain ⟨more, hmore⟩ := hends
  unfold AssistantPattern.matchAt
  simp only [hpre, if_true]
  rw [hothers, hmore]
  rfl

end Match

section Scan

variable {t : ChatTemplate} {header eot text : Text} (hheader : t.assistantHeader = some header)
  (htoken : t.endOfTurnToken = some eot) (heot : eot ≠ [])

theorem matchAt_eq_none {s : Nat} {mustAdvance : Bool} {turnEnd : TurnEnd} (hs : s ≤ text.length)
    (h : ¬ OccursAt header text s) :
    AssistantPattern.matchAt ⟨header, turnEnd⟩ text s mustAdvance = none := by
  rw [← occursAt_iff hs] at h
  rw [AssistantPattern.matchAt, if_neg h]

theorem search_eq {turnEnd : TurnEnd} {pos offset stop : Nat} (hpos : pos ≤ offset)
    (hoffset : offset ≤ text.length) (hfree : ∀ s, pos ≤ s → s < offset → ¬ OccursAt header text s)
    (hmatch : AssistantPattern.matchAt ⟨header, turnEnd⟩ text offset false = some stop) :
    AssistantPattern.search ⟨header, turnEnd⟩ text pos false = some (offset, stop) := by
  obtain ⟨k, rfl⟩ := Nat.exists_eq_add_of_le hpos
  refine findSome?_range'_eq (show k < text.length + 1 - pos by omega) (fun i hi => ?_) ?_
  · rw [Bool.false_and, matchAt_eq_none (by omega) (hfree _ (Nat.le_add_right _ _) (by omega)),
      Option.map_none]
  · rw [Bool.false_and, hmatch, Option.map_some]

theorem search_eq_none {turnEnd : TurnEnd} {pos : Nat} {mustAdvance : Bool}
    (hfree : ∀ s, pos ≤ s → ¬ OccursAt header text s) :
    AssistantPattern.search ⟨header, turnEnd⟩ text pos mustAdvance = none := by
  unfold AssistantPattern.search
  rw [List.findSome?_eq_none_iff]
  intro s hs
  obtain ⟨i, hi, rfl⟩ := List.mem_range'.mp hs
  rw [Nat.one_mul, matchAt_eq_none (by omega) (hfree _ (Nat.le_add_right _ _)), Option.map_none]

include htoken heot in
theorem length_turns_le (offset : Nat) (messages : List Message) :
    (turns t offset messages).length ≤ (messages.flatMap (renderPart t)).length := by
  induction messages generalizing offset with
  | nil => exact Nat.le_refl _
  | cons msg rest ih =>
      have hpos := List.length_pos_of_ne_nil heot
      have hrest := ih (offset + (renderPart t msg).length)
      rw [List.flatMap_cons, List.length_append, turns]
      split
      · next hrole =>
          have hpart : 0 < (renderPart t msg).length := by
            simp only [renderPart, hrole, htoken, Option.getD_some, List.length_append]
            omega
          rw [List.length_cons]
          omega
      · omega

include hheader htoken heot in
theorem finditer_eq {messages : List Message} {offset pos rounds : Nat}
    (htext : text.drop offset = messages.flatMap (renderPart t)) (hpos : pos ≤ offset)
    (hoffset : offset ≤ text.length)
    (honce : ∀ msg ∈ messages, msg.role = .assistant → EndsOnce msg.content eot)
    (honly : ∀ s, pos ≤ s → OccursAt header text s →
      ∃ turn ∈ turns t offset messages, turn.start ≤ s ∧ s < turn.stop)
    (hrounds : (turns t offset messages).length < rounds) :
    AssistantPattern.finditer ⟨header, .literal eot⟩ text rounds pos false =
      (turns t offset messages).map fun turn => (turn.contentStart, turn.stop) := by
  induction messages generalizing offset pos rounds with
  | nil =>
      obtain ⟨r, rfl⟩ := Nat.exists_eq_add_of_lt hrounds
      rw [AssistantPattern.finditer, search_eq_none]
      · rfl
      · intro s hs hocc
        obtain ⟨turn, hturn, -⟩ := honly s hs hocc
        cases hturn
  | cons msg rest ih =>
      have hlength := congrArg List.length htext
      rw [List.flatMap_cons, List.length_append, List.length_drop] at hlength
      have hdrop :
          text.drop (offset + (renderPart t msg).length) = rest.flatMap (renderPart t) := by
        rw [← List.drop_drop, htext, List.flatMap_cons, List.drop_left]
      have honceRest : ∀ m ∈ rest, m.role = .assistant → EndsOnce m.content eot :=
        fun m hm => honce m (List.mem_cons_of_mem _ hm)
      by_cases hrole : msg.role = .assistant
      · have hturns : turns t offset (msg :: rest) =
            ⟨offset, offset + header.length, offset + (renderPart t msg).length⟩ ::
              turns t (offset + (renderPart t msg).length) rest := by
          simp only [turns, if_pos hrole, hheader, Option.getD_some]
        have hpart : renderPart t msg = header ++ (msg.content ++ eot) := by
          simp only [renderPart, hrole, hheader, htoken, Option.getD_some]
        have hstop : offset + header.length + msg.content.length + eot.length =
            offset + (renderPart t msg).length := by
          rw [hpart, List.length_append, List.length_append]
          omega
        have hmatch := matchAt_turn heot (honce msg List.mem_cons_self hrole)
          (htext.trans (by rw [List.flatMap_cons, hpart]))
        rw [hstop] at hmatch
        have hfree : ∀ s, pos ≤ s → s < offset → ¬ OccursAt header text s := by
          intro s hs hlt hocc
          obtain ⟨turn, hturn, hle, -⟩ := honly s hs hocc
          have hstart := le_start hturn
          omega
        have hne : (offset + (renderPart t msg).length == offset) = false := by
          have hpos := List.length_pos_of_ne_nil heot
          rw [beq_eq_false_iff_ne]
          omega
        rw [hturns, List.length_cons] at hrounds
        obtain ⟨r, rfl⟩ : ∃ r, rounds = r + 1 := ⟨rounds - 1, by omega⟩
        rw [AssistantPattern.finditer, search_eq hpos hoffset hfree hmatch, hturns, List.map_cons]
        simp only [hne]
        congr 1
        refine ih hdrop (Nat.le_refl _) (by omega) honceRest (fun s hs hocc => ?_) (by omega)
        obtain ⟨turn, hturn, hle, hlt⟩ := honly s (by omega) hocc
        rw [hturns] at hturn
        rcases List.mem_cons.mp hturn with rfl | hturn
        · exact absurd hlt (Nat.not_lt.mpr hs)
        · exact ⟨turn, hturn, hle, hlt⟩
      · have hturns : turns t offset (msg :: rest) =
            turns t (offset + (renderPart t msg).length) rest := by
          simp only [turns, if_neg hrole]
        rw [hturns] at honly hrounds ⊢
        exact ih hdrop (by omega) (by omega) honceRest honly hrounds

end Scan

end SpecDecode.Training.LossMask
