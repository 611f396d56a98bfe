import SpecDecode.Parser.Reasoning

/-!
# Streaming reasoning agrees with one-shot parsing

An increment that is not held back is let go for good, so a tag that is cut by its end is
never seen. `Ok` says of an increment that it decides nothing that the rest of the text
would decide differently; a stream of such increments produces the reasoning and the answer
of the whole text, up to blanks at their ends.
-/

namespace SpecDecode.Parser

namespace Detector

variable {d : Detector} {text cur z : List Char} {chunks : List (List Char)}

/-- Where the reasoning ends, and the text that follows it. -/
def ends (d : Detector) (text : List Char) : Option (List Char × List Char) :=
  match cut d.thinkEndToken text with
  | some p => some p
  | none => d.toolTag.bind fun tool => (cut tool text).map fun p => (p.1, tool ++ p.2)

/-- Reasoning and answer of a text that begins inside the reasoning. -/
def split (d : Detector) (text : List Char) : List Char × List Char :=
  (d.ends text).getD (text, [])

/-- The text without the start tag that is still to be stripped. -/
def pending (d : Detector) (text : List Char) : List Char :=
  if d.strippedThinkStart then text else removeFirst d.thinkStartText text

/-- A start tag would be stripped from the text. -/
def Starts (d : Detector) (text : List Char) : Prop :=
  d.strippedThinkStart = false ∧ d.thinkStartText <:+: text

/-- An increment of reasoning `cur` that is followed by `z`: it ends at the same tag as the
whole text, or no tag begins in it. -/
def ReasoningOk (d : Detector) (cur z : List Char) : Prop :=
  match cut d.thinkEndToken cur with
  | some _ => ¬ d.Starts (cur ++ z)
  | none =>
      match d.ends cur with
      | some _ => ¬ d.Starts (cur ++ z) ∧ ¬ d.thinkEndToken <:+: cur ++ z
      | none => d.streamReasoning = true →
          ¬ Straddles d.thinkEndToken cur (d.pending z) ∧
          (∀ tool, d.toolTag = some tool → ¬ Straddles tool cur (d.pending z)) ∧
          (d.strippedThinkStart = false → ¬ Straddles d.thinkStartText cur z)

def Quiet (d : Detector) (text : List Char) : Prop :=
  ¬ d.Starts text ∧ (d.inReasoning = true → d.ends text = none)

def Ok (d : Detector) (chunk z : List Char) : Prop :=
  let cur := d.buffer ++ chunk
  if d.holds cur then z = [] → d.Quiet cur
  else if !d.strippedThinkStart && (cut d.thinkStartText cur).isSome then
    let cur' := removeFirst d.thinkStartText cur
    ReasoningOk { d with strippedThinkStart := true } cur' z ∧
      (d.streamReasoning = false → (d.ends cur').isSome)
  else if d.inReasoning then d.ReasoningOk cur z
  else d.Starts (cur ++ z) → Blank isSpace cur ∧ ¬ Straddles d.thinkStartText cur z

/-- Every increment of a stream. -/
def Aligned (d : Detector) : List (List Char) → Prop
  | [] => True
  | chunk :: chunks =>
      d.Ok chunk chunks.flatten ∧ (d.parseStreamingIncrement chunk).2.Aligned chunks

def keep (d : Detector) (buffer : List Char) : Detector := { d with buffer }

/-- The detector that has stripped the start tag. -/
def start (d : Detector) : Detector := { d with strippedThinkStart := true, inReasoning := true }

theorem starts_iff : (!d.strippedThinkStart && (cut d.thinkStartText cur).isSome) = true ↔
    d.Starts cur := by
  unfold Starts
  rw [Bool.and_eq_true, Bool.not_eq_true', cut_isSome]

section Increment

variable {chunk : List Char}

theorem parse_held (h : d.holds (d.buffer ++ chunk)) :
    d.parseStreamingIncrement chunk = (⟨[], []⟩, d.keep (d.buffer ++ chunk)) :=
  if_pos h

theorem parse_starts (hheld : ¬ d.holds (d.buffer ++ chunk)) (h : d.Starts (d.buffer ++ chunk)) :
    d.parseStreamingIncrement chunk =
      continueReasoning (d.keep (d.buffer ++ chunk)).start
        (removeFirst d.thinkStartText (d.buffer ++ chunk)) :=
  (if_neg hheld).trans (if_pos (starts_iff.mpr h))

theorem parse_reasoning (hheld : ¬ d.holds (d.buffer ++ chunk))
    (h : ¬ d.Starts (d.buffer ++ chunk)) (hin : d.inReasoning = true) :
    d.parseStreamingIncrement chunk =
      continueReasoning (d.keep (d.buffer ++ chunk)) (d.buffer ++ chunk) :=
  (if_neg hheld).trans ((if_neg fun hs => h (starts_iff.mp hs)).trans (if_pos hin))

theorem parse_outside (hheld : ¬ d.holds (d.buffer ++ chunk))
    (h : ¬ d.Starts (d.buffer ++ chunk)) (hout : d.inReasoning = false) :
    d.parseStreamingIncrement chunk = (⟨d.buffer ++ chunk, []⟩, d.keep []) :=
  (if_neg hheld).trans ((if_neg fun hs => h (starts_iff.mp hs)).trans
    (if_neg (by rw [hout]; exact Bool.false_ne_true)))

theorem streamed_cons (d : Detector) (chunk : List Char) (chunks : List (List Char)) :
    d.streamed (chunk :: chunks) =
      ⟨(d.parseStreamingIncrement chunk).1.normalText ++
          ((d.parseStreamingIncrement chunk).2.streamed chunks).normalText,
        (d.parseStreamingIncrement chunk).1.reasoningText ++
          ((d.parseStreamingIncrement chunk).2.streamed chunks).reasoningText⟩ := by
  unfold streamed
  simp only [feed]
  split <;> simp [*]

end Increment

theorem not_starts_of_isInfix (h : ¬ d.Starts text) (hin : z <:+: text) : ¬ d.Starts z :=
  fun hs => h ⟨hs.1, hs.2.trans hin⟩

theorem streamed_outside (hout : d.inReasoning = false)
    (hstart : ¬ d.Starts (d.buffer ++ chunks.flatten)) :
    d.streamed chunks = ⟨d.buffer ++ chunks.flatten, []⟩ := by
  induction chunks generalizing d with
  | nil => simp [streamed, feed, hout]
  | cons chunk chunks ih =>
      rw [List.flatten_cons, ← List.append_assoc] at hstart ⊢
      rw [streamed_cons]
      by_cases hheld : d.holds (d.buffer ++ chunk)
      · rw [parse_held hheld, @ih (d.keep (d.buffer ++ chunk)) hout hstart]
        rfl
      · have hnot := not_starts_of_isInfix hstart (List.prefix_append (d.buffer ++ chunk) _).isInfix
        have hrest := not_starts_of_isInfix hstart
          (List.suffix_append (d.buffer ++ chunk) _).isInfix
        rw [parse_outside hheld hnot hout, @ih (d.keep []) hout hrest]
        rfl

theorem pending_eq_of_not (h : ¬ d.Starts text) : d.pending text = text := by
  unfold pending
  split
  · rfl
  · next hstripped =>
      have hnone : cut d.thinkStartText text = none :=
        cut_eq_none.mpr fun hin => h ⟨Bool.eq_false_iff.mpr hstripped, hin⟩
      unfold removeFirst
      rw [hnone]

theorem pending_append (hcur : ¬ d.Starts cur)
    (hcross : d.strippedThinkStart = false → ¬ Straddles d.thinkStartText cur z) :
    d.pending (cur ++ z) = cur ++ d.pending z := by
  unfold pending
  split
  · rfl
  · next hstripped =>
      have hfalse := Bool.eq_false_iff.mpr hstripped
      have hcut := cut_append_left (fun hin => hcur ⟨hfalse, hin⟩) (hcross hfalse)
      unfold removeFirst
      rw [hcut]
      cases cut d.thinkStartText z with
      | none => rfl
      | some p => exact List.append_assoc ..

theorem pending_of_cut {x y : List Char} (hstripped : d.strippedThinkStart = false)
    (hcut : cut d.thinkStartText cur = some (x, y)) :
    d.pending (cur ++ z) = removeFirst d.thinkStartText cur ++ z := by
  unfold pending
  rw [if_neg (by rw [hstripped]; exact Bool.false_ne_true)]
  unfold removeFirst
  rw [hcut, cut_append_right hcut]
  exact (List.append_assoc ..).symm

theorem ends_none (h : d.ends text = none) : ¬ d.thinkEndToken <:+: text ∧
    ∀ tool, d.toolTag = some tool → ¬ tool <:+: text := by
  unfold ends at h
  split at h
  · cases h
  · next hnone =>
      refine ⟨cut_eq_none.mp hnone, fun tool htool => ?_⟩
      rw [htool, Option.bind_some, Option.map_eq_none_iff] at h
      exact cut_eq_none.mp h

/-- The reasoning goes on behind `cur` if no tag begins in it. -/
theorem split_append (hcur : d.ends cur = none) (hend : ¬ Straddles d.thinkEndToken cur z)
    (htool : ∀ tool, d.toolTag = some tool → ¬ Straddles tool cur z) :
    d.split (cur ++ z) = (cur ++ (d.split z).1, (d.split z).2) := by
  obtain ⟨hnoEnd, hnoTool⟩ := ends_none hcur
  have hends : d.ends (cur ++ z) = (d.ends z).map fun p => (cur ++ p.1, p.2) := by
    unfold ends
    rw [cut_append_left hnoEnd hend]
    cases cut d.thinkEndToken z with
    | some p => rfl
    | none =>
        cases htag : d.toolTag with
        | none => rfl
        | some tool =>
            simp only [Option.map_none, Option.bind_some]
            rw [cut_append_left (hnoTool tool htag) (htool tool htag), Option.map_map,
              Option.map_map]
            rfl
  unfold split
  rw [hends]
  cases d.ends z <;> rfl

variable {p : List Char × List Char}

theorem ends_cases (h : d.ends cur = some p) :
    cut d.thinkEndToken cur = some p ∨ cut d.thinkEndToken cur = none ∧
      ∃ tool q, d.toolTag = some tool ∧ cut tool cur = some q ∧ p = (q.1, tool ++ q.2) := by
  unfold ends at h
  split at h
  · next q hcut => exact .inl (hcut.trans h)
  · next hnone =>
      obtain ⟨tool, htool, hmap⟩ := Option.bind_eq_some_iff.mp h
      obtain ⟨q, hcut, heq⟩ := Option.map_eq_some_iff.mp hmap
      exact .inr ⟨hnone, tool, q, htool, hcut, heq.symm⟩

theorem split_of_ends (h : d.ends cur = some p)
    (hok : d.ReasoningOk cur z) : d.split (cur ++ z) = (p.1, p.2 ++ z) ∧ ¬ d.Starts (cur ++ z) := by
  unfold ReasoningOk at hok
  rcases ends_cases h with hcut | ⟨hnone, tool, q, htool, hcut, rfl⟩
  · rw [hcut] at hok
    refine ⟨?_, hok⟩
    unfold split ends
    rw [cut_append_right hcut]
    rfl
  · rw [hnone, h] at hok
    refine ⟨?_, hok.1⟩
    unfold split ends
    rw [cut_eq_none.mpr hok.2, htool]
    simp [cut_append_right hcut]

theorem continueReasoning_ended (h : d.ends cur = some p) :
    ∃ u, Blank isSpace u ∧ p.1 = (d.continueReasoning cur).1.reasoningText ++ u ∧
      (d.continueReasoning cur).1.normalText = p.2 ∧
      (d.continueReasoning cur).2 = { d with buffer := [], inReasoning := false } := by
  unfold continueReasoning
  rcases ends_cases h with hcut | ⟨hnone, tool, q, htool, hcut, rfl⟩
  · rw [hcut]
    obtain ⟨u, hu, heq⟩ := exists_rstrip isSpace p.1
    exact ⟨u, hu, heq, rfl, rfl⟩
  · simp only [hnone, htool, Option.bind_some, hcut, Option.map_some]
    exact ⟨[], nofun, (List.append_nil _).symm, trivial, trivial⟩

theorem continueReasoning_open (h : d.ends cur = none) :
    d.continueReasoning cur =
    if d.streamReasoning then (⟨[], cur⟩, d.keep []) else (⟨[], []⟩, d) := by
  unfold ends at h
  unfold continueReasoning
  split at h
  · cases h
  · next hnone =>
      rw [hnone, h]
      rfl

/-- A stream produces this reasoning and this answer, up to blanks behind the reasoning. -/
def Produces (s : StreamingParseResult) (p : List Char × List Char) : Prop :=
  ∃ u, Blank isSpace u ∧ p.1 = s.reasoningText ++ u ∧ s.normalText = p.2

theorem produces_ended (h : d.ends cur = some p) (hok : d.ReasoningOk cur chunks.flatten) :
    Produces ⟨(d.continueReasoning cur).1.normalText ++
          ((d.continueReasoning cur).2.streamed chunks).normalText,
        (d.continueReasoning cur).1.reasoningText ++
          ((d.continueReasoning cur).2.streamed chunks).reasoningText⟩
      (d.split (cur ++ chunks.flatten)) := by
  obtain ⟨u, hu, hreasoning, hnormal, hnext⟩ := continueReasoning_ended h
  obtain ⟨hsplit, hstarts⟩ := split_of_ends h hok
  have hrest := @streamed_outside { d with buffer := [], inReasoning := false } chunks rfl
    (not_starts_of_isInfix hstarts (List.suffix_append cur _).isInfix)
  rw [hnext, hrest, hsplit, hnormal]
  exact ⟨u, hu, by rw [List.append_nil]; exact hreasoning, rfl⟩

theorem ReasoningOk.no_cross (hok : d.ReasoningOk cur z) (h : d.ends cur = none)
    (hstream : d.streamReasoning = true) : ¬ Straddles d.thinkEndToken cur (d.pending z) ∧
      (∀ tool, d.toolTag = some tool → ¬ Straddles tool cur (d.pending z)) ∧
      (d.strippedThinkStart = false → ¬ Straddles d.thinkStartText cur z) := by
  unfold ReasoningOk at hok
  rw [cut_eq_none.mpr (ends_none h).1, h] at hok
  exact hok hstream

/-- An increment that lets its reasoning go, and the stream behind it. -/
theorem produces_open (h : d.ends cur = none) (hstream : d.streamReasoning = true)
    (hok : d.ReasoningOk cur chunks.flatten)
    (hrest : Produces ((d.keep []).streamed chunks) (d.split (d.pending chunks.flatten))) :
    Produces ⟨(d.continueReasoning cur).1.normalText ++
          ((d.continueReasoning cur).2.streamed chunks).normalText,
        (d.continueReasoning cur).1.reasoningText ++
          ((d.continueReasoning cur).2.streamed chunks).reasoningText⟩
      (d.split (cur ++ d.pending chunks.flatten)) := by
  obtain ⟨hend, htool, -⟩ := hok.no_cross h hstream
  obtain ⟨u, hu, hreasoning, hnormal⟩ := hrest
  rw [continueReasoning_open h, if_pos hstream, split_append h hend htool]
  refine ⟨u, hu, ?_, hnormal⟩
  rw [hreasoning]
  exact (List.append_assoc ..).symm

def Tagged (d : Detector) : Prop := d.thinkStartText ≠ [] ∧ d.thinkEndToken ≠ []

theorem Tagged.quiet_nil (h : d.Tagged) : d.Quiet [] := by
  refine ⟨fun hs => h.1 (List.infix_nil.mp hs.2), fun _ => ?_⟩
  unfold ends
  rw [cut_eq_none.mpr fun hin => h.2 (List.infix_nil.mp hin)]
  cases htool : d.toolTag with
  | none => rfl
  | some tool =>
      have hne : tool ≠ [] := by
        unfold toolTag at htool
        exact of_decide_eq_true (Option.filter_eq_some_iff.mp htool).2
      simp only [Option.bind_some, Option.map_eq_none_iff]
      exact cut_eq_none.mpr fun hin => hne (List.infix_nil.mp hin)

theorem produces_starts {chunk : List Char} (hheld : ¬ d.holds (d.buffer ++ chunk))
    (hs : d.Starts (d.buffer ++ chunk)) (hok : d.Ok chunk chunks.flatten)
    (haligned : (d.parseStreamingIncrement chunk).2.Aligned chunks)
    (ih : (d.start.keep []).Aligned chunks →
      Produces ((d.start.keep []).streamed chunks) (d.split chunks.flatten)) :
    Produces (d.streamed (chunk :: chunks))
      (d.split (d.pending (d.buffer ++ chunk ++ chunks.flatten))) := by
  obtain ⟨⟨x, y⟩, hcut⟩ := Option.isSome_iff_exists.mp (cut_isSome.mpr hs.2)
  unfold Ok at hok
  dsimp only at hok
  rw [if_neg hheld, if_pos (starts_iff.mpr hs)] at hok
  obtain ⟨hok, hbuffered⟩ := hok
  rw [streamed_cons, pending_of_cut hs.1 hcut]
  have hparse := parse_starts hheld hs
  cases hends : d.ends (removeFirst d.thinkStartText (d.buffer ++ chunk)) with
  | some p =>
      rw [hparse]
      exact produces_ended (d := (d.keep (d.buffer ++ chunk)).start) hends hok
  | none =>
      have hstream : d.streamReasoning = true := by
        by_contra hfalse
        have hsome := hbuffered (Bool.eq_false_iff.mpr hfalse)
        rw [hends] at hsome
        cases hsome
      have hnext := continueReasoning_open (d := (d.keep (d.buffer ++ chunk)).start) hends
      rw [if_pos (show (d.keep (d.buffer ++ chunk)).start.streamReasoning = true from hstream)]
        at hnext
      rw [hparse, hnext] at haligned
      have hrest := ih haligned
      rw [hparse]
      exact produces_open (d := (d.keep (d.buffer ++ chunk)).start) hends hstream hok hrest

theorem streamed_reasoning (htagged : d.Tagged) (hin : d.inReasoning = true)
    (hquiet : chunks.flatten = [] → d.Quiet d.buffer) (h : d.Aligned chunks) :
    Produces (d.streamed chunks) (d.split (d.pending (d.buffer ++ chunks.flatten))) := by
  induction chunks generalizing d with
  | nil =>
      obtain ⟨hstarts, hends⟩ := hquiet rfl
      have hopen := hends hin
      rw [List.flatten_nil, List.append_nil, pending_eq_of_not hstarts]
      unfold split streamed
      rw [hopen]
      simp only [feed, hin, if_true]
      exact ⟨[], nofun, (List.append_nil _).symm, rfl⟩
  | cons chunk chunks ih =>
      obtain ⟨hok, haligned⟩ := h
      rw [List.flatten_cons, ← List.append_assoc]
      by_cases hheld : d.holds (d.buffer ++ chunk)
      · unfold Ok at hok
        dsimp only at hok
        rw [if_pos hheld] at hok
        rw [parse_held hheld] at haligned
        rw [streamed_cons, parse_held hheld]
        exact ih (d := d.keep (d.buffer ++ chunk)) htagged hin hok haligned
      · by_cases hs : d.Starts (d.buffer ++ chunk)
        · refine produces_starts hheld hs hok haligned fun hrest => ?_
          exact ih (d := d.start.keep []) htagged rfl
            (fun _ => Tagged.quiet_nil (d := d.start.keep []) htagged) hrest
        · unfold Ok at hok
          dsimp only at hok
          rw [if_neg hheld, if_neg fun hb => hs (starts_iff.mp hb), if_pos hin] at hok
          have hparse := parse_reasoning hheld hs hin
          rw [hparse] at haligned
          rw [streamed_cons, hparse]
          cases hends : d.ends (d.buffer ++ chunk) with
          | some p =>
              rw [pending_eq_of_not (split_of_ends hends hok).2]
              exact produces_ended (d := d.keep (d.buffer ++ chunk)) hends hok
          | none =>
              have hnext := continueReasoning_open (d := d.keep (d.buffer ++ chunk)) hends
              by_cases hstream : d.streamReasoning = true
              · have hcross := (hok.no_cross hends hstream).2.2
                rw [if_pos (show (d.keep (d.buffer ++ chunk)).streamReasoning = true from hstream)]
                  at hnext
                rw [hnext] at haligned
                rw [pending_append hs hcross]
                refine produces_open (d := d.keep (d.buffer ++ chunk)) hends hstream hok ?_
                exact ih (d := d.keep []) htagged hin
                  (fun _ => Tagged.quiet_nil (d := d.keep []) htagged) haligned
              · rw [if_neg (show ¬ (d.keep (d.buffer ++ chunk)).streamReasoning =
                  true from hstream)]
                  at hnext
                rw [hnext] at haligned
                rw [hnext]
                exact ih (d := d.keep (d.buffer ++ chunk)) htagged hin
                  (fun _ => ⟨hs, fun _ => hends⟩) haligned

structure TightTags (d : Detector) : Prop where
  start : d.thinkStartText ≠ []
  finish : Tight isSpace d.thinkEndToken
  tool {tool : List Char} : d.toolTag = some tool → Tight isSpace tool

theorem TightTags.keep (h : d.TightTags) (buffer : List Char) : (d.keep buffer).TightTags :=
  ⟨h.start, h.finish, h.tool⟩

theorem TightTags.ends_blank (h : d.TightTags) (hcur : Blank isSpace cur) : d.ends cur = none := by
  unfold ends
  rw [cut_eq_none.mpr (h.finish.not_infix_blank hcur)]
  cases htool : d.toolTag with
  | none => rfl
  | some tool =>
      simp only [Option.bind_some, Option.map_eq_none_iff]
      exact cut_eq_none.mpr ((h.tool htool).not_infix_blank hcur)

/-- Blanks in front of the start tag go to the answer instead of the reasoning. -/
theorem streamed_before (htags : d.TightTags) (hout : d.inReasoning = false)
    (hstarts : d.Starts (d.buffer ++ chunks.flatten))
    (hquiet : chunks.flatten = [] → d.Quiet d.buffer) (h : d.Aligned chunks) :
    ∃ w u, Blank isSpace w ∧ Blank isSpace u ∧
      (d.split (d.pending (d.buffer ++ chunks.flatten))).1 =
        w ++ (d.streamed chunks).reasoningText ++ u ∧
      (d.streamed chunks).normalText =
        w ++ (d.split (d.pending (d.buffer ++ chunks.flatten))).2 := by
  induction chunks generalizing d with
  | nil =>
      rw [List.flatten_nil, List.append_nil] at hstarts
      exact absurd hstarts (hquiet rfl).1
  | cons chunk chunks ih =>
      obtain ⟨hok, haligned⟩ := h
      rw [List.flatten_cons, ← List.append_assoc] at hstarts ⊢
      by_cases hheld : d.holds (d.buffer ++ chunk)
      · unfold Ok at hok
        dsimp only at hok
        rw [if_pos hheld] at hok
        rw [parse_held hheld] at haligned
        rw [streamed_cons, parse_held hheld]
        exact ih (d := d.keep (d.buffer ++ chunk)) (htags.keep _) hout hstarts hok haligned
      · by_cases hs : d.Starts (d.buffer ++ chunk)
        · have htagged : d.Tagged := ⟨htags.start, htags.finish.ne_nil⟩
          obtain ⟨u, hu, hreasoning, hnormal⟩ :=
            produces_starts hheld hs hok haligned fun hrest =>
              streamed_reasoning (d := d.start.keep []) htagged rfl
                (fun _ => Tagged.quiet_nil (d := d.start.keep []) htagged) hrest
          exact ⟨[], u, nofun, hu, hreasoning, hnormal⟩
        · unfold Ok at hok
          dsimp only at hok
          rw [if_neg hheld, if_neg fun hb => hs (starts_iff.mp hb),
            if_neg (by rw [hout]; exact Bool.false_ne_true)] at hok
          obtain ⟨hblank, hcross⟩ := hok hstarts
          have hparse := parse_outside hheld hs hout
          rw [hparse] at haligned
          have hrest : d.Starts chunks.flatten := by
            refine ⟨hstarts.1, ?_⟩
            by_contra hnot
            exact not_infix_append (fun hin => hs ⟨hstarts.1, hin⟩) hnot hcross hstarts.2
          obtain ⟨w, u, hw, hu, hreasoning, hnormal⟩ :=
            ih (d := d.keep []) (htags.keep _) hout hrest
              (fun _ => Tagged.quiet_nil (d := d.keep []) ⟨htags.start, htags.finish.ne_nil⟩)
                haligned
          have hsplit : d.split (d.pending (d.buffer ++ chunk ++ chunks.flatten)) =
              (d.buffer ++ chunk ++ (d.split (d.pending chunks.flatten)).1,
                (d.split (d.pending chunks.flatten)).2) := by
            rw [pending_append hs fun _ => hcross]
            exact split_append (htags.ends_blank hblank)
              (htags.finish.not_straddles_blank hblank)
              fun tool htool => (htags.tool htool).not_straddles_blank hblank
          rw [streamed_cons, hparse, hsplit]
          refine ⟨d.buffer ++ chunk ++ w, u, ?_, hu, ?_, ?_⟩
          · intro c hc
            rcases List.mem_append.mp hc with hc | hc
            · exact hblank c hc
            · exact hw c hc
          · have heq : (d.split (d.pending chunks.flatten)).1 =
                w ++ ((d.keep []).streamed chunks).reasoningText ++ u := hreasoning
            dsimp only
            rw [heq]
            simp
          · have heq : ((d.keep []).streamed chunks).normalText =
                w ++ (d.split (d.pending chunks.flatten)).2 := hnormal
            dsimp only
            rw [heq]
            simp

theorem removeAll_of_not (h : ¬ d.thinkStartText <:+: text) :
    removeAll d.thinkStartText text = text := by
  unfold removeAll
  cases text with
  | nil => rfl
  | cons c text =>
      rw [List.length_cons, removeAllAux, cut_eq_none.mpr h]

def StartsOnce (d : Detector) (text : List Char) : Prop :=
  ∀ x y, cut d.thinkStartText text = some (x, y) → ¬ d.thinkStartText <:+: y

theorem StartsOnce.removeAll_eq (h : d.StartsOnce text) (hne : d.thinkStartText ≠ []) :
    removeAll d.thinkStartText text = removeFirst d.thinkStartText text := by
  by_cases hin : d.thinkStartText <:+: text
  · obtain ⟨⟨x, y⟩, hcut⟩ := Option.isSome_iff_exists.mp (cut_isSome.mpr hin)
    have hnone := cut_eq_none.mpr (h x y hcut)
    obtain ⟨n, hn⟩ : ∃ n, text.length = n + 1 := by
      refine Nat.exists_eq_succ_of_ne_zero fun hzero => hne ?_
      rw [List.length_eq_zero_iff.mp hzero] at hin
      exact List.infix_nil.mp hin
    unfold removeAll removeFirst
    rw [hn, removeAllAux, hcut]
    dsimp only
    cases n with
    | zero => rfl
    | succ n => rw [removeAllAux, hnone]
  · rw [removeAll_of_not hin]
    unfold removeFirst
    rw [cut_eq_none.mpr hin]

/-- The texts of two results, up to blanks at their ends. -/
def Same (s : StreamingParseResult) (p : List Char × List Char) : Prop :=
  strip isSpace s.reasoningText = strip isSpace p.1 ∧ strip isSpace s.normalText = strip isSpace p.2

private theorem split_of_end (h : cut d.thinkEndToken text = some p) : d.split text = p := by
  unfold split ends
  rw [h]
  rfl

/-- One-shot parsing from inside the reasoning is the split of the text. -/
theorem detectAndParse_same (htags : d.TightTags) (hprevious : d.previousContent = [])
    (hstripped : d.strippedThinkStart = false) (htool : d.toolTag = d.toolStartToken)
    (honce : d.StartsOnce text)
    (hin : (d.inReasoning || (cut d.thinkStartToken text).isSome) = true) :
    ∃ r, d.detectAndParse text = some r ∧ Same r (d.split (d.pending text)) := by
  have hpending : removeAll d.thinkStartText text = d.pending text := by
    rw [honce.removeAll_eq htags.start]
    unfold pending
    rw [if_neg (by rw [hstripped]; exact Bool.false_ne_true)]
  have hprev : ¬ (cut d.thinkEndToken d.previousContent).isSome := by
    rw [hprevious, cut_isSome, List.infix_nil]
    exact htags.finish.ne_nil
  unfold detectAndParse
  rw [hin, hpending, if_neg (show ¬ (!true) = true from Bool.false_ne_true)]
  generalize d.pending text = text
  dsimp only
  cases hend : cut d.thinkEndToken text with
  | some p =>
      rw [htags.finish.cut_strip hend, split_of_end hend]
      dsimp only
      rw [if_neg htags.finish.ne_nil]
      exact ⟨_, rfl, strip_lstrip p.1, by dsimp only; rw [strip_strip, strip_rstrip]⟩
  | none =>
      rw [cut_strip_none hend]
      dsimp only
      rw [if_neg hprev]
      unfold split ends
      rw [hend, htool]
      cases htag : d.toolStartToken with
      | none => exact ⟨_, rfl, strip_strip text, rfl⟩
      | some tool =>
          have htight : Tight isSpace tool := htags.tool (by rw [htool, htag])
          dsimp only [Option.bind_some]
          cases hcut : cut tool text with
          | none =>
              rw [cut_strip_none hcut]
              exact ⟨_, rfl, strip_strip text, rfl⟩
          | some p =>
              rw [htight.cut_strip hcut]
              refine ⟨_, rfl, ?_, ?_⟩
              · dsimp only [Option.map_some, Option.getD_some]
                rw [strip_strip, strip_lstrip]
              · obtain ⟨u, hu, heq⟩ := exists_rstrip isSpace p.2
                have hpad := strip_pad (t := tool ++ rstrip isSpace p.2) (w := []) nofun hu
                rw [List.nil_append, List.append_assoc, ← heq] at hpad
                exact hpad.symm

end Detector

open Detector

/-- What a detector is expected to produce from a stream: the reasoning and the answer of
one-shot parsing, whether the text comes in chunks or at once, and nothing of the text is
lost. -/
structure Faithful (cfg : Config) (chunks : List (List Char)) : Prop where
  oneShot : ∃ r, (new cfg []).detectAndParse chunks.flatten = some r ∧
    Same ((new cfg []).streamed chunks) (r.reasoningText, r.normalText) ∧
    Same ((new cfg []).streamed [chunks.flatten]) (r.reasoningText, r.normalText)
  complete : ∃ a b, Same ((new cfg []).streamed chunks) (a, b) ∧
    (removeFirst cfg.thinkStartToken chunks.flatten = a ++ b ∨
      removeFirst cfg.thinkStartToken chunks.flatten = a ++ cfg.thinkEndToken ++ b)

/-- The increments of a stream, and the text at once, decide nothing too early. This is enough and
coarser than needed: it also rules out a tool tag that is cut in front of an end tag. -/
structure Clean (cfg : Config) (chunks : List (List Char)) : Prop where
  start : cfg.thinkStartToken ≠ []
  finish : Tight isSpace cfg.thinkEndToken
  tool {tool : List Char} : cfg.toolStartToken = some tool → Tight isSpace tool
  once : (new cfg []).StartsOnce chunks.flatten
  aligned : (new cfg []).Aligned chunks
  whole : (new cfg []).Aligned [chunks.flatten]

variable {cfg : Config} {chunks : List (List Char)}

def expected (cfg : Config) (text : List Char) : List Char × List Char :=
  if (new cfg []).inReasoning || (cut cfg.thinkStartToken text).isSome then
    (new cfg []).split ((new cfg []).pending text)
  else ([], text)

@[simp]
theorem new_thinkStartText (cfg : Config) : (new cfg []).thinkStartText = cfg.thinkStartToken :=
  List.append_nil _

theorem Clean.tightTags (h : Clean cfg chunks) : (new cfg []).TightTags where
  start := by
    rw [new_thinkStartText]
    exact h.start
  finish := h.finish
  tool htool := h.tool (Option.filter_eq_some_iff.mp htool).1

theorem Clean.toolTag (h : Clean cfg chunks) : (new cfg []).toolTag = cfg.toolStartToken := by
  unfold Detector.toolTag
  show cfg.toolStartToken.filter _ = cfg.toolStartToken
  cases htool : cfg.toolStartToken with
  | none => rfl
  | some tool => simp [(h.tool htool).ne_nil]

theorem streamed_expected (htags : (new cfg []).TightTags) (h : (new cfg []).Aligned chunks) :
    Same ((new cfg []).streamed chunks) (expected cfg chunks.flatten) := by
  have htagged : (new cfg []).Tagged := ⟨htags.start, htags.finish.ne_nil⟩
  have hquiet : chunks.flatten = [] → (new cfg []).Quiet [] := fun _ => htagged.quiet_nil
  unfold expected
  rw [← new_thinkStartText]
  by_cases hin : (new cfg []).inReasoning = true
  · obtain ⟨u, hu, hreasoning, hnormal⟩ := streamed_reasoning htagged hin hquiet h
    rw [hin, Bool.true_or, if_pos rfl]
    have hpad := strip_pad (t := ((new cfg []).streamed chunks).reasoningText) (w := []) nofun hu
    rw [List.nil_append, ← hreasoning] at hpad
    exact ⟨hpad.symm, by rw [hnormal]; rfl⟩
  · rw [Bool.eq_false_iff.mpr hin, Bool.false_or]
    by_cases hs : (cut (new cfg []).thinkStartText chunks.flatten).isSome
    · have hstarts : (new cfg []).Starts chunks.flatten := ⟨rfl, cut_isSome.mp hs⟩
      obtain ⟨w, u, hw, hu, hreasoning, hnormal⟩ :=
        streamed_before htags (Bool.eq_false_iff.mpr hin) hstarts hquiet h
      rw [if_pos hs]
      refine ⟨?_, ?_⟩
      · have hpad := strip_pad (t := ((new cfg []).streamed chunks).reasoningText) hw hu
        rw [← hreasoning] at hpad
        exact hpad.symm
      · have hpad := strip_pad (u := []) (t := ((new cfg []).split
          ((new cfg []).pending ((new cfg []).buffer ++ chunks.flatten))).2) hw nofun
        rw [List.append_nil, ← hnormal] at hpad
        exact hpad
    · have hstarts : ¬ (new cfg []).Starts chunks.flatten := fun h => hs (cut_isSome.mpr h.2)
      rw [if_neg hs, streamed_outside (Bool.eq_false_iff.mpr hin) hstarts]
      exact ⟨rfl, rfl⟩

theorem detectAndParse_expected (h : Clean cfg chunks) :
    ∃ r, (new cfg []).detectAndParse chunks.flatten = some r ∧
      Same r (expected cfg chunks.flatten) := by
  unfold expected
  by_cases hin : ((new cfg []).inReasoning || (cut cfg.thinkStartToken chunks.flatten).isSome) =
    true
  · rw [if_pos hin]
    exact detectAndParse_same h.tightTags rfl rfl h.toolTag h.once hin
  · rw [if_neg hin]
    refine ⟨⟨chunks.flatten, []⟩, ?_, rfl, rfl⟩
    refine if_pos ?_
    show (!((new cfg []).inReasoning || (cut cfg.thinkStartToken chunks.flatten).isSome)) = true
    rw [Bool.eq_false_iff.mpr hin]
    rfl

theorem expected_complete (cfg : Config) (text : List Char) :
    removeFirst cfg.thinkStartToken text = (expected cfg text).1 ++ (expected cfg text).2 ∨
      removeFirst cfg.thinkStartToken text =
        (expected cfg text).1 ++ cfg.thinkEndToken ++ (expected cfg text).2 := by
  unfold expected
  by_cases hin : ((new cfg []).inReasoning || (cut cfg.thinkStartToken text).isSome) = true
  · rw [if_pos hin]
    have hpending : (new cfg []).pending text = removeFirst cfg.thinkStartToken text := by
      unfold pending
      rw [new_thinkStartText]
      rfl
    rw [hpending]
    generalize removeFirst cfg.thinkStartToken text = text
    unfold split
    cases hends : (new cfg []).ends text with
    | none => exact .inl (List.append_nil _).symm
    | some p =>
        rcases ends_cases hends with hcut | ⟨-, tool, q, -, hcut, rfl⟩
        · exact .inr (cut_eq_append hcut)
        · refine .inl ?_
          rw [cut_eq_append hcut]
          exact List.append_assoc ..
  · rw [if_neg hin]
    refine .inl ?_
    have hnone : cut cfg.thinkStartToken text = none := by
      cases hcut : cut cfg.thinkStartToken text with
      | none => rfl
      | some p => simp [hcut] at hin
    unfold removeFirst
    rw [hnone]
    rfl

/-- A stream of increments that decide nothing too early produces what one-shot parsing
returns. -/
theorem faithful_of_clean (h : Clean cfg chunks) : Faithful cfg chunks := by
  have hchunks := streamed_expected h.tightTags h.aligned
  have hwhole := streamed_expected h.tightTags h.whole
  rw [List.flatten_singleton] at hwhole
  refine ⟨?_, _, _, hchunks, expected_complete cfg chunks.flatten⟩
  obtain ⟨r, hr, hsame⟩ := detectAndParse_expected h
  exact ⟨r, hr, ⟨hchunks.1.trans hsame.1.symm, hchunks.2.trans hsame.2.symm⟩,
    hwhole.1.trans hsame.1.symm, hwhole.2.trans hsame.2.symm⟩

/-- Tags of most detectors, with the reasoning forced. -/
def thinkConfig : Config where
  thinkStartToken := "<think>".toList
  thinkEndToken := "</think>".toList
  toolStartToken := none
  forceReasoning := true
  streamReasoning := true

theorem faithful_threeChunks :
    Faithful thinkConfig ["<thi".toList, "nk>ab".toList, "</think>c".toList] := by
  refine faithful_of_clean ⟨by decide, ⟨by decide, ?_, ?_⟩, nofun, ?_, ⟨?_, ?_, ?_, trivial⟩, ?_,
    trivial⟩
  · intro c hc
    cases hc
    rfl
  · intro c hc
    cases hc
    rfl
  · intro x y hcut
    have hfirst : cut "<think>".toList "<think>ab</think>c".toList =
        some ([], "ab</think>c".toList) := by decide
    cases hcut.symm.trans hfirst
    decide
  · exact nofun
  · exact ⟨fun _ => ⟨by decide, nofun, nofun⟩, nofun⟩
  · exact fun hs => absurd hs.1 (by decide)
  · exact ⟨fun hs => absurd hs.1 (by decide), nofun⟩

/-- An end tag that is cut by the end of an increment is emitted as reasoning. -/
theorem end_tag_emitted : ¬ ∀ cfg chunks, Faithful cfg chunks := by
  intro h
  obtain ⟨r, hr, hsame, -⟩ := (h thinkConfig ["a</th".toList, "ink>b".toList]).oneShot
  have hresult : (new thinkConfig []).detectAndParse
      ["a</th".toList, "ink>b".toList].flatten = some ⟨"b".toList, "a".toList⟩ := by decide
  rw [hresult] at hr
  cases hr
  exact absurd hsame.1 (by decide)

end SpecDecode.Parser
