import SpecDecode.Training.LossMaskScan

/-!
# The loss mask covers the assistant's turns

A slice of the text has its tokens where encoding a prefix splits the encoding of the whole. The
mask is painted with `1` on the tokens of the matched turns and then with `0` on those of the
ignored words, and every pass leaves what it does not cover as it was.
-/

namespace SpecDecode.Training.LossMask

variable {τ : Type} (tok : Tokenizer τ) (text : Text)

/-- Token `i` lies in the slice from `a` to `b`: the encodings of the text up to the two borders
split the encoding of the whole around it. -/
def TokenIn (a b i : Nat) : Prop :=
  ∃ before inside behind, tok.encode text = before ++ inside ++ behind ∧
    tok.encode (text.take a) = before ∧ tok.encode (text.take b) = before ++ inside ∧
    before.length ≤ i ∧ i < before.length + inside.length

variable {tok text}

theorem tokenIn_iff {a b i : Nat} (ha : tok.encode (text.take a) <+: tok.encode text)
    (hb : tok.encode (text.take b) <+: tok.encode text) : TokenIn tok text a b i ↔
      (tok.encode (text.take a)).length ≤ i ∧ i < (tok.encode (text.take b)).length := by
  constructor
  · rintro ⟨before, inside, behind, -, rfl, hstop, hle, hlt⟩
    rw [hstop, List.length_append]
    exact ⟨hle, hlt⟩
  · rintro ⟨hle, hlt⟩
    obtain ⟨inside, hinside⟩ := List.prefix_of_prefix_length_le ha hb (by omega)
    obtain ⟨behind, hbehind⟩ := hb
    refine ⟨_, inside, behind, ?_, rfl, hinside.symm, hle, ?_⟩
    · rw [hinside, hbehind]
    · rwa [← List.length_append, hinside]

structure Painted (value : Nat) (p : Nat → Prop) (mask mask' : List Nat) : Prop where
  length_eq : mask'.length = mask.length
  inside : ∀ i, i < mask.length → p i → mask'[i]? = some value
  outside : ∀ i, i < mask.length → ¬ p i → mask'[i]? = mask[i]?

theorem Painted.refl {value : Nat} {p : Nat → Prop} (mask : List Nat) (hp : ∀ i, ¬ p i) :
    Painted value p mask mask :=
  ⟨rfl, fun i _ hi => absurd hi (hp i), fun _ _ _ => rfl⟩

theorem Painted.congr {value : Nat} {p q : Nat → Prop} {mask mask' : List Nat}
    (h : Painted value p mask mask') (hpq : ∀ i, p i ↔ q i) : Painted value q mask mask' := by
  obtain rfl : p = q := funext fun i => propext (hpq i)
  exact h

theorem Painted.trans {value : Nat} {p q : Nat → Prop} {mask mask' mask'' : List Nat}
    (h : Painted value p mask mask') (h' : Painted value q mask' mask'') :
    Painted value (fun i => p i ∨ q i) mask mask'' where
  length_eq := h'.length_eq.trans h.length_eq
  inside := by
    intro i hi hor
    by_cases hq : q i
    · exact h'.inside i (h.length_eq ▸ hi) hq
    · rw [h'.outside i (h.length_eq ▸ hi) hq]
      exact h.inside i hi (hor.resolve_right hq)
  outside := by
    intro i hi hor
    rw [not_or] at hor
    rw [h'.outside i (h.length_eq ▸ hi) hor.2, h.outside i hi hor.1]

theorem getElem?_setSlice (mask : List Nat) (start stop value i : Nat) :
    (setSlice mask start stop value)[i]? =
      mask[i]?.map fun x => if start ≤ i ∧ i < stop then value else x := by
  rw [setSlice, List.getElem?_map, List.getElem?_zipIdx, Option.map_map]
  simp only [Function.comp_def, Nat.zero_add]

/-- The tokens between two borders, by the lengths of the encodings. -/
def Between (tok : Tokenizer τ) (text : Text) (span : Nat × Nat) (i : Nat) : Prop :=
  (tok.encode (text.take span.1)).length ≤ i ∧ i < (tok.encode (text.take span.2)).length

section Passes

variable (tok text) {maxLength : Nat}

theorem maskSpan_painted (value : Nat) {mask : List Nat} (hmask : mask.length ≤ maxLength)
    (span : Nat × Nat) : Painted value (Between tok text span) mask
      (maskSpan tok text maxLength value mask span) := by
  have hiff : ∀ i, i < mask.length → (Between tok text span i ↔
      min (tokenIdx tok text maxLength span.1) mask.length ≤ i ∧
        i < min (tokenIdx tok text maxLength span.2) mask.length) := by
    intro i hi
    simp only [Between, tokenIdx, List.length_take]
    omega
  unfold maskSpan
  dsimp only
  split
  · refine ⟨by simp [setSlice], fun i hi hspan => ?_, fun i hi hspan => ?_⟩
    · rw [getElem?_setSlice, List.getElem?_eq_getElem hi, Option.map_some,
        if_pos ((hiff i hi).mp hspan)]
    · rw [getElem?_setSlice, List.getElem?_eq_getElem hi, Option.map_some,
        if_neg fun h => hspan ((hiff i hi).mpr h)]
  · refine ⟨rfl, fun i hi hspan => ?_, fun _ _ _ => rfl⟩
    have hspan := (hiff i hi).mp hspan
    omega

theorem foldl_maskSpan_painted (value : Nat) {mask : List Nat} (hmask : mask.length ≤ maxLength)
    (spans : List (Nat × Nat)) : Painted value (fun i => ∃ span ∈ spans, Between tok text span i)
      mask (spans.foldl (maskSpan tok text maxLength value) mask) := by
  induction spans generalizing mask with
  | nil => exact Painted.refl mask fun i => by simp
  | cons span spans ih =>
      have hhead := maskSpan_painted tok text value hmask span
      refine (hhead.trans (ih (hhead.length_eq ▸ hmask))).congr fun i => ?_
      simp

end Passes

structure Scannable (word text : Text) : Prop where
  ne_nil : word ≠ []
  apart : ∀ s s', OccursAt word text s → OccursAt word text s' → s < s' → s + word.length ≤ s'

theorem find_eq_some {word : Text} {start idx : Nat} (h : find text word start = some idx) :
    start ≤ idx ∧ OccursAt word text idx ∧
      ∀ s, start ≤ s → s < idx → ¬ OccursAt word text s := by
  obtain ⟨hocc, hmem, hbefore⟩ := List.find?_range'_eq_some.mp h
  have hrange := List.mem_range'_1.mp hmem
  have hidx : idx ≤ text.length := by omega
  refine ⟨hrange.1, (occursAt_iff hidx).mp hocc, fun s hs hlt hocc' => ?_⟩
  have hfalse := hbefore s hs hlt
  rw [(occursAt_iff (by omega)).mpr hocc'] at hfalse
  cases hfalse

theorem find_eq_none {word : Text} {start s : Nat} (h : find text word start = none)
    (hs : start ≤ s) : ¬ OccursAt word text s := by
  intro hocc
  have hle := hocc.1
  have hfalse := List.find?_eq_none.mp h s (List.mem_range'_1.mpr ⟨hs, by omega⟩)
  exact hfalse ((occursAt_iff hle).mpr hocc)

section Ignored

variable (tok) {maxLength : Nat}

theorem ignoreLoop_painted {word : Text} (hword : Scannable word text) {rounds start : Nat}
    {mask : List Nat} (hmask : mask.length ≤ maxLength) (hstart : start ≤ text.length)
    (hrounds : text.length < rounds + start) :
    ∃ mask', ignoreLoop tok text maxLength word rounds start mask = .ok mask' ∧
      Painted 0 (fun i => ∃ s, start ≤ s ∧ OccursAt word text s ∧
        Between tok text (s, s + word.length) i) mask mask' := by
  induction rounds generalizing start mask with
  | zero => omega
  | succ rounds ih =>
      rw [ignoreLoop]
      cases hfind : find text word start with
      | none =>
          refine ⟨mask, rfl, Painted.refl mask fun i => ?_⟩
          rintro ⟨s, hs, hocc, -⟩
          exact find_eq_none hfind hs hocc
      | some idx =>
          obtain ⟨hle, hocc, hfirst⟩ := find_eq_some hfind
          have hpos := List.length_pos_of_ne_nil hword.ne_nil
          have hstop := hocc.add_length_le
          have hhead := maskSpan_painted tok text 0 hmask (idx, idx + word.length)
          obtain ⟨mask', hloop, htail⟩ := ih (hhead.length_eq ▸ hmask) hstop (by omega)
          refine ⟨mask', hloop, (hhead.trans htail).congr fun i => ?_⟩
          constructor
          · rintro (hbetween | ⟨s, hs, hrest⟩)
            · exact ⟨idx, hle, hocc, hbetween⟩
            · exact ⟨s, by omega, hrest⟩
          · rintro ⟨s, hs, hocc', hbetween⟩
            -- An occurrence is the one that was found, or it lies behind it.
            rcases Nat.lt_trichotomy s idx with hlt | rfl | hgt
            · exact absurd hocc' (hfirst s hs hlt)
            · exact Or.inl hbetween
            · exact Or.inr ⟨s, hword.apart idx s hocc hocc' hgt, hocc', hbetween⟩

theorem ignoreLoops_painted {words : List Text} (hwords : ∀ word ∈ words, Scannable word text)
    {rounds : Nat} {mask : List Nat} (hmask : mask.length ≤ maxLength)
    (hrounds : text.length < rounds) :
    ∃ mask', (words.foldlM (fun mask word =>
        ignoreLoop tok text maxLength word rounds 0 mask) mask) = .ok mask' ∧
      Painted 0 (fun i => ∃ word ∈ words, ∃ s, OccursAt word text s ∧
        Between tok text (s, s + word.length) i) mask mask' := by
  induction words generalizing mask with
  | nil => exact ⟨mask, rfl, Painted.refl mask fun i => by simp⟩
  | cons word words ih =>
      rw [List.forall_mem_cons] at hwords
      obtain ⟨mask₁, hloop, hhead⟩ := ignoreLoop_painted tok hwords.1 hmask
        (Nat.zero_le text.length) (by omega : text.length < rounds + 0)
      obtain ⟨mask₂, hloops, htail⟩ := ih hwords.2 (hhead.length_eq ▸ hmask)
      refine ⟨mask₂, ?_, (hhead.trans htail).congr fun i => ?_⟩
      · rw [List.foldlM_cons, hloop]
        exact hloops
      · simp only [List.exists_mem_cons_iff, Nat.zero_le, true_and]

end Ignored

section Parse

variable (tok) (t : ChatTemplate) (messages : List Message)

def renderedTurns : List Turn := turns t (tok.bosToken.getD []).length messages

def trainedTurns (trainOnlyLastTurn : Bool) : List Turn :=
  if trainOnlyLastTurn then (renderedTurns tok t messages).getLast?.toList
  else renderedTurns tok t messages

/-- The words of a template delimit the turns of a conversation: the header occurs inside turns of
the assistant only, the token behind a turn occurs in it at its end only, and ignored words do
not overlap themselves. -/
structure Delimited (header eot : Text) : Prop where
  header_eq : t.assistantHeader = some header
  eot_eq : t.endOfTurnToken = some eot
  eot_ne_nil : eot ≠ []
  general : t.assistantPatternType ≠ "longcat"
  headers : ∀ s, OccursAt header (renderFallback tok t messages) s →
    ∃ turn ∈ renderedTurns tok t messages, turn.start ≤ s ∧ s < turn.stop
  ends : ∀ msg ∈ messages, msg.role = .assistant → EndsOnce msg.content eot
  ignored : ∀ word ∈ t.ignoreToken.getD [], Scannable word (renderFallback tok t messages)

inductive Border : Nat → Prop
  | header {turn : Turn} : turn ∈ renderedTurns tok t messages → Border turn.contentStart
  | turnEnd {turn : Turn} : turn ∈ renderedTurns tok t messages → Border turn.stop
  | ignoreStart {word : Text} {s : Nat} : word ∈ t.ignoreToken.getD [] →
      OccursAt word (renderFallback tok t messages) s → Border s
  | ignoreEnd {word : Text} {s : Nat} : word ∈ t.ignoreToken.getD [] →
      OccursAt word (renderFallback tok t messages) s → Border (s + word.length)

/-- Encoding the text up to a border gives a prefix of its encoding. -/
def PrefixStable : Prop := ∀ a, Border tok t messages a →
  tok.encode ((renderFallback tok t messages).take a) <+: tok.encode (renderFallback tok t messages)

/-- Token `i` is to be learned: it lies in a trained turn and in no ignored word. -/
def Learned (trainOnlyLastTurn : Bool) (i : Nat) : Prop :=
  (∃ turn ∈ trainedTurns tok t messages trainOnlyLastTurn,
    TokenIn tok (renderFallback tok t messages) turn.contentStart turn.stop i) ∧
  ¬ ∃ word ∈ t.ignoreToken.getD [], ∃ s, OccursAt word (renderFallback tok t messages) s ∧
    TokenIn tok (renderFallback tok t messages) s (s + word.length) i

/-- What is promised of the result of `parse`. -/
structure ExactMask (maxLength : Nat) (trainOnlyLastTurn : Bool)
    (result : List τ × List Nat) : Prop where
  inputIds : result.1 = (tok.encode (renderFallback tok t messages)).take maxLength
  length_eq : result.2.length = result.1.length
  learned : ∀ i, i < result.1.length → Learned tok t messages trainOnlyLastTurn i →
    result.2[i]? = some 1
  masked : ∀ i, i < result.1.length → ¬ Learned tok t messages trainOnlyLastTurn i →
    result.2[i]? = some 0

variable {tok t messages}

theorem trainedTurns_subset {trainOnlyLastTurn : Bool} {turn : Turn}
    (h : turn ∈ trainedTurns tok t messages trainOnlyLastTurn) :
    turn ∈ renderedTurns tok t messages := by
  unfold trainedTurns at h
  split at h
  · exact List.mem_of_mem_getLast? (Option.mem_toList.mp h)
  · exact h

variable {header eot : Text} (hdelimited : Delimited tok t messages header eot)

include hdelimited

private theorem allMatches_eq : AssistantPattern.allMatches ⟨header, .literal eot⟩
    (renderFallback tok t messages) =
      (renderedTurns tok t messages).map fun turn => (turn.contentStart, turn.stop) := by
  have hle := length_turns_le hdelimited.eot_eq hdelimited.eot_ne_nil
    (tok.bosToken.getD []).length messages
  have hlength : (renderFallback tok t messages).length =
      (tok.bosToken.getD []).length + (messages.flatMap (renderPart t)).length := by
    rw [renderFallback, List.length_append]
  refine finditer_eq hdelimited.header_eq hdelimited.eot_eq hdelimited.eot_ne_nil ?_
    (Nat.zero_le _) (by omega) hdelimited.ends (fun s _ hocc => hdelimited.headers s hocc) ?_
  · rw [renderFallback, List.drop_left]
  · omega

theorem selectedSpans_eq (trainOnlyLastTurn : Bool) :
    (if trainOnlyLastTurn then
      (AssistantPattern.allMatches ⟨header, .literal eot⟩
        (renderFallback tok t messages)).getLast?.toList
    else AssistantPattern.allMatches ⟨header, .literal eot⟩ (renderFallback tok t messages)) =
      (trainedTurns tok t messages trainOnlyLastTurn).map fun turn =>
        (turn.contentStart, turn.stop) := by
  rw [allMatches_eq hdelimited, trainedTurns]
  split
  · rw [List.getLast?_map]
    cases (renderedTurns tok t messages).getLast? <;> rfl
  · rfl

variable (hstable : PrefixStable tok t messages)

include hstable

omit hdelimited in
theorem learned_iff {trainOnlyLastTurn : Bool} {i : Nat} :
    Learned tok t messages trainOnlyLastTurn i ↔
      (∃ span ∈ (trainedTurns tok t messages trainOnlyLastTurn).map fun turn =>
        (turn.contentStart, turn.stop), Between tok (renderFallback tok t messages) span i) ∧
      ¬ ∃ word ∈ t.ignoreToken.getD [], ∃ s, OccursAt word (renderFallback tok t messages) s ∧
        Between tok (renderFallback tok t messages) (s, s + word.length) i := by
  refine and_congr ?_ (not_congr ?_)
  · simp only [List.mem_map, exists_exists_and_eq_and]
    refine exists_congr fun turn => and_congr_right fun hturn => ?_
    have hturn := trainedTurns_subset hturn
    exact tokenIn_iff (hstable _ (.header hturn)) (hstable _ (.turnEnd hturn))
  · refine exists_congr fun word => and_congr_right fun hword => exists_congr fun s =>
      and_congr_right fun hocc => ?_
    exact tokenIn_iff (hstable _ (.ignoreStart hword hocc)) (hstable _ (.ignoreEnd hword hocc))

theorem parseText_exactMask {rounds : Nat}
    (hrounds : (renderFallback tok t messages).length < rounds) (maxLength : Nat)
    (trainOnlyLastTurn : Bool) : ∃ result, parseText tok t (renderFallback tok t messages) maxLength
      rounds trainOnlyLastTurn ⟨header, .literal eot⟩ = .ok result ∧
        ExactMask tok t messages maxLength trainOnlyLastTurn result := by
  have hspans := selectedSpans_eq hdelimited trainOnlyLastTurn
  have hignore := hdelimited.ignored
  set text := renderFallback tok t messages with htext
  set inputIds := (tok.encode text).take maxLength with hids
  have hzeros : (List.replicate inputIds.length 0).length ≤ maxLength := by
    rw [List.length_replicate, hids, List.length_take]
    exact Nat.min_le_left _ _
  have hones := foldl_maskSpan_painted tok text 1 hzeros
    ((trainedTurns tok t messages trainOnlyLastTurn).map fun turn => (turn.contentStart, turn.stop))
  obtain ⟨mask, hloops, hwiped⟩ := ignoreLoops_painted tok hignore
    (hones.length_eq ▸ hzeros) hrounds
  have hlength : mask.length = inputIds.length := by
    rw [hwiped.length_eq, hones.length_eq, List.length_replicate]
  refine ⟨(inputIds, mask), ?_, rfl, hlength, fun i hi hlearned => ?_, fun i hi hlearned => ?_⟩
  · simp only [parseText]
    rw [hspans, ← hids, hloops]
    rfl
  · obtain ⟨hturn, hignored⟩ := (learned_iff hstable).mp hlearned
    rw [hwiped.outside i (by rwa [← hwiped.length_eq, hlength]) hignored]
    exact hones.inside i (by rwa [List.length_replicate]) hturn
  · by_cases hignored : ∃ word ∈ t.ignoreToken.getD [], ∃ s, OccursAt word text s ∧
        Between tok text (s, s + word.length) i
    · exact hwiped.inside i (by rwa [← hwiped.length_eq, hlength]) hignored
    · rw [hwiped.outside i (by rwa [← hwiped.length_eq, hlength]) hignored, hones.outside i
        (by rwa [List.length_replicate])
        fun hturn => hlearned ((learned_iff hstable).mpr ⟨hturn, hignored⟩)]
      rw [List.getElem?_replicate, if_pos hi]

end Parse

/-- The mask of a conversation that is rendered by the fallback covers exactly what is to be
learned, whatever the digits of `re`, the length of the input and the turns that are asked for. -/
theorem parse_exactMask (isDecimal : Char → Bool) {tok : Tokenizer τ} {t : ChatTemplate}
    {conversation messages : List Message} {header eot : Text}
    (hmessages : buildMessages t conversation = .ok messages)
    (hfallback : tok.applyChatTemplate messages = none)
    (hdelimited : Delimited tok t messages header eot) (hstable : PrefixStable tok t messages)
    {rounds : Nat} (hrounds : (renderFallback tok t messages).length < rounds) (maxLength : Nat)
    (trainOnlyLastTurn : Bool) :
    ∃ result, parse isDecimal tok t rounds conversation maxLength trainOnlyLastTurn = .ok result ∧
      ExactMask tok t messages maxLength trainOnlyLastTurn result := by
  have hpattern : setAssistantPattern isDecimal t = .ok ⟨header, .literal eot⟩ := by
    simp only [setAssistantPattern, if_neg hdelimited.general, hdelimited.header_eq,
      hdelimited.eot_eq, Option.getD_some]
  have hrender : render tok t messages = renderFallback tok t messages := by
    rw [render, hfallback, Option.getD_none]
  obtain ⟨result, hresult, hexact⟩ :=
    parseText_exactMask hdelimited hstable hrounds maxLength trainOnlyLastTurn
  refine ⟨result, ?_, hexact⟩
  rw [parse, hpattern, hmessages]
  exact (congrArg (fun text => parseText tok t text maxLength rounds trainOnlyLastTurn
    ⟨header, .literal eot⟩) hrender).trans hresult

instance (word text : Text) (s : Nat) : Decidable (OccursAt word text s) :=
  inferInstanceAs (Decidable (_ ∧ _))

/-- A tokenizer of single characters without a chat template. -/
def charTokenizer : Tokenizer Char := ⟨id, none, fun _ => none⟩

theorem charTokenizer_stable (t : ChatTemplate) (messages : List Message) :
    PrefixStable charTokenizer t messages :=
  fun a _ => List.take_prefix a _

/-- A template with short words. -/
def shortTemplate (header eot : String) (patternType : String) (ignored : List String) :
    ChatTemplate where
  assistantHeader := some header.toList
  userHeader := some "U:".toList
  systemPrompt := none
  endOfTurnToken := some eot.toList
  assistantPatternType := patternType
  ignoreToken := some (ignored.map String.toList)

/-- A question and its answer. -/
def exchange (question answer : String) : List Message :=
  [⟨.user, question.toList⟩, ⟨.assistant, answer.toList⟩]

/-- No content holds the header or the token behind a turn. -/
def ContentsFree (t : ChatTemplate) (messages : List Message) : Prop :=
  ∀ msg ∈ messages, ∀ word ∈ t.assistantHeader.toList ++ t.endOfTurnToken.toList,
    ¬ word <:+: msg.content

instance (t : ChatTemplate) (messages : List Message) : Decidable (ContentsFree t messages) :=
  inferInstanceAs (Decidable (∀ msg ∈ messages, _))

/-- A conversation whose contents are free of the words, and whose mask has a `1` too many. -/
def Overmasked (t : ChatTemplate) (conversation : List Message) (i : Nat) : Prop :=
  ContentsFree t conversation ∧ ∃ result,
    parse Char.isDigit charTokenizer t 40 conversation 100 false = .ok result ∧
      i < result.1.length ∧ result.2[i]? = some 1 ∧
      ¬ Learned charTokenizer t conversation false i

theorem exchange_delimited : Delimited charTokenizer (shortTemplate "A:" "|" "general" ["th"])
    (exchange "q" "thx") "A:".toList "|".toList where
  header_eq := rfl
  eot_eq := rfl
  eot_ne_nil := by decide
  general := by decide
  headers := by
    intro s hocc
    have hs : s ≤ 9 := hocc.1
    have hall : ∀ s ≤ 9, OccursAt "A:".toList (renderFallback charTokenizer
        (shortTemplate "A:" "|" "general" ["th"]) (exchange "q" "thx")) s →
          ∃ turn ∈ renderedTurns charTokenizer (shortTemplate "A:" "|" "general" ["th"])
            (exchange "q" "thx"), turn.start ≤ s ∧ s < turn.stop := by decide
    exact hall s hs hocc
  ends := by
    intro msg hmsg hrole e hocc
    have hall : ∀ msg ∈ exchange "q" "thx", msg.role = .assistant →
        ∀ e ≤ (msg.content ++ ['|']).length,
        OccursAt ['|'] (msg.content ++ ['|']) e → e = msg.content.length := by decide
    exact hall msg hmsg hrole e hocc.1 hocc
  ignored := by
    intro word hword
    obtain rfl : word = "th".toList := List.mem_singleton.mp hword
    refine ⟨by decide, fun s s' hocc hocc' hlt => ?_⟩
    have hall : ∀ s ≤ 9, ∀ s' ≤ 9, OccursAt "th".toList (renderFallback charTokenizer
        (shortTemplate "A:" "|" "general" ["th"]) (exchange "q" "thx")) s →
          OccursAt "th".toList (renderFallback charTokenizer
            (shortTemplate "A:" "|" "general" ["th"]) (exchange "q" "thx")) s' →
              s < s' → s + 2 ≤ s' := by decide
    exact hall s hocc.1 s' hocc'.1 hocc hocc' hlt

theorem parse_exactMask_exchange : ∃ result,
    parse Char.isDigit charTokenizer (shortTemplate "A:" "|" "general" ["th"]) 10
        (exchange "q" "thx") 8 true = .ok result ∧
      ExactMask charTokenizer (shortTemplate "A:" "|" "general" ["th"]) (exchange "q" "thx") 8 true
        result :=
  parse_exactMask Char.isDigit rfl rfl exchange_delimited (charTokenizer_stable _ _)
    (by decide) 8 true

/-- Ignored words that overlap, a content that ends like the header begins, and a pattern that
waits for a word that the rendering does not write. -/
theorem parse_overmasks :
    Overmasked (shortTemplate "A:" "|" "general" ["aa"]) (exchange "q" "aaa") 7 ∧
      Overmasked (shortTemplate "==" "|" "general" []) (exchange "x=" "y") 5 ∧
      Overmasked (shortTemplate "A:" "|" "longcat" []) (exchange "q" "y" ++ exchange "z" "y")
        9 := by
  refine ⟨⟨by decide, _, rfl, by decide, by decide, ?_⟩,
    ⟨by decide, _, rfl, by decide, by decide, ?_⟩,
    ⟨by decide, _, rfl, by decide, by decide, ?_⟩⟩
  · rintro ⟨-, hignored⟩
    exact hignored ⟨['a', 'a'], by decide, 6, by decide, ['U', ':', 'q', 'A', ':', 'a'], ['a', 'a'],
      ['|'], rfl, rfl, rfl, by decide, by decide⟩
  · rw [learned_iff (charTokenizer_stable _ _)]
    rintro ⟨hturn, -⟩
    revert hturn
    unfold Between
    decide
  · rw [learned_iff (charTokenizer_stable _ _)]
    rintro ⟨hturn, -⟩
    revert hturn
    unfold Between
    decide

end SpecDecode.Training.LossMask
