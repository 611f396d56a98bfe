import SpecDecode.Detokenizer.Printable
import SpecDecode.Lib.Deltas

/-!
# One request at the detokenizer

`serve` is what the manager does with the items of one request. With a byte-level tokenizer
the ids that were delivered are split into `done`, which is decoded for good, and `held`,
whose text may still change. `advance` says how a delivery moves the border, and `shown` is
the text that is visible then: the status of the request follows these two, whatever its
offsets are.
-/

namespace SpecDecode.Detokenizer

open Utf8

/-- A step of one request: what was sent before it, and the whole text to show. -/
structure Emission where
  sentBefore : Nat
  outputStr : List Char
deriving DecidableEq, Repr

/-- The string that is returned. -/
def Emission.returned (e : Emission) : List Char := e.outputStr.drop e.sentBefore

variable {ρ : Type}

/-- The outcome of an item, once its windows are known. -/
def outcome (cfg : Config) (s : DecodeStatus) (item : Item ρ) (ids : List Nat × List Nat) :
    Option DecodeStatus × Emission :=
  let e := emit s item (texts cfg item ids).1 (texts cfg item ids).2
  (if item.finishedReason.isNone then some { e.1 with sentOffset := e.2.length } else none,
    ⟨s.sentOffset, e.2⟩)

/-- What happens to an item, given the status of its request. -/
def serve (cfg : Config) (slot : Option DecodeStatus) (item : Item ρ) :
    Except DetokenizerError (Option DecodeStatus × Emission) := do
  let ids ← windows cfg (received slot item) item
  .ok (outcome cfg (received slot item) item ids)

theorem serve_inv {cfg : Config} {slot : Option DecodeStatus} {item : Item ρ}
    {r : Option DecodeStatus × Emission} (h : serve cfg slot item = .ok r) :
    ∃ ids, windows cfg (received slot item) item = .ok ids ∧
      r = outcome cfg (received slot item) item ids := by
  unfold serve at h
  cases hids : windows cfg (received slot item) item with
  | error err =>
      rw [hids] at h
      cases h
  | ok ids =>
      rw [hids] at h
      exact ⟨ids, rfl, (Except.ok.inj h).symm⟩

def serveAll (cfg : Config) :
    Option DecodeStatus → List (Item ρ) → Except DetokenizerError (List Emission)
  | _, [] => .ok []
  | slot, item :: items => do
      let (slot, e) ← serve cfg slot item
      let es ← serveAll cfg slot items
      .ok (e :: es)

theorem serveAll_cons {cfg : Config} {slot slot' : Option DecodeStatus} {item : Item ρ}
    {items : List (Item ρ)} {e : Emission} {es : List Emission}
    (hserve : serve cfg slot item = .ok (slot', e)) (hrest : serveAll cfg slot' items = .ok es) :
    serveAll cfg slot (item :: items) = .ok (e :: es) := by
  rw [serveAll, hserve]
  exact congrArg (fun x => x >>= fun es => .ok (e :: es)) hrest

theorem serveAll_cons_inv {cfg : Config} {slot : Option DecodeStatus} {item : Item ρ}
    {items : List (Item ρ)} {es : List Emission} (h : serveAll cfg slot (item :: items) = .ok es) :
    ∃ slot' e rest, serve cfg slot item = .ok (slot', e) ∧ serveAll cfg slot' items = .ok rest ∧
      es = e :: rest := by
  rw [serveAll] at h
  cases hserve : serve cfg slot item with
  | error err =>
      rw [hserve] at h
      cases h
  | ok r =>
      rw [hserve] at h
      cases hrest : serveAll cfg r.1 items with
      | error err =>
          replace h : (serveAll cfg r.1 items >>= fun es => Except.ok (r.2 :: es)) = .ok es := h
          rw [hrest] at h
          cases h
      | ok rest =>
          replace h : (serveAll cfg r.1 items >>= fun es => Except.ok (r.2 :: es)) = .ok es := h
          rw [hrest] at h
          exact ⟨r.1, r.2, rest, rfl, hrest, (Except.ok.inj h).symm⟩

/-- A byte-level tokenizer: an id is a byte string, and decoding is lossy. -/
def byteLevel (bytesOf : Nat → List UInt8) (capacity : Nat) (isToolCallParserGptOss : Bool) :
    Config where
  capacity
  isToolCallParserGptOss
  decode := fun _ _ ids => decode (ids.flatMap bytesOf)

section Abstract

variable (bytesOf : Nat → List UInt8)

def bytes (ids : List Nat) : List UInt8 := ids.flatMap bytesOf

@[simp] theorem bytes_append (xs ys : List Nat) :
    bytes bytesOf (xs ++ ys) = bytes bytesOf xs ++ bytes bytesOf ys := List.flatMap_append ..

def textOf (ids : List Nat) : List Char := decode (bytes bytesOf ids)

def Settles (text : List Char) : Prop := text ≠ [] ∧ endsWith text (· == replacement) = false

instance (text : List Char) : Decidable (Settles text) := instDecidableAnd

theorem settles_iff (text : List Char) :
    (!text.isEmpty && !endsWith text (· == replacement)) = true ↔ Settles text := by
  rw [Bool.and_eq_true, Bool.not_eq_true', Bool.not_eq_true', List.isEmpty_eq_false_iff, Settles]

structure Position where
  done : List Nat
  held : List Nat

def Position.ids (p : Position) : List Nat := p.done ++ p.held

def advance (p : Position) (chunk : List Nat) : Position :=
  if Settles (textOf bytesOf (p.held ++ chunk)) then ⟨p.ids ++ chunk, []⟩
  else ⟨p.done, p.held ++ chunk⟩

def shown (p : Position) : List Char :=
  textOf bytesOf p.done ++ findPrintableText (textOf bytesOf p.held)

/-- What holds of a position that deliveries lead to. -/
structure Position.Valid (p : Position) : Prop where
  done : AtBoundary (bytes bytesOf p.done)
  held : ¬ Settles (textOf bytesOf p.held)

variable {bytesOf} {p : Position} {chunk : List Nat}

@[simp] theorem advance_ids : (advance bytesOf p chunk).ids = p.ids ++ chunk := by
  unfold advance Position.ids
  split
  · exact List.append_nil _
  · exact (List.append_assoc ..).symm

private theorem endsWith_replacement (text : List Char) :
    endsWith (text ++ [replacement]) (· == replacement) = true := endsWith_concat ..

theorem Settles.atBoundary {bs : List UInt8} (h : Settles (decode bs)) : AtBoundary bs := by
  unfold AtBoundary
  cases hs : stateAfter .start bs with
  | start => rfl
  | owed more lo hi acc =>
      have hlast := h.2
      rw [decode, hs, flush, endsWith_replacement] at hlast
      cases hlast

theorem Position.Valid.start : Position.Valid bytesOf ⟨[], []⟩ where
  done := rfl
  held := fun h => h.1 rfl

theorem Position.Valid.advance (h : p.Valid bytesOf) (chunk : List Nat) :
    (advance bytesOf p chunk).Valid bytesOf := by
  unfold Detokenizer.advance
  split
  · next hs =>
      refine ⟨?_, fun h => h.1 rfl⟩
      show AtBoundary _
      rw [Position.ids, List.append_assoc, bytes_append, AtBoundary, h.done.append]
      exact hs.atBoundary
  · next hs => exact ⟨h.done, hs⟩

/-- What was held back is empty, or it ends with a replacement character in front of which
the text is final. -/
theorem held_cases {xs : List UInt8} (h : ¬ Settles (decode xs)) :
    decode xs = [] ∨ ∃ y, decode xs = y ++ [replacement] ∧ y <+: emits .start xs := by
  obtain hnil | ⟨y, c, hy⟩ := List.eq_nil_or_concat' (decode xs)
  · exact .inl hnil
  · right
    have hc : c = replacement := by
      have hne : decode xs ≠ [] := by rw [hy]; simp
      have hend : endsWith (decode xs) (· == replacement) = true := by
        simpa using fun hf => h ⟨hne, hf⟩
      rw [hy, endsWith_concat] at hend
      exact eq_of_beq hend
    subst hc
    refine ⟨y, hy, ?_⟩
    cases hs : stateAfter .start xs with
    | start =>
        rw [decode, hs, flush, List.append_nil] at hy
        rw [hy]
        exact List.prefix_append ..
    | owed more lo hi acc =>
        rw [decode, hs, flush] at hy
        rw [List.append_cancel_right hy]

theorem findPrintableText_prefix_emits {xs : List UInt8} (h : ¬ Settles (decode xs)) :
    findPrintableText (decode xs) <+: emits .start xs := by
  rcases held_cases h with hnil | ⟨y, hy, hpref⟩
  · rw [hnil]
    exact List.nil_prefix
  · rw [hy]
    exact (findPrintableText_held_isPrefix y).trans hpref

theorem emits_prefix_decode_append (xs ys : List UInt8) : emits .start xs <+: decode (xs ++ ys) :=
  emits_prefix_append.trans (emits_prefix_decode _)

theorem held_grows {xs ys : List UInt8} (hxs : ¬ Settles (decode xs))
    (hys : ¬ Settles (decode (xs ++ ys))) : decode xs = [] ∨
      ∃ y w, decode xs = y ++ [replacement] ∧ decode (xs ++ ys) = y ++ w ++ [replacement] := by
  rcases held_cases hxs with hnil | ⟨y, hy, hpref⟩
  · exact .inl hnil
  right
  have hlen := decode_length_le xs ys
  rw [hy, List.length_append, List.length_singleton] at hlen
  rcases held_cases hys with hnil | ⟨z, hz, -⟩
  · rw [hnil] at hlen
    exact absurd hlen (Nat.not_succ_le_zero _)
  · have hyz : y <+: z ++ [replacement] := hz ▸ hpref.trans (emits_prefix_decode_append xs ys)
    rw [hz, List.length_append, List.length_singleton] at hlen
    obtain ⟨w, rfl⟩ := (List.prefix_concat_iff.mp hyz).resolve_left (fun heq => by
      rw [heq, List.length_append, List.length_singleton] at hlen
      omega)
    exact ⟨y, w, hy, hz⟩

theorem printable_lt {held text : List Char} (h : Shrinks held text) :
    (findPrintableText text).length < (findPrintableText held).length := by
  obtain ⟨y, w, rfl, rfl, hrest⟩ := h
  exact (findPrintableText_lt_iff y w).mpr ⟨y, w, rfl, rfl, hrest⟩

/-- The visible part of a held text grows, unless the text shrinks it. -/
theorem printable_prefix {xs ys : List UInt8} (hxs : ¬ Settles (decode xs))
    (hys : ¬ Settles (decode (xs ++ ys))) (h : ¬ Shrinks (decode xs) (decode (xs ++ ys))) :
    findPrintableText (decode xs) <+: findPrintableText (decode (xs ++ ys)) := by
  rcases held_grows hxs hys with hnil | ⟨y, w, hy, hw⟩
  · rw [hnil]
    exact List.nil_prefix
  · rw [hy, hw] at h ⊢
    rw [← findPrintableText_lt_iff, Nat.not_lt] at h
    apply List.prefix_of_prefix_length_le _ (findPrintableText_held_isPrefix (y ++ w)) h
    exact (findPrintableText_held_isPrefix y).trans (List.prefix_append ..)

theorem shown_prefix_emits (h : p.Valid bytesOf) :
    shown bytesOf p <+: emits .start (bytes bytesOf p.ids) := by
  rw [Position.ids, bytes_append, emits_append, h.done, shown, textOf, h.done.decode_eq]
  exact (List.prefix_append_right_inj _).mpr (findPrintableText_prefix_emits h.held)

theorem shown_prefix_text (h : p.Valid bytesOf) (chunk : List Nat) :
    shown bytesOf p <+: textOf bytesOf (p.ids ++ chunk) := by
  rw [textOf, bytes_append]
  exact (shown_prefix_emits h).trans (emits_prefix_decode_append ..)

theorem textOf_append {xs : List Nat} (h : AtBoundary (bytes bytesOf xs)) (ys : List Nat) :
    textOf bytesOf (xs ++ ys) = textOf bytesOf xs ++ textOf bytesOf ys := by
  rw [textOf, bytes_append, h.decode_append]
  rfl

@[simp] theorem shown_settled {ids : List Nat} : shown bytesOf ⟨ids, []⟩ = textOf bytesOf ids :=
  List.append_nil _

theorem shown_advance_of_settles (hs : Settles (textOf bytesOf (p.held ++ chunk))) :
    shown bytesOf (advance bytesOf p chunk) = textOf bytesOf (p.ids ++ chunk) := by
  rw [advance, if_pos hs, shown_settled]

theorem shown_advance_of_not_settles (hs : ¬ Settles (textOf bytesOf (p.held ++ chunk))) :
    shown bytesOf (advance bytesOf p chunk) =
      textOf bytesOf p.done ++ findPrintableText (textOf bytesOf (p.held ++ chunk)) := by
  rw [advance, if_neg hs]
  rfl

variable (bytesOf) in
/-- In no two deliveries one after the other, both held back, the second shrinks the first. -/
def Steady : List Nat → List (List Nat) → Prop
  | _, [] => True
  | held, chunk :: chunks =>
      if Settles (textOf bytesOf (held ++ chunk)) then Steady [] chunks
      else ¬ Shrinks (textOf bytesOf held) (textOf bytesOf (held ++ chunk)) ∧
        Steady (held ++ chunk) chunks

variable (bytesOf) in
def versions : Position → List (List Nat) → List (List Char)
  | _, [] => []
  | p, chunk :: chunks =>
      shown bytesOf (advance bytesOf p chunk) :: versions (advance bytesOf p chunk) chunks

theorem versions_extends {chunks : List (List Nat)} (h : p.Valid bytesOf)
    (hsteady : Steady bytesOf p.held chunks) (last : List Nat) :
    Deltas.Extends (shown bytesOf p)
      (versions bytesOf p chunks ++ [textOf bytesOf (p.ids ++ chunks.flatten ++ last)]) := by
  induction chunks generalizing p with
  | nil =>
      rw [List.flatten_nil, List.append_nil]
      exact ⟨shown_prefix_text h last, trivial⟩
  | cons chunk chunks ih =>
      rw [Steady] at hsteady
      have hids : p.ids ++ (chunk :: chunks).flatten =
          (advance bytesOf p chunk).ids ++ chunks.flatten := by
        rw [advance_ids, List.flatten_cons, List.append_assoc]
      rw [hids]
      split at hsteady
      · next hs =>
          refine ⟨?_, ih (h.advance chunk) ?_⟩
          · rw [shown_advance_of_settles hs]
            exact shown_prefix_text h chunk
          · rwa [advance, if_pos hs]
      · next hs =>
          refine ⟨?_, ih (h.advance chunk) ?_⟩
          · rw [shown_advance_of_not_settles hs, shown, List.prefix_append_right_inj]
            have hno := hsteady.1
            simp only [textOf, bytes_append] at hs hno ⊢
            exact printable_prefix h.held hs hno
          · rw [advance, if_neg hs]
            exact hsteady.2

theorem steady_of_grows {chunks : List (List Nat)} {last : List Char}
    (hgrows : Deltas.Grows (shown bytesOf p).length (versions bytesOf p chunks ++ [last])) :
    Steady bytesOf p.held chunks := by
  induction chunks generalizing p with
  | nil => trivial
  | cons chunk chunks ih =>
      have hrest := ih hgrows.2
      rw [Steady]
      split
      · next hs => rwa [advance, if_pos hs] at hrest
      · next hs =>
          refine ⟨fun hshrinks => ?_, by rwa [advance, if_neg hs] at hrest⟩
          have hle := hgrows.1
          rw [shown_advance_of_not_settles hs, shown, List.length_append,
            List.length_append] at hle
          have := printable_lt hshrinks
          omega

end Abstract

section Refinement

variable {bytesOf : Nat → List UInt8} {capacity : Nat} {isToolCallParserGptOss : Bool}
  {p : Position} {s : DecodeStatus} {item : Item ρ} {tail : List Nat}

/-- The status of a request between two deliveries: `tail` is the end of the prompt. -/
structure Live (bytesOf : Nat → List UInt8) (tail : List Nat) (p : Position) (s : DecodeStatus) :
    Prop where
  decodeIds : s.decodeIds = tail ++ p.ids
  readOffset : s.readOffset = (tail ++ p.done).length
  surrOffset : s.surrOffset ≤ s.readOffset
  window : AtBoundary (bytes bytesOf ((tail ++ p.done).drop s.surrOffset))
  decodedText : s.decodedText = textOf bytesOf p.done
  sentOffset : s.sentOffset = (shown bytesOf p).length

/-- The context of both windows. -/
def context (tail : List Nat) (p : Position) (s : DecodeStatus) : List Nat :=
  (tail ++ p.done).drop s.surrOffset

theorem Live.readIds (h : Live bytesOf tail p s) (item : Item ρ) :
    (received (some s) item).decodeIds.drop (received (some s) item).surrOffset =
      context tail p s ++ (p.held ++ item.decodeIds) := by
  have hle := h.surrOffset
  rw [h.readOffset] at hle
  simp only [received, h.decodeIds, Position.ids, context]
  rw [← List.drop_append_of_le_length hle]
  simp only [List.append_assoc]

theorem Live.surrIds (h : Live bytesOf tail p s) (item : Item ρ) :
    ((received (some s) item).decodeIds.take (received (some s) item).readOffset).drop
      (received (some s) item).surrOffset = context tail p s := by
  have hids : s.decodeIds ++ item.decodeIds = (tail ++ p.done) ++ (p.held ++ item.decodeIds) := by
    simp only [h.decodeIds, Position.ids, List.append_assoc]
  simp only [received, hids, h.readOffset, List.take_left, context]

theorem Live.newText (h : Live bytesOf tail p s) (ids : List Nat) :
    (textOf bytesOf (context tail p s ++ ids)).drop (textOf bytesOf (context tail p s)).length =
      textOf bytesOf ids := by
  have hw : AtBoundary (bytes bytesOf (context tail p s)) := h.window
  rw [textOf_append hw, List.drop_left]

@[simp] theorem trimMatchedStopIds_none {output : List Nat} {noStopTrim : Bool} :
    trimMatchedStopIds isToolCallParserGptOss output none noStopTrim = .ok output := by
  cases noStopTrim <;> rfl

@[simp] theorem trimMatchedStopStr_none {output : List Char} {noStopTrim : Bool} :
    trimMatchedStopStr output none noStopTrim = output := by
  cases noStopTrim <;> rfl

theorem Live.serve_eq (h : Live bytesOf tail p s) (kept : List Nat)
    (htrim : trimMatchedStopIds isToolCallParserGptOss
      (context tail p s ++ (p.held ++ item.decodeIds)) item.finishedReason item.noStopTrim =
        .ok (context tail p s ++ kept)) :
    serve (byteLevel bytesOf capacity isToolCallParserGptOss) (some s) item =
      let e := emit (received (some s) item) item (textOf bytesOf (context tail p s ++ kept))
        (textOf bytesOf (context tail p s))
      .ok (if item.finishedReason.isNone then some { e.1 with sentOffset := e.2.length } else none,
        ⟨s.sentOffset, e.2⟩) := by
  have hwindows : windows (byteLevel bytesOf capacity isToolCallParserGptOss)
      (received (some s) item) item = .ok (context tail p s ++ kept, context tail p s) := by
    rw [windows, h.readIds, h.surrIds]
    exact congrArg (· >>= fun readIds => .ok (readIds, context tail p s)) htrim
  simp only [serve, hwindows]
  rfl

theorem Live.serve_next (h : Live bytesOf tail p s) (hdone : AtBoundary (bytes bytesOf p.done))
    (hitem : item.finishedReason = none) :
    ∃ s', serve (byteLevel bytesOf capacity isToolCallParserGptOss) (some s) item =
        .ok (some s', ⟨(shown bytesOf p).length,
          shown bytesOf (advance bytesOf p item.decodeIds)⟩) ∧
      Live bytesOf tail (advance bytesOf p item.decodeIds) s' := by
  rw [h.serve_eq (p.held ++ item.decodeIds) (by rw [hitem, trimMatchedStopIds_none]),
    ← h.sentOffset]
  simp only [emit, h.newText, hitem, Option.isNone_none, if_true, trimMatchedStopStr_none,
    settles_iff]
  by_cases hs : Settles (textOf bytesOf (p.held ++ item.decodeIds))
  · rw [if_pos hs]
    have hout : (received (some s) item).decodedText ++ textOf bytesOf (p.held ++ item.decodeIds) ++
        [] = shown bytesOf (advance bytesOf p item.decodeIds) := by
      rw [List.append_nil, shown_advance_of_settles hs, Position.ids, List.append_assoc,
        textOf_append hdone]
      exact congrArg (· ++ _) h.decodedText
    rw [hout]
    refine ⟨_, rfl, ?_⟩
    have hids : s.decodeIds ++ item.decodeIds = tail ++ (p.ids ++ item.decodeIds) := by
      rw [h.decodeIds, List.append_assoc]
    have hle := h.surrOffset
    have hadvance : advance bytesOf p item.decodeIds = ⟨p.ids ++ item.decodeIds, []⟩ := if_pos hs
    rw [hadvance]
    constructor
    · simp only [received, hids, Position.ids, List.append_nil]
    · simp only [received, hids]
    · simp only [received, h.readOffset, h.decodeIds, Position.ids, List.length_append]
      omega
    · have hwindow : (tail ++ (p.ids ++ item.decodeIds)).drop (tail ++ p.done).length =
          p.held ++ item.decodeIds := by
        simp only [Position.ids, List.append_assoc]
        rw [← List.append_assoc, List.drop_left]
      simp only [received, h.readOffset, hwindow]
      exact hs.atBoundary
    · simp only [received, h.decodedText]
      rw [← textOf_append hdone, Position.ids, List.append_assoc]
    · rfl
  · rw [if_neg hs]
    have hout : (received (some s) item).decodedText ++
        findPrintableText (textOf bytesOf (p.held ++ item.decodeIds)) =
          shown bytesOf (advance bytesOf p item.decodeIds) := by
      rw [shown_advance_of_not_settles hs]
      exact congrArg (· ++ _) h.decodedText
    rw [hout]
    refine ⟨_, rfl, ?_⟩
    have hids : s.decodeIds ++ item.decodeIds = tail ++ (p.done ++ (p.held ++ item.decodeIds)) := by
      rw [h.decodeIds, Position.ids]
      simp only [List.append_assoc]
    have hadvance : advance bytesOf p item.decodeIds = ⟨p.done, p.held ++ item.decodeIds⟩ :=
      if_neg hs
    rw [hadvance]
    exact ⟨hids, h.readOffset, h.surrOffset, h.window, h.decodedText, rfl⟩

theorem Live.serve_last (h : Live bytesOf tail p s) (hdone : AtBoundary (bytes bytesOf p.done))
    (hitem : item.finishedReason.isSome) (kept : List Nat)
    (htrim : trimMatchedStopIds isToolCallParserGptOss
      (context tail p s ++ (p.held ++ item.decodeIds)) item.finishedReason item.noStopTrim =
        .ok (context tail p s ++ (p.held ++ kept)))
    (hstr : ∀ text, trimMatchedStopStr text item.finishedReason item.noStopTrim = text) :
    serve (byteLevel bytesOf capacity isToolCallParserGptOss) (some s) item =
      .ok (none, ⟨(shown bytesOf p).length, textOf bytesOf (p.ids ++ kept)⟩) := by
  obtain ⟨reason, hreason⟩ := Option.isSome_iff_exists.mp hitem
  rw [h.serve_eq _ htrim, ← h.sentOffset]
  have hout : (received (some s) item).decodedText ++ textOf bytesOf (p.held ++ kept) =
      textOf bytesOf (p.ids ++ kept) := by
    rw [Position.ids, List.append_assoc, textOf_append hdone]
    exact congrArg (· ++ _) h.decodedText
  rw [hreason] at hstr
  simp only [emit, h.newText, hreason, hstr, hout]
  rfl

end Refinement

section Run

variable {bytesOf : Nat → List UInt8} {capacity : Nat} {isToolCallParserGptOss : Bool}

/-- A request as the scheduler delivers it: the end of its prompt, the output ids of the
deliveries before the last one, and the last one with the reason to finish. -/
structure Request (ρ : Type) where
  rid : ρ
  tail : List Nat
  chunks : List (List Nat)
  last : List Nat
  finish : FinishedReason
  noStopTrim : Bool
  skipSpecialTokens : Bool
  spacesBetweenSpecialTokens : Bool

def Request.item (r : Request ρ) (ids : List Nat) (finishedReason : Option FinishedReason) :
    Item ρ where
  rid := r.rid
  decodedText := []
  decodeIds := ids
  readOffset := r.tail.length
  finishedReason
  noStopTrim := r.noStopTrim
  skipSpecialTokens := r.skipSpecialTokens
  spacesBetweenSpecialTokens := r.spacesBetweenSpecialTokens

/-- The items of a request; the first one also brings the prompt tail. -/
def Request.items (r : Request ρ) : List (Item ρ) :=
  match r.chunks with
  | [] => [r.item (r.tail ++ r.last) (some r.finish)]
  | chunk :: chunks =>
      r.item (r.tail ++ chunk) none ::
        (chunks.map (r.item · none) ++ [r.item r.last (some r.finish)])

def Request.outputIds (r : Request ρ) : List Nat := r.chunks.flatten ++ r.last

/-- The steps that show the versions `os` one after the other. -/
def emissions : Nat → List (List Char) → List Emission
  | _, [] => []
  | sent, o :: os => ⟨sent, o⟩ :: emissions o.length os

theorem returned_emissions (sent : Nat) (os : List (List Char)) :
    (emissions sent os).map Emission.returned = Deltas.deltas sent os := by
  induction os generalizing sent with
  | nil => rfl
  | cons o os ih => simp only [emissions, List.map_cons, Deltas.deltas, ih, Emission.returned]

theorem grows_iff (sent : Nat) (os : List (List Char)) :
    Deltas.Grows sent os ↔ ∀ e ∈ emissions sent os, e.sentBefore ≤ e.outputStr.length := by
  induction os generalizing sent with
  | nil => simp [Deltas.Grows, emissions]
  | cons o os ih => simp [Deltas.Grows, emissions, ih]

/-- The status that the prompt tail alone would make. -/
def fresh (tail : List Nat) : DecodeStatus :=
  { decodedText := [], decodeIds := tail, surrOffset := 0, readOffset := tail.length
    sentOffset := 0 }

theorem live_fresh {tail : List Nat} (htail : AtBoundary (bytes bytesOf tail)) :
    Live bytesOf tail ⟨[], []⟩ (fresh tail) where
  decodeIds := (List.append_nil tail).symm
  readOffset := by rw [List.append_nil]; rfl
  surrOffset := Nat.zero_le _
  window := by rw [List.append_nil]; exact htail
  decodedText := rfl
  sentOffset := rfl

theorem serveAll_live (r : Request ρ) {p : Position} {s : DecodeStatus} (kept : List Nat)
    (hvalid : p.Valid bytesOf) (h : Live bytesOf r.tail p s) (chunks : List (List Nat))
    (htrim : ∀ ids, trimMatchedStopIds isToolCallParserGptOss (ids ++ r.last) (some r.finish)
      r.noStopTrim = .ok (ids ++ kept))
    (hstr : ∀ text, trimMatchedStopStr text (some r.finish) r.noStopTrim = text) :
    serveAll (byteLevel bytesOf capacity isToolCallParserGptOss) (some s)
        (chunks.map (r.item · none) ++ [r.item r.last (some r.finish)]) =
      .ok (emissions (shown bytesOf p).length
        (versions bytesOf p chunks ++ [textOf bytesOf (p.ids ++ chunks.flatten ++ kept)])) := by
  induction chunks generalizing p s with
  | nil =>
      have hserve : serve (byteLevel bytesOf capacity isToolCallParserGptOss) (some s)
          (r.item r.last (some r.finish)) =
            .ok (none, ⟨(shown bytesOf p).length, textOf bytesOf (p.ids ++ kept)⟩) := by
        apply h.serve_last hvalid.done rfl kept _ hstr
        rw [← List.append_assoc, ← List.append_assoc]
        exact htrim _
      rw [List.flatten_nil, List.append_nil]
      exact serveAll_cons hserve rfl
  | cons chunk chunks ih =>
      obtain ⟨s', hserve, hlive⟩ : ∃ s', serve (byteLevel bytesOf capacity isToolCallParserGptOss)
          (some s) (r.item chunk none) =
            .ok (some s', ⟨(shown bytesOf p).length, shown bytesOf (advance bytesOf p chunk)⟩) ∧
          Live bytesOf r.tail (advance bytesOf p chunk) s' :=
        h.serve_next hvalid.done rfl
      have hrest := ih (hvalid.advance chunk) hlive
      rw [advance_ids, List.append_assoc p.ids] at hrest
      exact serveAll_cons hserve hrest

theorem serveAll_items (capacity : Nat) (r : Request ρ) (htail : AtBoundary (bytes bytesOf r.tail))
    (kept : List Nat)
    (htrim : ∀ ids, trimMatchedStopIds isToolCallParserGptOss (ids ++ r.last) (some r.finish)
      r.noStopTrim = .ok (ids ++ kept))
    (hstr : ∀ text, trimMatchedStopStr text (some r.finish) r.noStopTrim = text) :
    serveAll (byteLevel bytesOf capacity isToolCallParserGptOss) none r.items =
      .ok (emissions 0 (versions bytesOf ⟨[], []⟩ r.chunks ++
        [textOf bytesOf (r.chunks.flatten ++ kept)])) := by
  have hlive : serveAll (byteLevel bytesOf capacity isToolCallParserGptOss) (some (fresh r.tail))
      (r.chunks.map (r.item · none) ++ [r.item r.last (some r.finish)]) =
        .ok (emissions 0 (versions bytesOf ⟨[], []⟩ r.chunks ++
          [textOf bytesOf (r.chunks.flatten ++ kept)])) :=
    serveAll_live r kept .start (live_fresh htail) r.chunks htrim hstr
  cases hchunks : r.chunks with
  | nil =>
      rw [hchunks] at hlive
      rw [Request.items, hchunks]
      exact hlive
  | cons chunk chunks =>
      rw [hchunks] at hlive
      rw [Request.items, hchunks]
      exact hlive

end Run

end SpecDecode.Detokenizer
