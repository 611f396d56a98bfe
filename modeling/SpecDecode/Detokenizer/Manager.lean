import SpecDecode.Lib.Occurrence
import SpecDecode.Lib.Utf8
import Mathlib.Data.List.DropRight

/-!
# The detokenizer

`decodeBatchTokenIdOutput` turns the token ids of a batch of requests into text. A request's
`DecodeStatus` holds its ids so far and two offsets into them: the ids in front of
`readOffset` are decoded for good, and decoding starts again at `surrOffset` to have some
context. Text that may still change is shown only as far as `findPrintableText` allows; the
part shown is remembered by its length, `sentOffset`.

`ρ` is the type of request ids. Token ids and texts are lists; the tokenizer is a parameter.
-/

namespace SpecDecode.Detokenizer

def isChineseChar (cp : Nat) : Bool :=
  (0x4E00 ≤ cp && cp ≤ 0x9FFF) || (0x3400 ≤ cp && cp ≤ 0x4DBF) ||
  (0x20000 ≤ cp && cp ≤ 0x2A6DF) || (0x2A700 ≤ cp && cp ≤ 0x2B73F) ||
  (0x2B740 ≤ cp && cp ≤ 0x2B81F) || (0x2B820 ≤ cp && cp ≤ 0x2CEAF) ||
  (0xF900 ≤ cp && cp ≤ 0xFAFF) || (0x2F800 ≤ cp && cp ≤ 0x2FA1F)

def endsWith (text : List Char) (p : Char → Bool) : Bool := text.getLast?.any p

def rfind (text : List Char) (c : Char) : Int := (text.rdropWhile (· != c)).length - 1

def findPrintableText (text : List Char) : List Char :=
  if endsWith text (· == '\n') then text
  else if endsWith text (isChineseChar ·.toNat) then text
  else if endsWith text.dropLast (isChineseChar ·.toNat) then text.dropLast
  else text.take (rfind text ' ' + 1).toNat

inductive DetokenizerError where
  | indexError
  | statusNotFound
deriving DecidableEq, Repr

inductive Matched where
  | token (id : Nat)
  | str (text : List Char)
deriving DecidableEq, Repr

/-- Python's truth value of the entry. -/
def Matched.isTrue : Matched → Bool
  | .token id => id != 0
  | .str text => !text.isEmpty

structure FinishedReason where
  matched : Option Matched
deriving DecidableEq, Repr

/-- The stop that `trim_matched_stop` looks at, if it gets that far. -/
def matchedStop (finishedReason : Option FinishedReason) (noStopTrim : Bool) : Option Matched :=
  if noStopTrim then none
  else (finishedReason.bind (·.matched)).filter (·.isTrue)

/-- `trim_matched_stop` on token ids. The `<|call|>` token of gpt-oss stays. -/
def trimMatchedStopIds (isToolCallParserGptOss : Bool) (output : List Nat)
    (finishedReason : Option FinishedReason) (noStopTrim : Bool) :
    Except DetokenizerError (List Nat) :=
  match matchedStop finishedReason noStopTrim with
  | some (.token _) =>
      match output.getLast? with
      | none => .error .indexError
      | some last =>
          if last == 200012 && isToolCallParserGptOss then .ok output else .ok output.dropLast
  | _ => .ok output

def trimMatchedStopStr (output : List Char) (finishedReason : Option FinishedReason)
    (noStopTrim : Bool) : List Char :=
  match matchedStop finishedReason noStopTrim with
  | some (.str matched) =>
      match cut matched output with
      | some (before, _) => before
      | none => output
  | _ => output

structure DecodeStatus where
  decodedText : List Char
  decodeIds : List Nat
  surrOffset : Nat
  readOffset : Nat
  sentOffset : Nat
deriving DecidableEq, Repr

/-- What a `BatchTokenIDOutput` says about one request. -/
structure Item (ρ : Type) where
  rid : ρ
  decodedText : List Char
  decodeIds : List Nat
  readOffset : Nat
  finishedReason : Option FinishedReason
  noStopTrim : Bool
  skipSpecialTokens : Bool
  spacesBetweenSpecialTokens : Bool
deriving DecidableEq, Repr

/-- `capacity` is `SGLANG_DETOKENIZER_MAX_STATES`; `decode` takes the two flags of an item. -/
structure Config where
  capacity : Nat
  isToolCallParserGptOss : Bool
  decode : Bool → Bool → List Nat → List Char

variable {ρ : Type} [DecidableEq ρ] (cfg : Config)

/-- A `LimitedCapacityDict`, the oldest entry first. -/
abbrev StatusDict (ρ : Type) := List (ρ × DecodeStatus)

/-- Setting a key that is not there; a full dictionary drops its oldest entry. -/
def setNew (status : StatusDict ρ) (rid : ρ) (s : DecodeStatus) : StatusDict ρ :=
  (if cfg.capacity ≤ status.length then status.tail else status) ++ [(rid, s)]

def setOld (status : StatusDict ρ) (rid : ρ) (s : DecodeStatus) : StatusDict ρ :=
  status.map fun e => if e.1 = rid then (e.1, s) else e

def erase (status : StatusDict ρ) (rid : ρ) : StatusDict ρ := status.filter (·.1 ≠ rid)

/-- The status of a request once its item has arrived. -/
def received (slot : Option DecodeStatus) (item : Item ρ) : DecodeStatus :=
  match slot with
  | none =>
      { decodedText := item.decodedText, decodeIds := item.decodeIds, surrOffset := 0
        readOffset := item.readOffset, sentOffset := 0 }
  | some s => { s with decodeIds := s.decodeIds ++ item.decodeIds }

/-- The dictionary once an item has arrived. -/
def arrive (status : StatusDict ρ) (item : Item ρ) : StatusDict ρ :=
  let slot := status.lookup item.rid
  if slot.isNone then setNew cfg status item.rid (received slot item)
  else setOld status item.rid (received slot item)

def windows (s : DecodeStatus) (item : Item ρ) :
    Except DetokenizerError (List Nat × List Nat) := do
  let readIds ← trimMatchedStopIds cfg.isToolCallParserGptOss (s.decodeIds.drop s.surrOffset)
    item.finishedReason item.noStopTrim
  .ok (readIds, (s.decodeIds.take s.readOffset).drop s.surrOffset)

def texts (item : Item ρ) (ids : List Nat × List Nat) : List Char × List Char :=
  let decode := cfg.decode item.skipSpecialTokens item.spacesBetweenSpecialTokens
  (decode ids.1, decode ids.2)

/-- The incremental decoding of one request: its new status, and the whole text to show. -/
def emit (s : DecodeStatus) (item : Item ρ) (readText surrText : List Char) :
    DecodeStatus × List Char :=
  let newText := readText.drop surrText.length
  let (s, newText) := match item.finishedReason with
    | none =>
        if !newText.isEmpty && !endsWith newText (· == Utf8.replacement) then
          ({ s with
              decodedText := s.decodedText ++ newText
              surrOffset := s.readOffset
              readOffset := s.decodeIds.length }, [])
        else (s, findPrintableText newText)
    | some _ => (s, newText)
  (s, trimMatchedStopStr (s.decodedText ++ newText) item.finishedReason item.noStopTrim)

/-- The first loop: every item arrives, and its windows are taken. -/
def receiveAll : StatusDict ρ → List (Item ρ) →
    Except DetokenizerError (StatusDict ρ × List (List Nat × List Nat))
  | status, [] => .ok (status, [])
  | status, item :: items => do
      let ids ← windows cfg (received (status.lookup item.rid) item) item
      let (status, rest) ← receiveAll (arrive cfg status item) items
      .ok (status, ids :: rest)

/-- The dictionary once an item's text is decided. A finished request is forgotten. -/
def settle (status : StatusDict ρ) (item : Item ρ) (s : DecodeStatus) (outputStr : List Char) :
    StatusDict ρ :=
  match item.finishedReason with
  | none => setOld status item.rid { s with sentOffset := outputStr.length }
  | some _ => erase status item.rid

/-- The second loop: the texts are turned into what is sent. -/
def emitAll : StatusDict ρ → List (Item ρ × (List Char × List Char)) →
    Except DetokenizerError (StatusDict ρ × List (List Char))
  | status, [] => .ok (status, [])
  | status, (item, readText, surrText) :: rest =>
      match status.lookup item.rid with
      | none => .error .statusNotFound
      | some s => do
          let (s', outputStr) := emit s item readText surrText
          let (status, outputs) ← emitAll (settle status item s' outputStr) rest
          .ok (status, outputStr.drop s.sentOffset :: outputs)

/-- `DetokenizerManager._decode_batch_token_id_output`. Decoding in groups of equal flags
decodes every window with its own item's flags. -/
def decodeBatchTokenIdOutput (status : StatusDict ρ) (items : List (Item ρ)) :
    Except DetokenizerError (StatusDict ρ × List (List Char)) := do
  let (status, ids) ← receiveAll cfg status items
  emitAll status (List.zipWith (fun item i => (item, texts cfg item i)) items ids)

/-- Batches one after the other, and the strings each of them returns. -/
def runBatches : StatusDict ρ → List (List (Item ρ)) →
    Except DetokenizerError (List (List (List Char)))
  | _, [] => .ok []
  | status, batch :: batches => do
      let (status, outputs) ← decodeBatchTokenIdOutput cfg status batch
      let rest ← runBatches status batches
      .ok (outputs :: rest)

end SpecDecode.Detokenizer
