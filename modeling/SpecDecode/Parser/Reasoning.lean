import SpecDecode.Lib.Strip

/-!
# The reasoning detector

`BaseReasoningFormatDetector` separates the reasoning of a model from its answer, once for
the whole text (`detectAndParse`) and increment by increment (`parseStreamingIncrement`).
A string is the list of its characters.
-/

namespace SpecDecode.Parser

def isSpace (c : Char) : Bool :=
  let n := c.toNat
  (9 ≤ n && n ≤ 13) || (28 ≤ n && n ≤ 32) || n == 0x85 || n == 0xa0 || n == 0x1680 ||
    (0x2000 ≤ n && n ≤ 0x200a) || n == 0x2028 || n == 0x2029 || n == 0x202f || n == 0x205f ||
    n == 0x3000

def removeFirst (g text : List Char) : List Char :=
  match cut g text with
  | some (x, y) => x ++ y
  | none => text

/-- `text.replace(g, "")`; the fuel bounds the number of occurrences. -/
def removeAllAux (g : List Char) : Nat → List Char → List Char
  | 0, text => text
  | fuel + 1, text =>
      match cut g text with
      | some (x, y) => x ++ removeAllAux g fuel y
      | none => text

def removeAll (g text : List Char) : List Char := removeAllAux g text.length text

structure StreamingParseResult where
  normalText : List Char
  reasoningText : List Char
deriving Repr, DecidableEq

structure Detector where
  thinkStartToken : List Char
  thinkEndToken : List Char
  toolStartToken : Option (List Char)
  streamReasoning : Bool
  thinkStartSelfLabel : List Char
  previousContent : List Char
  inReasoning : Bool
  strippedThinkStart : Bool
  buffer : List Char
deriving Repr, DecidableEq

/-- The arguments of the constructor that the configuration of a detector sets. -/
structure Config where
  thinkStartToken : List Char
  thinkEndToken : List Char
  toolStartToken : Option (List Char)
  forceReasoning : Bool
  streamReasoning : Bool
deriving Repr, DecidableEq

namespace Detector

/-- `__init__`; `previousContent` is there when a final message is continued. -/
def new (cfg : Config) (previousContent : List Char) : Detector where
  thinkStartToken := cfg.thinkStartToken
  thinkEndToken := cfg.thinkEndToken
  toolStartToken := cfg.toolStartToken
  streamReasoning := cfg.streamReasoning
  thinkStartSelfLabel := []
  previousContent := previousContent
  inReasoning :=
    if (cut cfg.thinkEndToken previousContent).isSome then false
    else if (cut cfg.thinkStartToken previousContent).isSome then true
    else cfg.forceReasoning
  strippedThinkStart := false
  buffer := []

def thinkStartText (d : Detector) : List Char := d.thinkStartToken ++ d.thinkStartSelfLabel

/-- `detect_and_parse`; `none` is the `ValueError` of a split at an empty tag. -/
def detectAndParse (d : Detector) (text : List Char) : Option StreamingParseResult :=
  if !(d.inReasoning || (cut d.thinkStartToken text).isSome) then some ⟨text, []⟩
  else
    let processedText := strip isSpace (removeAll d.thinkStartText text)
    match cut d.thinkEndToken processedText with
    | none =>
        if (cut d.thinkEndToken d.previousContent).isSome then some ⟨processedText, []⟩
        else
          match d.toolStartToken with
          | none => some ⟨[], processedText⟩
          | some tool =>
              match cut tool processedText with
              | some (reasoningText, rest) => some ⟨tool ++ rest, strip isSpace reasoningText⟩
              | none => some ⟨[], processedText⟩
    | some (reasoningText, normalText) =>
        if d.thinkEndToken = [] then none else some ⟨strip isSpace normalText, reasoningText⟩

def toolTag (d : Detector) : Option (List Char) :=
  d.toolStartToken.filter fun tool => decide (tool ≠ [])

def holds (d : Detector) (currentText : List Char) : Bool :=
  ([d.thinkStartText, d.thinkEndToken] ++ d.toolTag.toList).any fun token =>
    currentText.isPrefixOf token && token != currentText

/-- The reasoning part of an increment: the tags that end it, or more reasoning. -/
def continueReasoning (d : Detector) (currentText : List Char) : StreamingParseResult × Detector :=
  match cut d.thinkEndToken currentText with
  | some (reasoningText, normalText) =>
      (⟨normalText, rstrip isSpace reasoningText⟩, { d with buffer := [], inReasoning := false })
  | none =>
      match d.toolTag.bind fun tool => (cut tool currentText).map fun p => (p.1, tool ++ p.2) with
      | some (reasoningText, normalText) =>
          (⟨normalText, reasoningText⟩, { d with buffer := [], inReasoning := false })
      | none =>
          if d.streamReasoning then (⟨[], currentText⟩, { d with buffer := [] })
          else (⟨[], []⟩, d)

def parseStreamingIncrement (d : Detector) (newText : List Char) :
    StreamingParseResult × Detector :=
  let currentText := d.buffer ++ newText
  let d := { d with buffer := currentText }
  if d.holds currentText then (⟨[], []⟩, d)
  else if !d.strippedThinkStart && (cut d.thinkStartText currentText).isSome then
    continueReasoning { d with strippedThinkStart := true, inReasoning := true }
      (removeFirst d.thinkStartText currentText)
  else if d.inReasoning then continueReasoning d currentText
  else (⟨currentText, []⟩, { d with buffer := [] })

/-- The increments of a stream, with the texts they produce joined. -/
def feed (d : Detector) : List (List Char) → StreamingParseResult × Detector
  | [] => (⟨[], []⟩, d)
  | chunk :: chunks =>
      let (first, d) := d.parseStreamingIncrement chunk
      let (rest, d) := d.feed chunks
      (⟨first.normalText ++ rest.normalText, first.reasoningText ++ rest.reasoningText⟩, d)

/-- What a stream produces together with what is still buffered at its end. -/
def streamed (d : Detector) (chunks : List (List Char)) : StreamingParseResult :=
  let (result, d) := d.feed chunks
  if d.inReasoning then { result with reasoningText := result.reasoningText ++ d.buffer }
  else { result with normalText := result.normalText ++ d.buffer }

end Detector

end SpecDecode.Parser
