import Mathlib.Algebra.Order.Ring.Int
import Mathlib.Data.List.Infix
import Mathlib.Tactic.Common

/-!
# The loss mask of a conversation

`GeneralParser` renders a conversation to a text, finds the assistant's turns in it by a regular
expression and finds their tokens by encoding the text up to a border. A text is the list of its
characters, so that a slice is `take` and `drop`.
-/

namespace SpecDecode.Training.LossMask

abbrev Text := List Char

/-- The fields of `ChatTemplate` that `GeneralParser` reads. -/
structure ChatTemplate where
  assistantHeader : Option Text
  userHeader : Option Text
  systemPrompt : Option Text
  endOfTurnToken : Option Text
  assistantPatternType : String
  ignoreToken : Option (List Text)

inductive Role where
  | system
  | user
  | assistant
  | tool
  | other
deriving DecidableEq

structure Message where
  role : Role
  content : Text
deriving DecidableEq

/-- A tokenizer; `applyChatTemplate` is `none` where the method raises `ValueError` or
`TypeError`. -/
structure Tokenizer (τ : Type) where
  encode : Text → List τ
  bosToken : Option Text
  applyChatTemplate : List Message → Option Text

inductive ParseError where
  | indexError
  | typeError
  | stillRunning
deriving DecidableEq

inductive TurnEnd where
  | literal (word : Text)
  | round (isDecimal : Char → Bool)

namespace TurnEnd

def matchLength (rest : Text) : TurnEnd → Option Nat
  | .literal word => if word.isPrefixOf rest then some word.length else none
  | .round isDecimal =>
      let opening := "[Round ".toList
      let closing := "] USER:".toList
      let digits := (rest.drop opening.length).takeWhile isDecimal
      let behind := opening.length + digits.length
      if opening.isPrefixOf rest && !digits.isEmpty && closing.isPrefixOf (rest.drop behind) then
        some (behind + closing.length)
      else none

end TurnEnd

structure AssistantPattern where
  header : Text
  turnEnd : TurnEnd

/-- `set_assistant_pattern`. A missing header is formatted as `None`, and a missing token cannot be
escaped. -/
def setAssistantPattern (isDecimal : Char → Bool) (t : ChatTemplate) :
    Except ParseError AssistantPattern :=
  let assistantMessageSeparator := t.assistantHeader.getD "None".toList
  if t.assistantPatternType = "longcat" then
    .ok ⟨assistantMessageSeparator, .round isDecimal⟩
  else
    match t.endOfTurnToken with
    | some word => .ok ⟨assistantMessageSeparator, .literal word⟩
    | none => .error .typeError

namespace AssistantPattern

variable (p : AssistantPattern) (text : Text)

/-- `$`: the end of the text, or the line feed that ends it. -/
def atDollar (rest : Text) : Bool := rest.isEmpty || rest == ['\n']

/-- Where the group may end when its lazy part ends at `e`. -/
def endsAt (e : Nat) : List Nat :=
  ((p.turnEnd.matchLength (text.drop e)).toList.map (e + ·)) ++
    if atDollar (text.drop e) then [e] else []

/-- The end of the match that starts at `s`; where `mustAdvance` is set it may not be empty. -/
def matchAt (s : Nat) (mustAdvance : Bool) : Option Nat :=
  if p.header.isPrefixOf (text.drop s) then
    let start := s + p.header.length
    ((List.range' start (text.length + 1 - start)).flatMap (p.endsAt text)).find?
      fun e => !(mustAdvance && e == s)
  else none

/-- The next match from `pos` on. -/
def search (pos : Nat) (mustAdvance : Bool) : Option (Nat × Nat) :=
  (List.range' pos (text.length + 1 - pos)).findSome? fun s =>
    (p.matchAt text s (mustAdvance && s == pos)).map fun e => (s, e)

/-- The spans of the group in the matches of `re.finditer`; behind an empty match the next one
is not empty. -/
def finditer : Nat → Nat → Bool → List (Nat × Nat)
  | 0, _, _ => []
  | rounds + 1, pos, mustAdvance =>
      match p.search text pos mustAdvance with
      | none => []
      | some (s, e) => (s + p.header.length, e) :: finditer rounds e (e == s)

/-- All of them: a match moves on or is followed by one that does. -/
def allMatches : List (Nat × Nat) := p.finditer text (2 * text.length + 2) 0 false

end AssistantPattern

def takeOrdered : Option Role → List Message → List Message
  | _, [] => []
  | none, sentence :: rest =>
      if sentence.role ≠ .user then [] else sentence :: takeOrdered (some sentence.role) rest
  | some prevRole, sentence :: rest =>
      if sentence.role = .tool ∧ prevRole ∉ [Role.assistant, Role.tool] then []
      else if sentence.role = .assistant ∧ prevRole ∉ [Role.user, Role.tool] then []
      else sentence :: takeOrdered (some sentence.role) rest

/-- The `messages` of `parse`; the first message of an empty conversation raises. -/
def buildMessages (t : ChatTemplate) (conversation : List Message) :
    Except ParseError (List Message) :=
  match conversation with
  | [] => .error .indexError
  | first :: rest =>
      if first.role = .system then .ok (⟨.system, first.content⟩ :: takeOrdered none rest)
      else
        let systemPrompt := t.systemPrompt.getD []
        .ok ((if systemPrompt.isEmpty then [] else [⟨.system, systemPrompt⟩]) ++
          takeOrdered none (first :: rest))

def renderPart (t : ChatTemplate) (msg : Message) : Text :=
  match msg.role with
  | .system => msg.content
  | .user => t.userHeader.getD [] ++ msg.content
  | .assistant => t.assistantHeader.getD [] ++ (msg.content ++ t.endOfTurnToken.getD [])
  | _ => []

section Parse

variable {τ : Type} (tok : Tokenizer τ) (t : ChatTemplate)

def renderFallback (messages : List Message) : Text :=
  tok.bosToken.getD [] ++ messages.flatMap (renderPart t)

/-- The text of a conversation, by the chat template of the tokenizer if it has one. -/
def render (messages : List Message) : Text :=
  (tok.applyChatTemplate messages).getD (renderFallback tok t messages)

def setSlice (mask : List Nat) (start stop value : Nat) : List Nat :=
  mask.zipIdx.map fun x => if start ≤ x.2 ∧ x.2 < stop then value else x.1

variable (text : Text) (maxLength : Nat)

/-- `len(tokenizer.encode(text[:border], truncation=True, max_length=max_length))`. -/
def tokenIdx (border : Nat) : Nat := ((tok.encode (text.take border)).take maxLength).length

/-- Sets the mask for the tokens between two borders of the text. -/
def maskSpan (value : Nat) (mask : List Nat) (span : Nat × Nat) : List Nat :=
  let start := min (tokenIdx tok text maxLength span.1) mask.length
  let stop := min (tokenIdx tok text maxLength span.2) mask.length
  if start < stop then setSlice mask start stop value else mask

def find (word : Text) (start : Nat) : Option Nat :=
  (List.range' start (text.length + 1 - start)).find? fun idx => word.isPrefixOf (text.drop idx)

/-- The loop over the occurrences of one ignored token, for so many rounds. -/
def ignoreLoop (word : Text) : Nat → Nat → List Nat → Except ParseError (List Nat)
  | 0, _, _ => .error .stillRunning
  | rounds + 1, start, mask =>
      match find text word start with
      | none => .ok mask
      | some idx => ignoreLoop word rounds (idx + word.length)
          (maskSpan tok text maxLength 0 mask (idx, idx + word.length))

def parseText (rounds : Nat) (trainOnlyLastTurn : Bool) (pattern : AssistantPattern) :
    Except ParseError (List τ × List Nat) :=
  let inputIds := (tok.encode text).take maxLength
  let lossMask := List.replicate inputIds.length 0
  let spans := pattern.allMatches text
  let spans := if trainOnlyLastTurn then spans.getLast?.toList else spans
  let lossMask := spans.foldl (maskSpan tok text maxLength 1) lossMask
  ((t.ignoreToken.getD []).foldlM (fun mask word =>
    ignoreLoop tok text maxLength word rounds 0 mask) lossMask).map fun mask => (inputIds, mask)

end Parse

/-- `GeneralParser.parse` of a conversation that is not yet formatted. -/
def parse {τ : Type} (isDecimal : Char → Bool) (tok : Tokenizer τ) (t : ChatTemplate)
    (rounds : Nat) (conversation : List Message) (maxLength : Nat) (trainOnlyLastTurn : Bool) :
    Except ParseError (List τ × List Nat) := do
  let pattern ← setAssistantPattern isDecimal t
  let messages ← buildMessages t conversation
  parseText tok t (render tok t messages) maxLength rounds trainOnlyLastTurn pattern

end SpecDecode.Training.LossMask
