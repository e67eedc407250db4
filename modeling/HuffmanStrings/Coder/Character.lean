import HuffmanStrings.Code.Canonical
import HuffmanStrings.Code.Table
import HuffmanStrings.Coder.Delivery

/-!
Coding characters. A character of the table is written as its word, any other as the escape word followed by its
number in 21 bits, so that every character can be written. A text ends with a word of its own. The bounds on the lengths
of the words are settings, with which a coder is trained.
-/

namespace HuffmanStrings

structure Settings where
  maximum : Nat := 16
  minimum : Nat := 1
  deriving DecidableEq, Repr

namespace Settings

structure Valid (s : Settings) : Prop where
  minimum_pos : 1 ≤ s.minimum
  minimum_le : s.minimum ≤ s.maximum
  maximum_le : s.maximum ≤ maximumCodeLength

def check (s : Settings) : Except Failure Unit :=
  if s.maximum = 0 ∨ maximumCodeLength < s.maximum then
    .error (.invalidBounds (.settingsMaximum s.maximum))
  else if s.minimum = 0 ∨ s.maximum < s.minimum then
    .error (.invalidBounds (.settingsMinimum s.minimum s.maximum))
  else
    .ok ()

end Settings

inductive Letter
  | char (c : Char)
  | escape
  | endOfString
  deriving DecidableEq, Repr

/-- The width of an escaped character. -/
def literalWidth : Nat := 21

structure CharCoder where
  table : CodeTable Letter
  escapeWord : CodeWord
  endWord : CodeWord
  escape_eq : table.escape = some .escape
  escapeWord_eq : table.codeOf .escape = some escapeWord
  endWord_eq : table.codeOf .endOfString = some endWord
  deriving DecidableEq

namespace CharCoder

/-- Accepts a table whose escape symbol is the escape, and that has a word for the end of a text. -/
def ofTable (table : CodeTable Letter) : Except Failure CharCoder :=
  if escape_eq : table.escape = some .escape then
    match escapeWord_eq : table.codeOf .escape with
    | none => .error (.invalidTable .characterEscapeMissing)
    | some escapeWord => match endWord_eq : table.codeOf .endOfString with
      | none => .error (.invalidTable .characterEndMissing)
      | some endWord => .ok { table, escapeWord, endWord, escape_eq, escapeWord_eq, endWord_eq }
  else
    .error (.invalidTable .characterEscape)

def ofFrequencies (frequencies : List (Char × UInt64)) (texts : UInt64) (settings : Settings) :
    Except Failure CharCoder := do
  settings.check
  if frequencies.isEmpty then throw .emptyAlphabet
  let letters := frequencies.map (fun entry => (Letter.char entry.1, entry.2)) ++ [(.endOfString, texts)]
  let ranking ← Ranking.build letters (some .escape) settings.minimum
  ofTable (← CodeTable.build ranking settings.maximum)

def countCharacters (samples : List String) : Counter Char :=
  samples.foldl (fun counter sample => counter.addAll sample.toList) {}

def train (samples : List String) (settings : Settings) : Except Failure CharCoder :=
  ofFrequencies (countCharacters samples).counts (UInt64.ofNat (max samples.length 1)) settings

def contains (coder : CharCoder) (c : Char) : Bool :=
  coder.table.contains (.char c)

def charLength (coder : CharCoder) (c : Char) : Nat :=
  match coder.table.codeOf (.char c) with
  | some word => word.length
  | none => coder.escapeWord.length + literalWidth

def charsLength (coder : CharCoder) : List Char → Nat
  | [] => 0
  | c :: cs => coder.charLength c + coder.charsLength cs

def textLength (coder : CharCoder) (text : String) : Nat :=
  coder.charsLength text.toList + coder.endWord.length

section Encoding

variable {σ ω : Type} [BitOutput σ] [Observer ω]

def encodeChar (coder : CharCoder) (c : Char) : EStateM Failure (Session σ ω) Unit :=
  match coder.table.codeOf (.char c) with
  | some word => do
    Session.onMedium word.writeTo
    Session.note (.encoded word.length false)
  | none => do
    Session.onMedium coder.escapeWord.writeTo
    Session.onMedium (BitOutput.write c.val.toUInt64 literalWidth)
    Session.note (.encoded (coder.escapeWord.length + literalWidth) true)

def encodeEnd (coder : CharCoder) : EStateM Failure (Session σ ω) Unit := do
  Session.onMedium coder.endWord.writeTo
  Session.note (.encoded coder.endWord.length false)

def encodeChars (coder : CharCoder) : List Char → EStateM Failure (Session σ ω) Unit
  | [] => pure ()
  | c :: cs => do
    coder.encodeChar c
    coder.encodeChars cs

def encodeText (coder : CharCoder) (text : String) : EStateM Failure (Session σ ω) Unit := do
  coder.encodeChars text.toList
  coder.encodeEnd

def encodeFrom {π : Type} (coder : CharCoder) (producer : Producer π Char) :
    EStateM Failure (Session σ ω × π) Unit :=
  producer.feed coder.encodeChar

end Encoding

section Decoding

variable {σ ω : Type} [BitInput σ] [Observer ω]

def literal? (value : UInt64) : Option Char :=
  if valid : value.toNat.isValidChar then some (Char.ofNatAux value.toNat valid) else none

def decodeLiteral (word : CodeWord) : EStateM Failure (Session σ ω) Char := do
  let value ← Session.onMedium (BitInput.read literalWidth)
  match literal? value with
  | some c =>
    Session.note (.decoded (word.length + literalWidth) true)
    return c
  | none => throw (.invalidLiteral value.toNat)

def finish (entry : Letter × CodeWord) : EStateM Failure (Session σ ω) (Option Char) :=
  match entry.1 with
  | .char c => do
    Session.note (.decoded entry.2.length false)
    return some c
  | .endOfString => do
    Session.note (.decoded entry.2.length false)
    return none
  | .escape => some <$> decodeLiteral entry.2

/-- Reads one character, or `none` for the end of a text. -/
def decodeChar (coder : CharCoder) : EStateM Failure (Session σ ω) (Option Char) := do
  finish (← Session.onMedium coder.table.decode)

theorem keeps_decodeLiteral (word : CodeWord) :
    Keeps Session.remaining (decodeLiteral word : EStateM Failure (Session σ ω) Char) := by
  unfold decodeLiteral
  refine .bind (Session.keeps_onMedium fun _ _ _ done => Nat.le_of_lt (BitInput.remaining_read done)) fun value => ?_
  split
  · exact .bind (Session.keeps_note _) fun _ => .pure _
  · exact .throw _

theorem keeps_finish (entry : Letter × CodeWord) :
    Keeps Session.remaining (finish entry : EStateM Failure (Session σ ω) (Option Char)) := by
  unfold finish
  split
  · exact .bind (Session.keeps_note _) fun _ => .pure _
  · exact .bind (Session.keeps_note _) fun _ => .pure _
  · exact .map (keeps_decodeLiteral _) _

theorem consumes_decodeChar (coder : CharCoder) :
    Consumes Session.remaining (coder.decodeChar : EStateM Failure (Session σ ω) (Option Char)) :=
  .bind (Session.consumes_onMedium fun _ _ _ done => CodeTable.remaining_decode done) keeps_finish

/-- The characters up to an end, which must come. -/
def tokens (coder : CharCoder) : Decoder (Session σ ω) Char where
  next := coder.decodeChar
  left := Session.remaining
  progress := consumes_decodeChar coder _ _ _

/-- The characters up to an end or the last bit. -/
def chars (coder : CharCoder) : Decoder (Session σ ω) Char :=
  .untilExhausted coder.decodeChar (consumes_decodeChar coder)

def writer : Consumer String Char where
  accept _ c text := (.more, text.push c)

def decodeText (coder : CharCoder) : EStateM Failure (Session σ ω) String :=
  coder.tokens.run writer ""

theorem keeps_decodeText (coder : CharCoder) :
    Keeps Session.remaining (coder.decodeText : EStateM Failure (Session σ ω) String) :=
  Decoder.keeps_run _ _ _ coder.consumes_decodeChar.keeps

end Decoding

end CharCoder

end HuffmanStrings
