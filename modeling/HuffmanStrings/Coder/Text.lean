import HuffmanStrings.Bits.Store
import HuffmanStrings.Coder.Character

/-!
Coding texts. A text of the vocabulary is written as its word, any other as the escape word followed by its
characters and their end. The words of texts are kept apart from the table, to be found without wrapping the text up
as a symbol.
-/

namespace HuffmanStrings

inductive Phrase
  | text (s : String)
  | escape
  deriving DecidableEq, Repr

/-- The texts among the symbols of a table, with their words. -/
def CodeTable.vocabulary (t : CodeTable Phrase) : List (String × CodeWord) :=
  t.codes.filterMap fun
    | (.text s, word) => some (s, word)
    | (.escape, _) => none

structure TextCoder where
  table : CodeTable Phrase
  escapeWord : CodeWord
  chars : CharCoder
  escape_eq : table.escape = some .escape
  escapeWord_eq : table.codeOf .escape = some escapeWord
  words : List (String × CodeWord) := table.vocabulary
  words_eq : words = table.vocabulary := by rfl
  deriving DecidableEq

namespace TextCoder

def ofTable (table : CodeTable Phrase) (chars : CharCoder) : Except Failure TextCoder :=
  if escape_eq : table.escape = some .escape then
    match escapeWord_eq : table.codeOf .escape with
    | none => .error (.invalidTable .textEscapeMissing)
    | some escapeWord => .ok { table, escapeWord, chars, escape_eq, escapeWord_eq }
  else
    .error (.invalidTable .textEscape)

def ofFrequencies (frequencies : List (String × UInt64)) (chars : CharCoder) (settings : Settings) :
    Except Failure TextCoder := do
  settings.check
  if frequencies.isEmpty then throw .emptyAlphabet
  let phrases := frequencies.map fun entry => (Phrase.text entry.1, entry.2)
  let ranking ← Ranking.build phrases (some .escape) settings.minimum
  ofTable (← CodeTable.build ranking settings.maximum) chars

def train (samples : List String) (chars : CharCoder) (settings : Settings) : Except Failure TextCoder :=
  ofFrequencies (Counter.ofList samples).counts chars settings

def wordOf (coder : TextCoder) (text : String) : Option CodeWord :=
  coder.words.lookup text

def contains (coder : TextCoder) (text : String) : Bool :=
  (coder.wordOf text).isSome

def textLength (coder : TextCoder) (text : String) : Nat :=
  match coder.wordOf text with
  | some word => word.length
  | none => coder.escapeWord.length + coder.chars.textLength text

def textsLength (coder : TextCoder) : List String → Nat
  | [] => 0
  | text :: texts => coder.textLength text + coder.textsLength texts

section Encoding

variable {σ ω : Type} [BitOutput σ] [Observer ω]

def encodeText (coder : TextCoder) (text : String) : EStateM Failure (Session σ ω) Unit :=
  match coder.wordOf text with
  | some word => do
    Session.onMedium word.writeTo
    Session.note (.encoded word.length false)
  | none => do
    Session.onMedium coder.escapeWord.writeTo
    Session.note (.encoded coder.escapeWord.length true)
    coder.chars.encodeText text

def encodeTexts (coder : TextCoder) : List String → EStateM Failure (Session σ ω) Unit
  | [] => pure ()
  | text :: texts => do
    coder.encodeText text
    coder.encodeTexts texts

def encodeFrom {π : Type} (coder : TextCoder) (producer : Producer π String) :
    EStateM Failure (Session σ ω × π) Unit :=
  producer.feed coder.encodeText

end Encoding

section Decoding

variable {σ ω : Type} [BitInput σ] [Observer ω]

def finish (coder : TextCoder) (entry : Phrase × CodeWord) : EStateM Failure (Session σ ω) String :=
  match entry.1 with
  | .text text => do
    Session.note (.decoded entry.2.length false)
    return text
  | .escape => do
    Session.note (.decoded entry.2.length true)
    coder.chars.decodeText

def decodeText (coder : TextCoder) : EStateM Failure (Session σ ω) String := do
  coder.finish (← Session.onMedium coder.table.decode)

theorem keeps_finish (coder : TextCoder) (entry : Phrase × CodeWord) :
    Keeps Session.remaining (coder.finish entry : EStateM Failure (Session σ ω) String) := by
  unfold finish
  split
  · exact .bind (Session.keeps_note _) fun _ => .pure _
  · exact .bind (Session.keeps_note _) fun _ => coder.chars.keeps_decodeText

theorem consumes_decodeText (coder : TextCoder) :
    Consumes Session.remaining (coder.decodeText : EStateM Failure (Session σ ω) String) :=
  .bind (Session.consumes_onMedium fun _ _ _ done => CodeTable.remaining_decode done) coder.keeps_finish

def texts (coder : TextCoder) : Decoder (Session σ ω) String :=
  .untilExhausted (some <$> coder.decodeText) (coder.consumes_decodeText.map some)

end Decoding

end TextCoder

/-!
Lists of texts, written one after another into a bit store of their own. No count is written: a list is read
from the first bit of its input, and the reader says how many texts it wants.
-/

/-- Runs an encoding into a fresh store, which is left at its first bit. -/
def encodeFresh {ω : Type} (encode : EStateM Failure (Session BitStore ω) Unit) : EStateM Failure ω BitStore :=
  fun observer =>
    match encode ⟨.empty, observer⟩ with
    | .ok _ s => .ok s.medium.rewound s.observer
    | .error failure s => .error failure s.observer

structure ListCoder where
  texts : TextCoder
  deriving DecidableEq

namespace ListCoder

def listLength (coder : ListCoder) (items : List String) : Nat :=
  coder.texts.textsLength items

def encodeList {ω : Type} [Observer ω] (coder : ListCoder) (items : List String) : EStateM Failure ω BitStore :=
  encodeFresh (coder.texts.encodeTexts items)

def encodeFrom {σ ω π : Type} [BitOutput σ] [Observer ω] (coder : ListCoder) (producer : Producer π String) :
    EStateM Failure (Session σ ω × π) Unit :=
  producer.feed coder.texts.encodeText

section Decoding

variable {σ ω κ : Type} [BitInput σ] [Observer ω]

/-- Delivers the texts of an input from its first bit on; the answer is their number. -/
def deliver (coder : ListCoder) (consumer : Consumer κ String) : EStateM Failure (Session σ ω × κ) Nat :=
  fun (s, kept) =>
    match Session.onMedium BitInput.rewind s with
    | .ok _ s' => coder.texts.texts.deliver consumer (s', kept)
    | .error failure s' => .error failure (s', kept)

/-- The first `limit` texts of an input, or all of them. Asking for none moves nothing. -/
def collect (coder : ListCoder) (limit : Option Nat) : EStateM Failure (Session σ ω) (List String) :=
  if limit = some 0 then
    pure []
  else do
    Session.onMedium BitInput.rewind
    coder.texts.texts.collect limit

end Decoding

def decodeList {ω : Type} [Observer ω] (coder : ListCoder) (count : Nat) :
    EStateM Failure (Session BitStore ω) (List String) :=
  coder.collect (some count)

end ListCoder

end HuffmanStrings
