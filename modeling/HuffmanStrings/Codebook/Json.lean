import HuffmanStrings.Codebook.Basic
import HuffmanStrings.Json.Document
import HuffmanStrings.Json.Reader

/-!
The JSON form of codebooks, settings and frequencies.
-/

namespace HuffmanStrings

namespace Json

class Form (α : Type) where
  toJson : α → Json
  ofJson? : Json → Option α

instance : Form Letter where
  toJson
    | .char c => .object [(some "Char", .text (String.singleton c))]
    | .escape => .text "Escape"
    | .endOfString => .text "EndOfString"
  ofJson? document := do
    match ← document.variant? with
    | ("Char", some value) => match (← value.text?).toList with
      | [c] => return .char c
      | _ => none
    | ("Escape", value) => if isBare value then return .escape else none
    | ("EndOfString", value) => if isBare value then return .endOfString else none
    | _ => none

instance : Form Phrase where
  toJson
    | .text s => .object [(some "Word", .text s)]
    | .escape => .text "Escape"
  ofJson? document := do
    match ← document.variant? with
    | ("Word", some value) => return .text (← value.text?)
    | ("Escape", value) => if isBare value then return .escape else none
    | _ => none

def ofEntry {α : Type} [Form α] (entry : α × UInt8) : Json :=
  .array [Form.toJson entry.1, .ofNat entry.2.toNat]

def entry? {α : Type} [Form α] : Json → Option (α × UInt8)
  | array [symbol, length] => do
    let symbol ← Form.ofJson? symbol
    let length ← length.nat? 255
    return (symbol, UInt8.ofNat length)
  | _ => none

def ofOption {α : Type} [Form α] : Option α → Json
  | none => null
  | some value => Form.toJson value

def option? {α : Type} [Form α] : Json → Option (Option α)
  | null => some none
  | document => some <$> Form.ofJson? document

instance {α : Type} [Form α] : Form (StoredTable α) where
  toJson stored := .object [
    (some "entries", .array (stored.entries.map ofEntry)),
    (some "escape", ofOption stored.escape)]
  ofJson? document := do
    match ← document.fields? ["entries", "escape"] with
    | [some entries, escape] =>
      let entries ← (← entries.items?).mapM entry?
      let escape ← option? (escape.getD null)
      return { entries, escape }
    | _ => none

instance : Form Codebook where
  toJson book := .object [
    (some "characters", Form.toJson book.characters),
    (some "strings", Form.toJson book.texts)]
  ofJson? document := do
    match ← document.fields? ["characters", "strings"] with
    | [some characters, some texts] =>
      return { characters := ← Form.ofJson? characters, texts := ← Form.ofJson? texts }
    | _ => none

def decode {α : Type} (ofJson? : Json → Option α) (text : String) : Except Failure α :=
  match (parse? text).bind ofJson? with
  | some value => .ok value
  | none => .error .malformedJson

def length? (default : Nat) : Option Json → Option Nat
  | none => some default
  | some document => document.nat? 255

/-- Settings; what is missing is left at its default, and nothing else may be there. -/
def settings? : Json → Option Settings
  | array items =>
    if items.length ≤ 2 then do
      return {
        maximum := ← length? ({} : Settings).maximum items[0]?
        minimum := ← length? ({} : Settings).minimum items[1]? }
    else none
  | document => do
    let members ← document.members?
    if members.all fun member => member.1 ∈ ["maximum_length", "minimum_length"] then
      return {
        maximum := ← length? ({} : Settings).maximum (← lookup? "maximum_length" members)
        minimum := ← length? ({} : Settings).minimum (← lookup? "minimum_length" members) }
    else none

def frequency? (member : String × Json) : Option (String × UInt64) :=
  (member.2.nat? (UInt64.size - 1)).map fun count => (member.1, UInt64.ofNat count)

/-- Puts a frequency in its place by the order of texts, instead of an earlier one of the same text. -/
def insertFrequency (entry : String × UInt64) : List (String × UInt64) → List (String × UInt64)
  | [] => [entry]
  | head :: rest =>
    if entry.1 < head.1 then entry :: head :: rest
    else if entry.1 = head.1 then entry :: rest
    else head :: insertFrequency entry rest

/-- The frequencies of texts, in the order of the texts; of several for one text the last counts. -/
def frequencies? (document : Json) : Option (List (String × UInt64)) := do
  let entries ← (← document.members?).mapM frequency?
  return entries.foldl (fun sorted entry => insertFrequency entry sorted) []

end Json

namespace Codebook

def toJson (book : Codebook) : String :=
  (Json.Form.toJson book).pretty

def ofJson (text : String) : Except Failure Codebook :=
  Json.decode Json.Form.ofJson? text

end Codebook

namespace Settings

def ofJson (text : String) : Except Failure Settings := do
  let settings ← Json.decode Json.settings? text
  settings.check
  return settings

end Settings

end HuffmanStrings
