import HuffmanStrings.Coder.Text
import HuffmanStrings.Text.Format

/-!
Codebooks. The lengths of a canonical code and its escape symbol say all about it, so they are what is stored
of a table, and a codebook holds both tables of a list coder.
-/

namespace HuffmanStrings

/-- The stored form of a code table. It may hold lengths that no code has. -/
structure StoredTable (α : Type) where
  entries : List (α × UInt8)
  escape : Option α
  deriving DecidableEq, Repr

namespace StoredTable

variable {α : Type}

def ofTable (table : CodeTable α) : StoredTable α where
  entries := table.lengths.map fun entry => (entry.1, UInt8.ofNat entry.2)
  escape := table.escape

def toTable [DecidableEq α] (stored : StoredTable α) : Except Failure (CodeTable α) :=
  CodeTable.ofLengths (stored.entries.map fun entry => (entry.1, entry.2.toNat)) stored.escape

end StoredTable

structure Codebook where
  characters : StoredTable Letter
  texts : StoredTable Phrase
  deriving DecidableEq, Repr

namespace Codebook

def ofCoder (coder : ListCoder) : Codebook where
  characters := .ofTable coder.texts.chars.table
  texts := .ofTable coder.texts.table

/-- The coder of a codebook; the table of characters is judged first. -/
def toCoder (book : Codebook) : Except Failure ListCoder := do
  let chars ← CharCoder.ofTable (← book.characters.toTable)
  return ⟨← TextCoder.ofTable (← book.texts.toTable) chars⟩

end Codebook

/-!
The binary form of codebooks. Numbers are little-endian: sequences and texts are preceded by their length in
eight bytes, alternatives by their number in four, and an optional value by a byte 0 or 1. A code length is one
byte, and a character its bytes in UTF-8. What follows a codebook is ignored.
-/

def littleEndian : Nat → Nat → List UInt8
  | 0, _ => []
  | count + 1, value => UInt8.ofNat value :: littleEndian count (value / 256)

def ofLittleEndian : List UInt8 → Nat
  | [] => 0
  | byte :: bytes => byte.toNat + 256 * ofLittleEndian bytes

namespace Binary

abbrev Reader := StateT (List UInt8) Option

def readByte : Reader UInt8
  | [] => none
  | byte :: bytes => some (byte, bytes)

def readBytes : Nat → Reader (List UInt8)
  | 0 => pure []
  | count + 1 => do
    let byte ← readByte
    let bytes ← readBytes count
    return byte :: bytes

def readNat (count : Nat) : Reader Nat :=
  ofLittleEndian <$> readBytes count

def readMany {α : Type} (read : Reader α) : Nat → Reader (List α)
  | 0 => pure []
  | count + 1 => do
    let value ← read
    let values ← readMany read count
    return value :: values

def writeList {α : Type} (write : α → List UInt8) (values : List α) : List UInt8 :=
  littleEndian 8 values.length ++ values.flatMap write

def readList {α : Type} (read : Reader α) : Reader (List α) := do
  readMany read (← readNat 8)

def writeOption {α : Type} (write : α → List UInt8) : Option α → List UInt8
  | none => [0]
  | some value => 1 :: write value

def readOption {α : Type} (read : Reader α) : Reader (Option α) := do
  match ← readByte with
  | 0 => return none
  | 1 => return some (← read)
  | _ => failure

def writeText (text : String) : List UInt8 :=
  littleEndian 8 (Utf8.encode text).length ++ Utf8.encode text

def readText : Reader String := do
  let bytes ← readBytes (← readNat 8)
  (Utf8.decode? bytes).elim failure pure

def readChar : Reader Char := do
  let first ← readByte
  let width ← (Utf8.width? first).elim failure pure
  let others ← readBytes (width - 1)
  (Utf8.decodeChar? (first :: others)).elim failure pure

class Form (α : Type) where
  write : α → List UInt8
  read : Reader α

instance : Form String where
  write := writeText
  read := readText

instance : Form Letter where
  write
    | .char c => littleEndian 4 0 ++ Utf8.encodeChar c
    | .escape => littleEndian 4 1
    | .endOfString => littleEndian 4 2
  read := do
    match ← readNat 4 with
    | 0 => return .char (← readChar)
    | 1 => return .escape
    | 2 => return .endOfString
    | _ => failure

instance : Form Phrase where
  write
    | .text s => littleEndian 4 0 ++ writeText s
    | .escape => littleEndian 4 1
  read := do
    match ← readNat 4 with
    | 0 => return .text (← readText)
    | 1 => return .escape
    | _ => failure

def writeEntry {α : Type} [Form α] (entry : α × UInt8) : List UInt8 :=
  Form.write entry.1 ++ [entry.2]

def readEntry {α : Type} [Form α] : Reader (α × UInt8) := do
  let symbol ← Form.read
  let length ← readByte
  return (symbol, length)

instance {α : Type} [Form α] : Form (StoredTable α) where
  write stored := writeList writeEntry stored.entries ++ writeOption Form.write stored.escape
  read := do
    let entries ← readList readEntry
    let escape ← readOption Form.read
    return { entries, escape }

instance : Form Codebook where
  write book := Form.write book.characters ++ Form.write book.texts
  read := do
    let characters ← Form.read
    let texts ← Form.read
    return { characters, texts }

def decode {α : Type} [Form α] (bytes : List UInt8) : Except Failure α :=
  match (Form.read : Reader α) bytes with
  | some (value, _) => .ok value
  | none => .error .malformedBinary

end Binary

namespace Codebook

def toBytes (book : Codebook) : List UInt8 :=
  Binary.Form.write book

def ofBytes (bytes : List UInt8) : Except Failure Codebook :=
  Binary.decode bytes

end Codebook

end HuffmanStrings
