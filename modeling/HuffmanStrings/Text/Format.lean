/-!
Texts as lines, as bytes and as fields of a table. A line ends at a newline, and a carriage return just before the
newline belongs to the end of the line. After the last newline there is a line only if anything is there.
-/

namespace HuffmanStrings

namespace Text

def splitLines : List Char → List (List Char)
  | [] => []
  | '\n' :: rest => [] :: splitLines rest
  | '\r' :: '\n' :: rest => [] :: splitLines rest
  | c :: rest =>
    match splitLines rest with
    | [] => [[c]]
    | line :: lines => (c :: line) :: lines

def lines (text : String) : List String :=
  (splitLines text.toList).map String.ofList

def unlines (lines : List String) : String :=
  String.join (lines.map fun line => line.push '\n')

end Text

/-! Texts as bytes, in UTF-8. -/

namespace Utf8

def encode (text : String) : List UInt8 :=
  text.toUTF8.data.toList

def decode? (bytes : List UInt8) : Option String :=
  String.fromUTF8? bytes.toByteArray

/-- The number of bytes of a character that begins with the byte `first`. -/
def width? (first : UInt8) : Option Nat :=
  if first < 0x80 then some 1
  else if first < 0xC0 then none
  else if first < 0xE0 then some 2
  else if first < 0xF0 then some 3
  else if first < 0xF8 then some 4
  else none

def encodeChar (c : Char) : List UInt8 :=
  String.utf8EncodeChar c

def decodeChar? (bytes : List UInt8) : Option Char :=
  match (decode? bytes).map String.toList with
  | some [c] => some c
  | _ => none

end Utf8

/-!
Comma-separated values. Rows end with a newline, and a field that holds a comma, a quote or the end of a line
stands in quotes, its own quotes written twice.
-/

namespace Csv

def needsQuotes (field : String) : Bool :=
  field.toList.any fun c => c = ',' || c = '"' || c = '\n' || c = '\r'

def field (text : String) : String :=
  if needsQuotes text then
    String.ofList ('"' :: (text.toList.flatMap fun c => if c = '"' then ['"', '"'] else [c]) ++ ['"'])
  else
    text

def row (fields : List String) : String :=
  (",".intercalate (fields.map field)).push '\n'

end Csv

end HuffmanStrings
