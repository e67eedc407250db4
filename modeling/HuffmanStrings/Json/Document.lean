/-!
JSON documents as trees, and how they are printed.
-/

namespace HuffmanStrings

namespace Json

/-- The content of a JSON string; `none` where an escape gives one half of a surrogate pair without the other,
so that the string spells no text. -/
abbrev Content := Option String

end Json

/-- A document. A number is kept as it is written, and an object as the list of its members. -/
inductive Json
  | null
  | bool (value : Bool)
  | number (lexeme : List Char)
  | string (content : Json.Content)
  | array (items : List Json)
  | object (members : List (Json.Content × Json))
  deriving Repr

namespace Json

def ofNat (n : Nat) : Json :=
  number (Nat.toDigits 10 n)

def text (s : String) : Json :=
  string (some s)

end Json

/-!
Printing a document with an item or member on each line, indented by two blanks for each level, and an empty
array or object closed on the spot.
-/

namespace Json

def hexQuad (n : Nat) : List Char :=
  [n / 4096 % 16, n / 256 % 16, n / 16 % 16, n % 16].map Nat.digitChar

def printChar (c : Char) : List Char :=
  match c with
  | '"' => ['\\', '"']
  | '\\' => ['\\', '\\']
  | '\x08' => ['\\', 'b']
  | '\x0c' => ['\\', 'f']
  | '\n' => ['\\', 'n']
  | '\r' => ['\\', 'r']
  | '\t' => ['\\', 't']
  | c => if c < ' ' then '\\' :: 'u' :: hexQuad c.toNat else [c]

/-- A string; one without a text is printed as a lone half of a surrogate pair. -/
def printString : Content → List Char
  | some s => '"' :: (s.toList.flatMap printChar ++ ['"'])
  | none => ['"', '\\', 'u'] ++ hexQuad 0xD800 ++ ['"']

def newline (depth : Nat) : List Char :=
  '\n' :: List.replicate (2 * depth) ' '

mutual

def print (depth : Nat) : Json → List Char
  | null => ['n', 'u', 'l', 'l']
  | bool true => ['t', 'r', 'u', 'e']
  | bool false => ['f', 'a', 'l', 's', 'e']
  | number lexeme => lexeme
  | string content => printString content
  | array [] => ['[', ']']
  | array (item :: items) =>
    '[' :: (newline (depth + 1) ++ print (depth + 1) item ++ printItems depth items)
  | object [] => ['{', '}']
  | object ((key, item) :: members) =>
    '{' :: (newline (depth + 1) ++ printString key ++ [':', ' '] ++ print (depth + 1) item ++
      printMembers depth members)

def printItems (depth : Nat) : List Json → List Char
  | [] => newline depth ++ [']']
  | item :: items =>
    ',' :: (newline (depth + 1) ++ print (depth + 1) item ++ printItems depth items)

def printMembers (depth : Nat) : List (Content × Json) → List Char
  | [] => newline depth ++ ['}']
  | (key, item) :: members =>
    ',' :: (newline (depth + 1) ++ printString key ++ [':', ' '] ++ print (depth + 1) item ++
      printMembers depth members)

end

def pretty (document : Json) : String :=
  String.ofList (print 0 document)

end Json

end HuffmanStrings
