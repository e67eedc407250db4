import HuffmanStrings.Json.Document

/-!
The tokens of JSON text. Blanks between tokens are skipped. Inside a string a control character has to be
escaped, and the two halves of an escaped surrogate pair make one character.
-/

namespace HuffmanStrings.Json

inductive Token
  | openBracket
  | closeBracket
  | openBrace
  | closeBrace
  | comma
  | colon
  | null
  | bool (value : Bool)
  | number (lexeme : List Char)
  | string (content : Content)
  deriving DecidableEq, Repr

def isBlank (c : Char) : Bool :=
  c = ' ' || c = '\n' || c = '\t' || c = '\r'

/-- What one character or escape of a string gives: a character, or half of a surrogate pair. -/
inductive Piece
  | char (c : Char)
  | half (value : Nat)
  deriving DecidableEq, Repr

namespace Piece

def isHigh (value : Nat) : Bool :=
  0xD800 ≤ value && value < 0xDC00

def isLow (value : Nat) : Bool :=
  0xDC00 ≤ value && value < 0xE000

def ofNumber (value : Nat) : Piece :=
  if isHigh value || isLow value then half value else char (Char.ofNat value)

def pair (high low : Nat) : Char :=
  Char.ofNat (0x10000 + (high - 0xD800) * 0x400 + (low - 0xDC00))

/-- The characters that pieces spell, if each half has its partner. -/
def join : List Piece → Option (List Char)
  | [] => some []
  | char c :: rest => (join rest).map (c :: ·)
  | half high :: half low :: rest =>
    if isHigh high && isLow low then (join rest).map (pair high low :: ·) else none
  | half _ :: _ => none

end Piece

def hexDigit? (c : Char) : Option Nat :=
  if '0' ≤ c ∧ c ≤ '9' then some (c.toNat - '0'.toNat)
  else if 'a' ≤ c ∧ c ≤ 'f' then some (c.toNat - 'a'.toNat + 10)
  else if 'A' ≤ c ∧ c ≤ 'F' then some (c.toNat - 'A'.toNat + 10)
  else none

def hexNumber? (digits : List Char) : Option Nat :=
  digits.foldlM (fun value c => (hexDigit? c).map (16 * value + ·)) 0

def shortEscape? : Char → Option Char
  | '"' => some '"'
  | '\\' => some '\\'
  | '/' => some '/'
  | 'b' => some '\x08'
  | 'f' => some '\x0c'
  | 'n' => some '\n'
  | 'r' => some '\r'
  | 't' => some '\t'
  | _ => none

/-- The pieces of a string up to its closing quote, and what follows the quote. -/
def scanString : List Char → Option (List Piece × List Char)
  | [] => none
  | '"' :: rest => some ([], rest)
  | '\\' :: 'u' :: a :: b :: c :: d :: rest => do
    let value ← hexNumber? [a, b, c, d]
    let (pieces, rest) ← scanString rest
    return (.ofNumber value :: pieces, rest)
  | '\\' :: letter :: rest => do
    let meant ← shortEscape? letter
    let (pieces, rest) ← scanString rest
    return (.char meant :: pieces, rest)
  | c :: rest =>
    if c < ' ' then none else (scanString rest).map fun (pieces, rest) => (.char c :: pieces, rest)

def scanDigits (s : List Char) : Option (List Char × List Char) :=
  match s.takeWhile Char.isDigit with
  | [] => none
  | digits => some (digits, s.dropWhile Char.isDigit)

def scanInteger : List Char → Option (List Char × List Char)
  | '0' :: rest => some (['0'], rest)
  | s => scanDigits s

def scanFraction : List Char → Option (List Char × List Char)
  | '.' :: rest => (scanDigits rest).map fun (digits, rest) => ('.' :: digits, rest)
  | s => some ([], s)

def scanSign : List Char → List Char × List Char
  | '+' :: rest => (['+'], rest)
  | '-' :: rest => (['-'], rest)
  | s => ([], s)

def scanExponent : List Char → Option (List Char × List Char)
  | [] => some ([], [])
  | c :: rest =>
    if c = 'e' ∨ c = 'E' then
      (scanDigits (scanSign rest).2).map fun (digits, after) => (c :: (scanSign rest).1 ++ digits, after)
    else some ([], c :: rest)

def scanMinus : List Char → List Char × List Char
  | '-' :: rest => (['-'], rest)
  | s => ([], s)

def scanNumber (s : List Char) : Option (List Char × List Char) := do
  let (integer, rest) ← scanInteger (scanMinus s).2
  let (fraction, rest) ← scanFraction rest
  let (exponent, rest) ← scanExponent rest
  return ((scanMinus s).1 ++ integer ++ fraction ++ exponent, rest)

def scan : List Char → Option (Token × List Char)
  | '[' :: rest => some (.openBracket, rest)
  | ']' :: rest => some (.closeBracket, rest)
  | '{' :: rest => some (.openBrace, rest)
  | '}' :: rest => some (.closeBrace, rest)
  | ',' :: rest => some (.comma, rest)
  | ':' :: rest => some (.colon, rest)
  | 'n' :: 'u' :: 'l' :: 'l' :: rest => some (.null, rest)
  | 't' :: 'r' :: 'u' :: 'e' :: rest => some (.bool true, rest)
  | 'f' :: 'a' :: 'l' :: 's' :: 'e' :: rest => some (.bool false, rest)
  | '"' :: rest => (scanString rest).map fun (pieces, rest) =>
    (.string ((Piece.join pieces).map String.ofList), rest)
  | s => (scanNumber s).map fun (lexeme, rest) => (.number lexeme, rest)

theorem length_scanString {s rest : List Char} {pieces : List Piece} (scanned : scanString s = some (pieces, rest)) :
    rest.length < s.length := by
  fun_induction scanString s generalizing pieces rest with
  | case1 => cases scanned
  | case2 => cases scanned; simp
  | case3 a b c d following ih =>
    simp only [Option.bind_eq_bind, Option.bind_eq_some_iff] at scanned
    obtain ⟨_, _, _, again, same⟩ := scanned
    cases same
    have := ih again
    simp only [List.length_cons]
    omega
  | case4 letter following _ ih =>
    simp only [Option.bind_eq_bind, Option.bind_eq_some_iff] at scanned
    obtain ⟨_, _, _, again, same⟩ := scanned
    cases same
    have := ih again
    simp only [List.length_cons]
    omega
  | case5 => cases scanned
  | case6 c following _ _ _ _ ih =>
    obtain ⟨_, again, same⟩ := Option.map_eq_some_iff.1 scanned
    cases same
    have := ih again
    simp only [List.length_cons]
    omega

theorem length_scanDigits {s digits rest : List Char} (scanned : scanDigits s = some (digits, rest)) :
    rest.length < s.length := by
  unfold scanDigits at scanned
  have whole := congrArg List.length (List.takeWhile_append_dropWhile (p := Char.isDigit) (l := s))
  split at scanned
  · cases scanned
  · rename_i found
    cases scanned
    have := List.length_pos_iff.2 found
    rw [List.length_append] at whole
    omega

theorem length_scanInteger {s digits rest : List Char} (scanned : scanInteger s = some (digits, rest)) :
    rest.length < s.length := by
  unfold scanInteger at scanned
  split at scanned
  · cases scanned; simp
  · exact length_scanDigits scanned

theorem length_scanFraction {s digits rest : List Char} (scanned : scanFraction s = some (digits, rest)) :
    rest.length ≤ s.length := by
  unfold scanFraction at scanned
  split at scanned
  · obtain ⟨_, found, same⟩ := Option.map_eq_some_iff.1 scanned
    cases same
    have := length_scanDigits found
    simp only [List.length_cons]
    omega
  · cases scanned; exact Nat.le_refl _

theorem length_scanSign (s : List Char) : (scanSign s).2.length ≤ s.length := by
  unfold scanSign
  split <;> simp

theorem length_scanMinus (s : List Char) : (scanMinus s).2.length ≤ s.length := by
  unfold scanMinus
  split <;> simp

theorem length_scanExponent {s digits rest : List Char} (scanned : scanExponent s = some (digits, rest)) :
    rest.length ≤ s.length := by
  unfold scanExponent at scanned
  split at scanned
  · cases scanned; exact Nat.le_refl _
  · rename_i c following
    split at scanned
    · obtain ⟨_, found, same⟩ := Option.map_eq_some_iff.1 scanned
      cases same
      have := length_scanDigits found
      have := length_scanSign following
      simp only [List.length_cons]
      omega
    · cases scanned; exact Nat.le_refl _

theorem length_scanNumber {s lexeme rest : List Char} (scanned : scanNumber s = some (lexeme, rest)) :
    rest.length < s.length := by
  simp only [scanNumber, Option.bind_eq_bind, Option.bind_eq_some_iff] at scanned
  obtain ⟨⟨_, r₁⟩, first, ⟨_, r₂⟩, second, ⟨_, r₃⟩, third, same⟩ := scanned
  cases same
  have := length_scanInteger first
  have := length_scanFraction second
  have := length_scanExponent third
  have := length_scanMinus s
  dsimp only at *
  omega

theorem length_scan {s rest : List Char} {token : Token} (scanned : scan s = some (token, rest)) :
    rest.length < s.length := by
  unfold scan at scanned
  split at scanned
  case h_10 =>
    obtain ⟨_, found, same⟩ := Option.map_eq_some_iff.1 scanned
    cases same
    have := length_scanString found
    simp only [List.length_cons]
    omega
  case h_11 =>
    obtain ⟨_, found, same⟩ := Option.map_eq_some_iff.1 scanned
    cases same
    exact length_scanNumber found
  all_goals
    cases scanned
    simp only [List.length_cons]
    omega

def tokens? : List Char → Option (List Token)
  | [] => some []
  | c :: text =>
    if isBlank c then tokens? text
    else match _scanned : scan (c :: text) with
      | none => none
      | some (token, rest) => (tokens? rest).map (token :: ·)
termination_by text => text.length
decreasing_by
  · exact Nat.lt_add_one _
  · exact length_scan ‹_›

end HuffmanStrings.Json
