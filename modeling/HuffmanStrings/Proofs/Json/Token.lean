import Mathlib
import HuffmanStrings.Json.Document
import HuffmanStrings.Json.Token

/-!
The tokens of printed text. A string is scanned back from its escapes, whatever characters it has, and a number
from its digits, as long as what follows does not go on with it.
-/

namespace HuffmanStrings.Json

section Strings

theorem hexDigit?_digitChar {n : Nat} (small : n < 16) : hexDigit? (Nat.digitChar n) = some n := by
  interval_cases n <;> rfl

theorem hexNumber?_hexQuad {n : Nat} (small : n < 2 ^ 16) : hexNumber? (hexQuad n) = some n := by
  have digit (m : Nat) : hexDigit? (Nat.digitChar (m % 16)) = some (m % 16) :=
    hexDigit?_digitChar (Nat.mod_lt m (by decide))
  simp only [hexNumber?, hexQuad, List.map_cons, List.map_nil, List.foldlM_cons, List.foldlM_nil, digit,
    Option.map_some, Option.bind_eq_bind, Option.bind_some, Option.pure_def, Option.some_inj]
  omega

def followed (piece : Piece) (scanned : Option (List Piece × List Char)) : Option (List Piece × List Char) :=
  scanned.map fun (pieces, rest) => (piece :: pieces, rest)

theorem scanString_short {letter meant : Char} (known : shortEscape? letter = some meant) (rest : List Char) :
    scanString ('\\' :: letter :: rest) = followed (.char meant) (scanString rest) := by
  have other : letter ≠ 'u' := by
    rintro rfl
    cases known
  rw [scanString, known]
  · cases scanString rest <;> rfl
  · exact fun _ _ _ _ _ same _ => other same

theorem scanString_hexQuad {n : Nat} (small : n < 2 ^ 16) (rest : List Char) :
    scanString ('\\' :: 'u' :: (hexQuad n ++ rest)) = followed (.ofNumber n) (scanString rest) := by
  have number := hexNumber?_hexQuad small
  simp only [hexQuad, List.map_cons, List.map_nil] at number
  simp only [hexQuad, List.map_cons, List.map_nil, List.cons_append, List.nil_append, scanString, number]
  cases scanString rest <;> rfl

theorem scanString_plain {c : Char} (quote : c ≠ '"') (backslash : c ≠ '\\') (printable : ¬c < ' ') (rest : List Char) :
    scanString (c :: rest) = followed (.char c) (scanString rest) := by
  rw [scanString, if_neg printable]
  · rfl
  · exact quote
  · exact fun _ _ _ _ _ same => absurd same backslash
  · exact fun _ _ same => absurd same backslash

theorem scanString_printChar (c : Char) (rest : List Char) :
    scanString (printChar c ++ rest) = followed (.char c) (scanString rest) := by
  unfold printChar
  split
  case h_8 quote backslash _ _ _ _ _ =>
    split
    case isTrue control =>
      have small : c.toNat < 32 := control
      have number : Piece.ofNumber c.toNat = .char c := by
        have plain : (Piece.isHigh c.toNat || Piece.isLow c.toNat) = false := by
          simp only [Piece.isHigh, Piece.isLow, Bool.or_eq_false_iff, Bool.and_eq_false_iff, decide_eq_false_iff_not]
          omega
        simp only [Piece.ofNumber, plain, Bool.false_eq_true, if_false, Char.ofNat_toNat]
      rw [← number]
      exact scanString_hexQuad (small.trans (by decide)) rest
    case isFalse printable => exact scanString_plain quote backslash printable rest
  all_goals exact scanString_short rfl rest

theorem scanString_printed (cs rest : List Char) :
    scanString (cs.flatMap printChar ++ '"' :: rest) = some (cs.map Piece.char, rest) := by
  induction cs with
  | nil => rfl
  | cons c cs ih =>
    rw [List.flatMap_cons, List.append_assoc, scanString_printChar, ih]
    rfl

theorem join_map_char (cs : List Char) : Piece.join (cs.map Piece.char) = some cs := by
  induction cs with
  | nil => rfl
  | cons c cs ih =>
    rw [List.map_cons, Piece.join, ih]
    rfl

theorem scan_quote {s rest : List Char} {pieces : List Piece} (scanned : scanString s = some (pieces, rest)) :
    scan ('"' :: s) = some (.string ((Piece.join pieces).map String.ofList), rest) := by
  rw [scan, scanned]
  rfl

/-- A string is scanned back, also one that spells no text. -/
theorem scan_printString (content : Content) (rest : List Char) :
    scan (printString content ++ rest) = some (.string content, rest) := by
  cases content with
  | some s =>
    have scanned := scan_quote (scanString_printed s.toList rest)
    rw [join_map_char, Option.map_some, String.ofList_toList] at scanned
    rwa [printString, List.cons_append, List.append_assoc]
  | none => exact scan_quote (scanString_hexQuad (by decide) ('"' :: rest))

end Strings

section Numbers

/-- What may come behind a number: nothing that goes on with it. -/
def Apart (rest : List Char) : Prop :=
  ∀ c ∈ rest.head?, c.isDigit = false ∧ c ≠ '.' ∧ c ≠ 'e' ∧ c ≠ 'E'

theorem Apart.takeWhile {rest : List Char} (apart : Apart rest) :
    rest.takeWhile Char.isDigit = [] ∧ rest.dropWhile Char.isDigit = rest := by
  cases rest with
  | nil => exact ⟨rfl, rfl⟩
  | cons c rest =>
    have other : c.isDigit = false := (apart c rfl).1
    simp [other]

theorem scanDigits_append {digits rest : List Char} (nonempty : digits ≠ []) (all : ∀ c ∈ digits, c.isDigit = true)
    (apart : Apart rest) : scanDigits (digits ++ rest) = some (digits, rest) := by
  have taken : (digits ++ rest).takeWhile Char.isDigit = digits := by
    rw [List.takeWhile_append_of_pos all, apart.takeWhile.1, List.append_nil]
  have left : (digits ++ rest).dropWhile Char.isDigit = rest := by
    rw [List.dropWhile_append_of_pos all, apart.takeWhile.2]
  rw [scanDigits, taken, left]
  split
  · exact absurd rfl nonempty
  · rfl

theorem isDigit_of_mem_toDigits {n : Nat} : ∀ c ∈ Nat.toDigits 10 n, c.isDigit = true := fun _ member =>
  Nat.isDigit_of_mem_toDigits (by decide) (by decide) member

theorem head?_toDigits {n : Nat} (positive : 0 < n) : (Nat.toDigits 10 n).head? ≠ some '0' := by
  induction n using Nat.strong_induction_on with
  | h n ih =>
    rw [Nat.toDigits_eq_if (by decide)]
    split
    · rw [List.head?_cons, ne_eq, Option.some_inj, Nat.digitChar_eq_zero]
      omega
    · have first := ih (n / 10) (by omega) (by omega)
      cases digits : Nat.toDigits 10 (n / 10) with
      | nil => exact absurd digits Nat.toDigits_ne_nil
      | cons c others =>
        rw [digits] at first
        exact first

theorem scanInteger_toDigits (n : Nat) {rest : List Char} (apart : Apart rest) :
    scanInteger (Nat.toDigits 10 n ++ rest) = some (Nat.toDigits 10 n, rest) := by
  have digits := scanDigits_append (Nat.toDigits_ne_nil (b := 10) (n := n)) isDigit_of_mem_toDigits apart
  rcases Nat.eq_zero_or_pos n with rfl | positive
  · rfl
  · unfold scanInteger
    split
    · rename_i spelled
      have first := head?_toDigits positive
      cases toDigits : Nat.toDigits 10 n with
      | nil => exact absurd toDigits Nat.toDigits_ne_nil
      | cons c others =>
        rw [toDigits, List.cons_append, List.cons.injEq] at spelled
        rw [toDigits, spelled.1] at first
        exact absurd rfl first
    · exact digits

theorem scanFraction_apart {rest : List Char} (apart : Apart rest) : scanFraction rest = some ([], rest) := by
  unfold scanFraction
  split
  · exact absurd rfl (apart '.' rfl).2.1
  · rfl

theorem scanExponent_apart {rest : List Char} (apart : Apart rest) : scanExponent rest = some ([], rest) := by
  unfold scanExponent
  split
  · rfl
  · rename_i c rest
    obtain ⟨-, -, lower, upper⟩ := apart c rfl
    rw [if_neg (not_or.2 ⟨lower, upper⟩)]

theorem scanMinus_cons {c : Char} (digit : c.isDigit = true) (rest : List Char) :
    scanMinus (c :: rest) = ([], c :: rest) := by
  unfold scanMinus
  split
  · rename_i same
    rw [(List.cons.inj same).1] at digit
    cases digit
  · rfl

theorem scan_cons {c : Char} (digit : c.isDigit = true) (rest : List Char) :
    scan (c :: rest) = (scanNumber (c :: rest)).map fun (lexeme, rest) => (.number lexeme, rest) := by
  unfold scan
  split
  case h_11 => rfl
  all_goals
    rename_i same
    rw [(List.cons.inj same).1] at digit
    cases digit

theorem scan_toDigits (n : Nat) {rest : List Char} (apart : Apart rest) :
    scan (Nat.toDigits 10 n ++ rest) = some (.number (Nat.toDigits 10 n), rest) := by
  have integer := scanInteger_toDigits n apart
  have digit := isDigit_of_mem_toDigits (n := n)
  cases toDigits : Nat.toDigits 10 n with
  | nil => exact absurd toDigits Nat.toDigits_ne_nil
  | cons c others =>
    rw [toDigits] at integer digit
    have first := digit c (List.mem_cons_self ..)
    rw [List.cons_append] at integer ⊢
    rw [scan_cons first, scanNumber, scanMinus_cons first, integer]
    simp only [Option.bind_eq_bind, Option.bind_some, scanFraction_apart apart, scanExponent_apart apart]
    simp

end Numbers

end HuffmanStrings.Json
