import Mathlib
import HuffmanStrings.Text.Format

/-!
Texts as bytes. Each text has one spelling in bytes, and each character too; the first byte of a character tells how
many bytes it has.
-/

namespace HuffmanStrings

namespace Utf8

theorem toByteArray_encode (text : String) : (encode text).toByteArray = text.toUTF8 := by
  apply ByteArray.ext
  rw [List.data_toByteArray]
  rfl

theorem decode?_encode (text : String) : decode? (encode text) = some text := by
  rw [decode?, toByteArray_encode, String.fromUTF8?, String.toUTF8_eq_toByteArray, dif_pos text.isValidUTF8]
  rfl

theorem decode?_eq_some_iff {bytes : List UInt8} {text : String} :
    decode? bytes = some text ↔ bytes = encode text := by
  constructor
  · intro spelled
    unfold decode? String.fromUTF8? at spelled
    split at spelled
    · cases spelled
      have data : bytes.toByteArray.data.toList = bytes := by rw [List.data_toByteArray]
      exact data.symm
    · cases spelled
  · rintro rfl
    exact decode?_encode text

theorem encode_singleton (c : Char) : encode (String.singleton c) = encodeChar c := by
  rw [encode, String.toUTF8_eq_toByteArray, String.toByteArray_singleton, List.utf8Encode_singleton,
    List.data_toByteArray]
  rfl

theorem decodeChar?_eq_some_iff {bytes : List UInt8} {c : Char} :
    decodeChar? bytes = some c ↔ bytes = encodeChar c := by
  have alone : decodeChar? bytes = some c ↔ (decode? bytes).map String.toList = some [c] := by
    unfold decodeChar?
    split
    · rename_i other spelled
      simp [spelled]
    · rename_i none
      exact iff_of_false (by simp) (none c)
  rw [alone, ← encode_singleton, ← decode?_eq_some_iff, Option.map_eq_some_iff]
  constructor
  · rintro ⟨text, spelled, same⟩
    rw [spelled, ← String.toList_inj.1 (same.trans (String.toList_singleton c).symm)]
  · intro spelled
    exact ⟨_, spelled, String.toList_singleton c⟩

theorem width?_ofNat {value : Nat} (small : value < 256) :
    width? (.ofNat value) =
      if value < 0x80 then some 1
      else if value < 0xC0 then none
      else if value < 0xE0 then some 2
      else if value < 0xF0 then some 3
      else if value < 0xF8 then some 4
      else none := by
  have same : (UInt8.ofNat value).toNat = value := UInt8.toNat_ofNat_of_lt' small
  simp only [width?, UInt8.lt_iff_toNat_lt, same]
  rfl

theorem width?_encodeChar (c : Char) :
    ∃ first others, encodeChar c = first :: others ∧ width? first = some (others.length + 1) := by
  simp only [encodeChar, String.utf8EncodeChar]
  split
  · refine ⟨_, _, rfl, ?_⟩
    rw [width?_ofNat (by omega), if_pos (by omega)]
    rfl
  · split
    · refine ⟨_, _, rfl, ?_⟩
      rw [width?_ofNat (by omega), if_neg (by omega), if_neg (by omega), if_pos (by omega)]
      rfl
    · split
      · refine ⟨_, _, rfl, ?_⟩
        rw [width?_ofNat (by omega), if_neg (by omega), if_neg (by omega), if_neg (by omega), if_pos (by omega)]
        rfl
      · refine ⟨_, _, rfl, ?_⟩
        rw [width?_ofNat (by omega), if_neg (by omega), if_neg (by omega), if_neg (by omega), if_neg (by omega),
          if_pos (by omega)]
        rfl

end Utf8

/-!
Texts as lines. Lines that were written out are read back except for a carriage return at the end of a line, which is
taken for a part of the line's end.
-/

namespace Text

def dropReturn (cs : List Char) : List Char :=
  if cs.getLast? = some '\r' then cs.dropLast else cs

/-- A line as it is read back once it has been written out. -/
def withoutReturn (line : String) : String :=
  String.ofList (dropReturn line.toList)

theorem dropReturn_cons (c : Char) {cs : List Char} (other : ¬(c = '\r' ∧ cs = [])) :
    dropReturn (c :: cs) = c :: dropReturn cs := by
  cases cs with
  | nil =>
    have last : [c].getLast? ≠ some '\r' := by
      intro same
      exact other ⟨Option.some.inj same, rfl⟩
    rw [dropReturn, if_neg last]
    rfl
  | cons next rest =>
    rw [dropReturn, dropReturn, List.getLast?_cons_cons, List.dropLast_cons_cons]
    split <;> rfl

theorem withoutReturn_eq_self {line : String} : withoutReturn line = line ↔ line.toList.getLast? ≠ some '\r' := by
  rw [withoutReturn, dropReturn]
  split
  case isTrue last =>
    refine iff_of_false (fun same => ?_) (not_not_intro last)
    have length := congrArg (List.length ∘ String.toList) same
    have positive : line.toList ≠ [] := by
      intro empty
      rw [empty] at last
      cases last
    simp only [Function.comp_apply, String.toList_ofList, List.length_dropLast] at length
    have := List.length_pos_of_ne_nil positive
    omega
  case isFalse other => exact iff_of_true String.ofList_toList other

theorem not_mem_splitLines (cs : List Char) : ∀ line ∈ splitLines cs, '\n' ∉ line := by
  fun_induction splitLines cs with
  | case1 => simp
  | case2 rest ih => simpa using ih
  | case3 rest ih => simpa using ih
  | case4 c rest other _ none ih => simpa using fun same => other same.symm
  | case5 c rest other _ line lines split ih =>
    rw [split, List.forall_mem_cons] at ih
    rw [List.forall_mem_cons, List.mem_cons, not_or]
    exact ⟨⟨fun same => other same.symm, ih.1⟩, ih.2⟩

theorem splitLines_append {line : List Char} (clean : '\n' ∉ line) (rest : List Char) :
    splitLines (line ++ '\n' :: rest) = dropReturn line :: splitLines rest := by
  induction line with
  | nil => simp [splitLines, dropReturn]
  | cons c cs ih =>
    obtain ⟨other, cleanRest⟩ : c ≠ '\n' ∧ '\n' ∉ cs := by simpa [eq_comm] using clean
    by_cases ending : c = '\r' ∧ cs = []
    · obtain ⟨rfl, rfl⟩ := ending
      simp [splitLines, dropReturn]
    · have inside : ∀ rest', c = '\r' → cs ++ '\n' :: rest = '\n' :: rest' → False := by
        rintro rest' rfl begins
        cases cs with
        | nil => exact ending ⟨rfl, rfl⟩
        | cons next later =>
          rw [List.cons_append, List.cons.injEq] at begins
          exact cleanRest (begins.1 ▸ List.mem_cons_self)
      rw [List.cons_append, splitLines, ih cleanRest, dropReturn_cons c ending]
      · exact other
      · exact inside

theorem toList_unlines (items : List String) :
    (unlines items).toList = items.flatMap fun line => line.toList ++ ['\n'] := by
  induction items with
  | nil => rfl
  | cons line rest ih =>
    rw [unlines] at ih
    rw [unlines, List.map_cons, List.flatMap_cons, ← ih]
    simp

theorem not_mem_lines (text : String) : ∀ line ∈ lines text, '\n' ∉ line.toList := by
  intro line member
  obtain ⟨cs, split, rfl⟩ := List.mem_map.1 member
  rw [String.toList_ofList]
  exact not_mem_splitLines _ cs split

/-- Lines are read back from a text that was made of them, without the carriage returns at their ends. -/
theorem lines_unlines {items : List String} (clean : ∀ line ∈ items, '\n' ∉ line.toList) :
    lines (unlines items) = items.map withoutReturn := by
  rw [lines, toList_unlines]
  induction items with
  | nil => rfl
  | cons line rest ih =>
    obtain ⟨first, later⟩ := List.forall_mem_cons.1 clean
    rw [List.flatMap_cons, List.append_assoc, List.singleton_append, splitLines_append first, List.map_cons, ih later]
    rfl

end Text

end HuffmanStrings
