import HuffmanStrings.Codebook.Json
import HuffmanStrings.Proofs.Json.Reader

/-!
The JSON form of codebooks. A value is read off the document that it is written as, and that document is read back
from its text, so no codebook is lost in its text, whatever its entries, escapes and lengths are.
-/

namespace HuffmanStrings

namespace Json

/-- Every value is read off its form, which is never the null that stands for a missing one. -/
class LawfulForm (α : Type) [Form α] : Prop where
  ofJson?_toJson (value : α) : Form.ofJson? (Form.toJson value) = some value
  toJson_ne_null (value : α) : Form.toJson value ≠ null
  spelled (value : α) : Spelled (Form.toJson value)

theorem Spelled.text (s : String) : Spelled (.text s) := .string (some s)

theorem Spelled.named {value : Json} (spelled : Spelled value) (name : String) :
    Spelled (.object [(some name, value)]) :=
  .object fun _ member => List.mem_singleton.1 member ▸ spelled

theorem Spelled.record {first second : Json} (one : Spelled first) (other : Spelled second) (a b : String) :
    Spelled (.object [(some a, first), (some b, second)]) :=
  .object (by simp [one, other])

section Symbols

instance : LawfulForm Letter where
  ofJson?_toJson
    | .char c => by
      simp [Form.ofJson?, Form.toJson, variant?, text?, Json.text, String.toList_singleton]
    | .escape => rfl
    | .endOfString => rfl
  toJson_ne_null letter := by cases letter <;> exact Json.noConfusion
  spelled
    | .char _ => (Spelled.text _).named _
    | .escape => .text _
    | .endOfString => .text _

instance : LawfulForm Phrase where
  ofJson?_toJson
    | .text _ => rfl
    | .escape => rfl
  toJson_ne_null phrase := by cases phrase <;> exact Json.noConfusion
  spelled
    | .text _ => (Spelled.text _).named _
    | .escape => .text _

end Symbols

section Records

theorem nat?_ofNat {n limit : Nat} (within : n ≤ limit) : (ofNat n).nat? limit = some n := by
  have digits : (Nat.toDigits 10 n).all Char.isDigit = true := List.all_eq_true.2 isDigit_of_mem_toDigits
  have value : Nat.ofDigitChars 10 (Nat.toDigits 10 n) 0 = n := Nat.ofDigitChars_ten_toDigits
  rw [ofNat, nat?, value, if_pos ⟨digits, within⟩]

theorem fields?_record {a b : String} (other : a ≠ b) (first second : Json) :
    fields? [a, b] (.object [(some a, first), (some b, second)]) = some [some first, some second] := by
  simp [fields?, members?, keyed?, lookup?, other, other.symm]

variable {α : Type} [Form α] [LawfulForm α]

theorem entry?_ofEntry (entry : α × UInt8) : entry? (ofEntry entry) = some entry := by
  have length := nat?_ofNat (Nat.le_of_lt_succ entry.2.toNat_lt)
  simp [ofEntry, entry?, LawfulForm.ofJson?_toJson, length]

theorem option?_ofOption (value : Option α) : option? (ofOption value) = some value := by
  cases value with
  | none => rfl
  | some value =>
    unfold option? ofOption
    split
    · rename_i null
      exact absurd null (LawfulForm.toJson_ne_null value)
    · rw [LawfulForm.ofJson?_toJson, Option.map_eq_map, Option.map_some]

theorem mapM_ofEntry (entries : List (α × UInt8)) : (entries.map ofEntry).mapM entry? = some entries := by
  have same : entry? ∘ ofEntry = fun entry : α × UInt8 => pure (id entry) := funext entry?_ofEntry
  rw [List.mapM_map, same, List.mapM_pure, List.map_id, Option.pure_def]

instance : LawfulForm (StoredTable α) where
  ofJson?_toJson stored := by
    simp only [Form.ofJson?, Form.toJson, fields?_record (by decide : "entries" ≠ "escape"), items?, mapM_ofEntry,
      Option.getD_some, option?_ofOption, Option.bind_eq_bind, Option.bind_some, Option.pure_def]
  toJson_ne_null _ := Json.noConfusion
  spelled stored := by
    refine Spelled.record (.array ?_) ?_ ..
    · simp only [List.forall_mem_map]
      intro entry _
      refine .array ?_
      simp [LawfulForm.spelled, Spelled.ofNat]
    · cases escape : stored.escape with
      | none => exact .null
      | some symbol => exact LawfulForm.spelled symbol

instance : LawfulForm Codebook where
  ofJson?_toJson book := by
    have fields : fields? ["characters", "strings"] (Form.toJson book) =
        some [some (Form.toJson book.characters), some (Form.toJson book.texts)] := fields?_record (by decide) ..
    change (fields? _ (Form.toJson book) >>= _) = some book
    rw [fields]
    change (Form.ofJson? (Form.toJson book.characters) >>= _) = some book
    rw [LawfulForm.ofJson?_toJson]
    change (Form.ofJson? (Form.toJson book.texts) >>= _) = some book
    rw [LawfulForm.ofJson?_toJson]
    rfl
  toJson_ne_null _ := Json.noConfusion
  spelled book := .record (LawfulForm.spelled _) (LawfulForm.spelled _) ..

theorem decode_pretty (value : α) : decode Form.ofJson? (Form.toJson value).pretty = .ok value := by
  rw [decode, (LawfulForm.spelled value).parse?_pretty, Option.bind_some, LawfulForm.ofJson?_toJson]

end Records

end Json

/-- Every codebook is read back from its JSON form. -/
theorem Codebook.ofJson_toJson (book : Codebook) : Codebook.ofJson book.toJson = .ok book :=
  Json.decode_pretty book

end HuffmanStrings
