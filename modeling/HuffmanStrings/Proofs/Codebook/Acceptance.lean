import Mathlib
import HuffmanStrings.Codebook.Basic
import HuffmanStrings.Proofs.Code.PrefixFree

/-!
Which codebooks make a coder. A table is made of just those lengths that prefix-free words can have, a coder of just
those tables that have the symbols it needs, and whatever else a codebook holds is refused for want of symbols or for a
flaw of a table.
-/

namespace HuffmanStrings

/-- There is a value exactly under the condition, and otherwise a complaint about an empty alphabet or a flawed table. -/
structure Judged {β : Type} (result : Except Failure β) (condition : Prop) : Prop where
  exists_ok_iff : (∃ value, result = .ok value) ↔ condition
  refused : ¬condition → result = .error .emptyAlphabet ∨ ∃ flaw, result = .error (.invalidTable flaw)

namespace Judged

variable {β γ : Type} {condition other : Prop} {result : Except Failure β}

theorem ok (value : β) (holds : condition) : Judged (.ok value : Except Failure β) condition where
  exists_ok_iff := ⟨fun _ => holds, fun _ => ⟨value, rfl⟩⟩
  refused fails := absurd holds fails

theorem invalid (flaw : TableFlaw) (fails : ¬condition) :
    Judged (.error (.invalidTable flaw) : Except Failure β) condition where
  exists_ok_iff := by simp [fails]
  refused _ := .inr ⟨flaw, rfl⟩

theorem congr (judged : Judged result condition) (same : condition ↔ other) : Judged result other where
  exists_ok_iff := judged.exists_ok_iff.trans same
  refused fails := judged.refused (fails ∘ same.1)

theorem exists_ok (judged : Judged result condition) : Judged result (∃ value, result = .ok value) :=
  judged.congr judged.exists_ok_iff.symm

theorem bind {next : β → Except Failure γ} (judged : Judged result condition)
    (later : ∀ value, result = .ok value → Judged (next value) other) : Judged (result >>= next) (condition ∧ other) := by
  cases result with
  | error failure =>
    have fails : ¬condition := fun holds => by
      obtain ⟨_, accepted⟩ := judged.exists_ok_iff.2 holds
      cases accepted
    have refused := judged.refused fails
    simp only [Except.error.injEq] at refused
    rcases refused with rfl | ⟨flaw, rfl⟩
    · exact ⟨by simp [Bind.bind, Except.bind, fails], fun _ => .inl rfl⟩
    · exact invalid flaw fun both => fails both.1
  | ok value =>
    have holds := judged.exists_ok_iff.1 ⟨value, rfl⟩
    exact (later value rfl).congr (by simp [holds])

end Judged

namespace CodeTable

variable {α : Type} [DecidableEq α]

theorem ofLengths_eq_error {entries : List (α × Nat)} {escape : Option α} {failure : Failure}
    (refused : ofLengths entries escape = .error failure) :
    failure = .emptyAlphabet ∨ ∃ flaw, failure = .invalidTable flaw := by
  unfold ofLengths at refused
  split at refused
  case isTrue =>
    cases refused
    exact .inl rfl
  case isFalse =>
    refine .inr ?_
    split at refused
    case h_1 flaw _ =>
      cases refused
      exact ⟨flaw, rfl⟩
    case h_2 =>
      split at refused
      case isFalse =>
        cases refused
        exact ⟨_, rfl⟩
      case isTrue =>
        split at refused
        · cases refused
        · cases refused
          exact ⟨_, rfl⟩

theorem judged_ofLengths (entries : List (α × Nat)) (escape : Option α) :
    Judged (ofLengths entries escape) (Acceptable entries escape) where
  exists_ok_iff := exists_ofLengths_iff
  refused fails := by
    cases judged : ofLengths entries escape with
    | ok table => exact absurd (exists_ofLengths_iff.1 ⟨table, judged⟩) fails
    | error failure => simpa using ofLengths_eq_error judged

end CodeTable

theorem CharCoder.judged_ofTable (table : CodeTable Letter) :
    Judged (ofTable table) (table.escape = some .escape ∧ .endOfString ∈ table.symbols) := by
  unfold ofTable
  split
  case isFalse other => exact .invalid _ fun both => other both.1
  case isTrue escaped =>
    split
    case h_1 missing => exact absurd (table.escape_mem _ escaped) (CodeTable.codeOf_eq_none_iff.1 missing)
    case h_2 =>
      split
      case h_1 missing => exact .invalid _ fun both => CodeTable.codeOf_eq_none_iff.1 missing both.2
      case h_2 coded => exact .ok _ ⟨escaped, CodeTable.contains_iff_mem_symbols.1 (by simp [CodeTable.contains, coded])⟩

theorem TextCoder.judged_ofTable (table : CodeTable Phrase) (chars : CharCoder) :
    Judged (ofTable table chars) (table.escape = some .escape) := by
  unfold ofTable
  split
  case isFalse other => exact .invalid _ other
  case isTrue escaped =>
    split
    case h_1 missing => exact absurd (table.escape_mem _ escaped) (CodeTable.codeOf_eq_none_iff.1 missing)
    case h_2 => exact .ok _ escaped

namespace StoredTable

variable {α : Type} [DecidableEq α] {stored : StoredTable α} {table : CodeTable α}

theorem escape_toTable (accepted : stored.toTable = .ok table) : table.escape = stored.escape :=
  (CodeTable.ofLengths_eq_ok_iff.1 accepted).2.2.2

theorem mem_symbols_toTable (accepted : stored.toTable = .ok table) {symbol : α} :
    symbol ∈ table.symbols ↔ symbol ∈ stored.entries.map (·.1) := by
  rw [CodeTable.mem_symbols_iff accepted, List.map_map]
  rfl

end StoredTable

namespace Codebook

theorem judged_toCoder (book : Codebook) : Judged book.toCoder
    ((∃ table, book.characters.toTable = .ok table) ∧ (∃ table, book.texts.toTable = .ok table) ∧
      book.characters.escape = some .escape ∧ .endOfString ∈ book.characters.entries.map (·.1) ∧
      book.texts.escape = some .escape) := by
  have steps : Judged book.toCoder ((∃ table, book.characters.toTable = .ok table) ∧
      (book.characters.escape = some .escape ∧ .endOfString ∈ book.characters.entries.map (·.1)) ∧
      (∃ table, book.texts.toTable = .ok table) ∧ book.texts.escape = some .escape ∧ True) := by
    refine (CodeTable.judged_ofLengths _ _).exists_ok.bind fun characters made => ?_
    have letters := CharCoder.judged_ofTable characters
    rw [StoredTable.escape_toTable made, StoredTable.mem_symbols_toTable made] at letters
    refine letters.bind fun chars _ => ?_
    refine (CodeTable.judged_ofLengths _ _).exists_ok.bind fun texts made => ?_
    have phrases := TextCoder.judged_ofTable texts chars
    rw [StoredTable.escape_toTable made] at phrases
    exact phrases.bind fun coder _ => .ok _ trivial
  exact steps.congr (by tauto)

/-- A table is made of just the lengths for which there are prefix-free words, and has such words. A coder is made of
just the codebooks whose tables can be made and have the escapes and the end of texts. -/
theorem acceptance :
    (∀ {α : Type} [DecidableEq α] (entries : List (α × Nat)) (escape : Option α),
      Judged (CodeTable.ofLengths entries escape) (Acceptable entries escape) ∧
      ∀ table, CodeTable.ofLengths entries escape = .ok table →
        PrefixFree table.bitsOf entries ∧ ∀ symbol, table.contains symbol = true ↔ symbol ∈ entries.map (·.1)) ∧
    ∀ book : Codebook, Judged book.toCoder
      ((∃ table, book.characters.toTable = .ok table) ∧ (∃ table, book.texts.toTable = .ok table) ∧
        book.characters.escape = some .escape ∧ .endOfString ∈ book.characters.entries.map (·.1) ∧
        book.texts.escape = some .escape) := by
  refine ⟨fun entries escape => ⟨CodeTable.judged_ofLengths entries escape, fun table accepted => ?_⟩, judged_toCoder⟩
  refine ⟨CodeTable.prefixFree_bitsOf accepted, fun symbol => ?_⟩
  rw [CodeTable.contains_iff_mem_symbols, CodeTable.mem_symbols_iff accepted]

end Codebook

end HuffmanStrings
