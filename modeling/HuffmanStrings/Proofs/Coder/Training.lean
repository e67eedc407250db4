import Mathlib
import HuffmanStrings.Coder.Text
import HuffmanStrings.Proofs.Code.Building
import HuffmanStrings.Proofs.Codebook.Acceptance
import HuffmanStrings.Proofs.Symbol.Ranking

/-!
Coders and their tables. A coder is what its tables make it, and training gives it tables that are built from a ranking
of at least two symbols under the bounds that it is trained with.
-/

namespace HuffmanStrings

theorem exists_of_bind_eq_ok {α β : Type} {first : Except Failure α} {next : α → Except Failure β} {result : β}
    (done : (first >>= next) = .ok result) : ∃ value, first = .ok value ∧ next value = .ok result := by
  cases first with
  | error failure => cases done
  | ok value => exact ⟨value, rfl, done⟩

theorem Ranking.two_le_size {α : Type} {ranking : Ranking α} {first second : α} (different : first ≠ second)
    (member : first ∈ ranking.symbols) (otherMember : second ∈ ranking.symbols) : 2 ≤ ranking.size := by
  have distinct : [first, second].Nodup := by simpa using different
  have among : [first, second] ⊆ ranking.symbols := by
    intro symbol listed
    rcases List.mem_pair.1 listed with rfl | rfl
    · exact member
    · exact otherMember
  rw [← ranking.length_symbols]
  exact (List.subperm_of_subset distinct among).length_le

/-- The table was built under the settings, for at least two symbols. -/
def CodeTable.BuiltUnder {α : Type} [DecidableEq α] (settings : Settings) (table : CodeTable α) : Prop :=
  ∃ ranking : Ranking α, ranking.minimum = settings.minimum ∧ 2 ≤ ranking.size ∧
    build ranking settings.maximum = .ok table

theorem Settings.valid_of_check {settings : Settings} (checked : settings.check = .ok ()) : settings.Valid := by
  unfold check at checked
  split at checked
  · cases checked
  · split at checked
    · cases checked
    · constructor <;> omega

theorem CodeTable.exists_builtUnder {α : Type} [DecidableEq α] {settings : Settings} (checked : settings.check = .ok ())
    {frequencies : List (α × UInt64)} {escape : Option α} {ranking : Ranking α}
    (ranked : Ranking.build frequencies escape settings.minimum = .ok ranking)
    (room : ranking.size ≤ 2 ^ settings.maximum) :
    ∃ table, build ranking settings.maximum = .ok table ∧ table.escape = escape ∧
      ∀ symbol ∈ frequencies.map (·.1), symbol ∈ table.symbols := by
  have valid := Settings.valid_of_check checked
  obtain ⟨-, -, same⟩ := Ranking.build_eq_ok ranked
  have order : ranking.minimum ≤ settings.maximum := same ▸ valid.minimum_le
  have range : 1 ≤ settings.maximum := valid.minimum_pos.trans valid.minimum_le
  obtain ⟨table, built⟩ := exists_build (Ranking.sound_of_build ranked) ⟨range, valid.maximum_le⟩ order room
  refine ⟨table, built, (escape_of_build built).trans (congrArg Ranking.escape same), fun symbol supplied => ?_⟩
  exact (mem_symbols_of_build built).2 ((Ranking.mem_symbols_of_build ranked).2 (.inl supplied))

namespace CharCoder

theorem ofTable_eq_ok_iff {table : CodeTable Letter} {coder : CharCoder} :
    ofTable table = .ok coder ↔ coder.table = table := by
  constructor
  · intro made
    unfold ofTable at made
    split at made
    case isFalse => cases made
    case isTrue =>
      split at made
      case h_1 => cases made
      case h_2 =>
        split at made
        case h_1 => cases made
        case h_2 =>
          cases made
          rfl
  · rintro rfl
    obtain ⟨table, escapeWord, endWord, escape_eq, escapeWord_eq, endWord_eq⟩ := coder
    simp only [ofTable, dif_pos escape_eq]
    split
    case h_1 missing =>
      rw [escapeWord_eq] at missing
      cases missing
    case h_2 word coded =>
      obtain rfl : escapeWord = word := Option.some.inj (escapeWord_eq.symm.trans coded)
      split
      case h_1 missing =>
        rw [endWord_eq] at missing
        cases missing
      case h_2 last ended =>
        obtain rfl : endWord = last := Option.some.inj (endWord_eq.symm.trans ended)
        rfl

theorem exists_ofFrequencies {frequencies : List (Char × UInt64)} {texts : UInt64} {settings : Settings}
    {ranking : Ranking Letter} (checked : settings.check = .ok ()) (nonempty : frequencies.isEmpty = false)
    (ranked : Ranking.build (frequencies.map (fun entry => (Letter.char entry.1, entry.2)) ++ [(.endOfString, texts)])
      (some .escape) settings.minimum = .ok ranking) (room : ranking.size ≤ 2 ^ settings.maximum) :
    ∃ coder, ofFrequencies frequencies texts settings = .ok coder := by
  obtain ⟨table, built, escaped, listed⟩ := CodeTable.exists_builtUnder checked ranked room
  have ended : .endOfString ∈ table.symbols := listed _ (by simp)
  obtain ⟨coder, made⟩ := (judged_ofTable table).exists_ok_iff.2 ⟨escaped, ended⟩
  refine ⟨coder, ?_⟩
  simp only [ofFrequencies, checked, nonempty, ranked, built, made, Bind.bind, Except.bind, Bool.false_eq_true, if_false]

/-- The coder was trained under the settings, on samples or on frequencies that were counted before. -/
inductive Trained (settings : Settings) : CharCoder → Prop
  | samples {samples : List String} {coder : CharCoder} : train samples settings = .ok coder → Trained settings coder
  | frequencies {frequencies : List (Char × UInt64)} {texts : UInt64} {coder : CharCoder} :
      ofFrequencies frequencies texts settings = .ok coder → Trained settings coder

theorem builtUnder_of_ofFrequencies {frequencies : List (Char × UInt64)} {texts : UInt64} {settings : Settings}
    {coder : CharCoder} (made : ofFrequencies frequencies texts settings = .ok coder) :
    coder.table.BuiltUnder settings := by
  obtain ⟨_, -, made⟩ := exists_of_bind_eq_ok made
  split at made
  case isTrue => cases made
  case isFalse =>
    obtain ⟨ranking, ranked, made⟩ := exists_of_bind_eq_ok made
    obtain ⟨table, built, made⟩ := exists_of_bind_eq_ok made
    rw [ofTable_eq_ok_iff.1 made]
    have members {symbol : Letter} : symbol ∈ ranking.symbols ↔ _ := Ranking.mem_symbols_of_build ranked
    refine ⟨ranking, ?_, ?_, built⟩
    · obtain ⟨-, -, rfl⟩ := Ranking.build_eq_ok ranked
      rfl
    · have different : Letter.endOfString ≠ Letter.escape := by decide
      apply Ranking.two_le_size different
      · exact members.2 (.inl (by simp))
      · exact members.2 (.inr rfl)

theorem Trained.builtUnder {settings : Settings} {coder : CharCoder} (trained : Trained settings coder) :
    coder.table.BuiltUnder settings := by
  cases trained with
  | samples made => exact builtUnder_of_ofFrequencies made
  | frequencies made => exact builtUnder_of_ofFrequencies made

end CharCoder

namespace TextCoder

theorem ofTable_eq_ok_iff {table : CodeTable Phrase} {chars : CharCoder} {coder : TextCoder} :
    ofTable table chars = .ok coder ↔ coder.table = table ∧ coder.chars = chars := by
  constructor
  · intro made
    unfold ofTable at made
    split at made
    case isFalse => cases made
    case isTrue =>
      split at made
      case h_1 => cases made
      case h_2 =>
        cases made
        exact ⟨rfl, rfl⟩
  · rintro ⟨rfl, rfl⟩
    obtain ⟨table, escapeWord, chars, escape_eq, escapeWord_eq, words, rfl⟩ := coder
    simp only [ofTable, dif_pos escape_eq]
    split
    case h_1 missing =>
      rw [escapeWord_eq] at missing
      cases missing
    case h_2 word coded =>
      obtain rfl : escapeWord = word := Option.some.inj (escapeWord_eq.symm.trans coded)
      rfl

theorem exists_ofFrequencies {frequencies : List (String × UInt64)} {chars : CharCoder} {settings : Settings}
    {ranking : Ranking Phrase} (checked : settings.check = .ok ()) (nonempty : frequencies.isEmpty = false)
    (ranked : Ranking.build (frequencies.map fun entry => (Phrase.text entry.1, entry.2)) (some .escape)
      settings.minimum = .ok ranking) (room : ranking.size ≤ 2 ^ settings.maximum) :
    ∃ coder, ofFrequencies frequencies chars settings = .ok coder ∧ coder.chars = chars := by
  obtain ⟨table, built, escaped, -⟩ := CodeTable.exists_builtUnder checked ranked room
  obtain ⟨coder, made⟩ := (judged_ofTable table chars).exists_ok_iff.2 escaped
  refine ⟨coder, ?_, (ofTable_eq_ok_iff.1 made).2⟩
  simp only [ofFrequencies, checked, nonempty, ranked, built, made, Bind.bind, Except.bind, Bool.false_eq_true, if_false]

inductive Trained (settings : Settings) : TextCoder → Prop
  | samples {samples : List String} {chars : CharCoder} {coder : TextCoder} :
      train samples chars settings = .ok coder → Trained settings coder
  | frequencies {frequencies : List (String × UInt64)} {chars : CharCoder} {coder : TextCoder} :
      ofFrequencies frequencies chars settings = .ok coder → Trained settings coder

theorem builtUnder_of_ofFrequencies {frequencies : List (String × UInt64)} {chars : CharCoder} {settings : Settings}
    {coder : TextCoder} (made : ofFrequencies frequencies chars settings = .ok coder) :
    coder.table.BuiltUnder settings := by
  obtain ⟨_, -, made⟩ := exists_of_bind_eq_ok made
  split at made
  case isTrue => cases made
  case isFalse nonempty =>
    obtain ⟨ranking, ranked, made⟩ := exists_of_bind_eq_ok made
    obtain ⟨table, built, made⟩ := exists_of_bind_eq_ok made
    rw [(ofTable_eq_ok_iff.1 made).1]
    have members {symbol : Phrase} : symbol ∈ ranking.symbols ↔ _ := Ranking.mem_symbols_of_build ranked
    obtain ⟨entry, listed⟩ := List.exists_mem_of_ne_nil frequencies (mt List.isEmpty_iff.2 nonempty)
    refine ⟨ranking, ?_, ?_, built⟩
    · obtain ⟨-, -, rfl⟩ := Ranking.build_eq_ok ranked
      rfl
    · have different : Phrase.text entry.1 ≠ Phrase.escape := by simp
      apply Ranking.two_le_size different
      · refine members.2 (.inl ?_)
        rw [List.map_map]
        exact List.mem_map_of_mem (f := fun entry : String × UInt64 => Phrase.text entry.1) listed
      · exact members.2 (.inr rfl)

theorem Trained.builtUnder {settings : Settings} {coder : TextCoder} (trained : Trained settings coder) :
    coder.table.BuiltUnder settings := by
  cases trained with
  | samples made => exact builtUnder_of_ofFrequencies made
  | frequencies made => exact builtUnder_of_ofFrequencies made

end TextCoder

end HuffmanStrings
