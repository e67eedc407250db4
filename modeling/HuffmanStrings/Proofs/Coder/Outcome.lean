import Mathlib
import HuffmanStrings.Proofs.Coder.SampleOrder
import HuffmanStrings.Proofs.Symbol.Precedence

/-!
How training ends. The settings are judged first, then whether there is anything to code, then whether there is room for
its symbols. Whatever passes makes a coder with a word for each symbol: none of the later checks, of lengths and of
tables, ever refuses.
-/

namespace HuffmanStrings

theorem Settings.check_cases (settings : Settings) : settings.Valid ∧ settings.check = .ok () ∨
    ¬settings.Valid ∧ ∃ flaw, settings.check = .error (.invalidBounds flaw) := by
  cases checked : settings.check with
  | ok => exact .inl ⟨valid_of_check checked, rfl⟩
  | error failure =>
    refine .inr ⟨fun valid => ?_, ?_⟩
    · have := valid.minimum_pos
      have := valid.minimum_le
      have := valid.maximum_le
      unfold check at checked
      rw [if_neg (by omega), if_neg (by omega)] at checked
      cases checked
    · unfold check at checked
      split at checked
      · cases checked
        exact ⟨_, rfl⟩
      · split at checked
        · cases checked
          exact ⟨_, rfl⟩
        · cases checked

namespace CodeTable

variable {α : Type} [DecidableEq α]

theorem PrefixCode.perm_symbols {table : CodeTable α} {symbols others : List α} {minimum maximum : Nat}
    (code : PrefixCode table symbols minimum maximum) (perm : symbols.Perm others) :
    PrefixCode table others minimum maximum :=
  { code with
    distinct := perm.nodup_iff.1 code.distinct
    perm := code.perm.trans perm
    unique := fun symbol member => code.unique symbol (perm.mem_iff.2 member) }

theorem prefixCode_of_build {ranking : Ranking α} {maximum : Nat} {table : CodeTable α}
    (built : build ranking maximum = .ok table) : PrefixCode table ranking.symbols ranking.minimum maximum := by
  obtain ⟨⟨positive, -⟩, order, room, accepted⟩ := build_eq_ok_iff.1 built
  rw [← map_fst_rankedLengths positive room]
  refine prefixCode_of_ofLengths accepted fun entry member => ?_
  obtain ⟨lower, -, upper⟩ := range_rankedLengths positive room order member
  exact ⟨lower, upper⟩

theorem build_eq_codeTooLong {ranking : Ranking α} {maximum : Nat} (range : 1 ≤ maximum ∧ maximum ≤ maximumCodeLength)
    (order : ranking.minimum ≤ maximum) (crowded : 2 ^ maximum < ranking.size) :
    build ranking maximum = .error (.codeTooLong ranking.size maximum) := by
  rw [← Nat.one_shiftLeft] at crowded
  unfold build
  rw [if_neg (by omega), if_neg (by omega), if_pos crowded]

theorem ranked_cases {settings : Settings} (valid : settings.Valid) {frequencies : List (α × UInt64)}
    (nonempty : frequencies ≠ []) {escape : Option α} {alphabet : List α} (distinct : alphabet.Nodup)
    (members : ∀ symbol, symbol ∈ alphabet ↔ symbol ∈ frequencies.map (·.1) ∨ symbol ∈ escape) :
    (2 ^ settings.maximum < alphabet.length ∧ ranked frequencies escape settings.minimum settings.maximum =
      .error (.codeTooLong alphabet.length settings.maximum)) ∨
    (alphabet.length ≤ 2 ^ settings.maximum ∧
      ∃ result, ranked frequencies escape settings.minimum settings.maximum = .ok result ∧
        PrefixCode result.2 alphabet settings.minimum settings.maximum) := by
  have range : 1 ≤ settings.maximum ∧ settings.maximum ≤ maximumCodeLength :=
    ⟨valid.minimum_pos.trans valid.minimum_le, valid.maximum_le⟩
  have ranked := Ranking.build_of_nonempty nonempty valid.minimum_pos escape
  generalize Ranking.rank (Ranking.withEscape (Counter.ofCounts frequencies) escape) = entries at ranked
  have sound := Ranking.sound_of_build ranked
  have perm : (⟨entries, escape, settings.minimum⟩ : Ranking α).symbols.Perm alphabet :=
    (List.perm_ext_iff_of_nodup sound.distinct distinct).2 fun symbol =>
      (Ranking.mem_symbols_of_build ranked).trans (members symbol).symm
  have size := perm.length_eq
  rw [Ranking.length_symbols] at size
  rcases Nat.lt_or_ge (2 ^ settings.maximum) alphabet.length with crowded | room
  · have refused := build_eq_codeTooLong range valid.minimum_le (size ▸ crowded)
    refine .inl ⟨crowded, ?_⟩
    simp only [CodeTable.ranked, ranked, refused, size, Bind.bind, Except.bind]
  · obtain ⟨table, built⟩ := exists_build sound range valid.minimum_le (size ▸ room)
    refine .inr ⟨room, (_, table), ranked_eq_ok_iff.2 ⟨ranked, built⟩, ?_⟩
    exact (prefixCode_of_build built).perm_symbols perm

end CodeTable

/-- How training ends, if `supply` is to be coded and has so many symbols, those that are always there included. -/
inductive Trains {σ β : Type} (settings : Settings) (supply : List σ) (symbols : Nat) (Serves : β → Prop) :
    Except Failure β → Prop
  | refused {flaw : BoundsFlaw} : ¬settings.Valid → settings.check = .error (.invalidBounds flaw) →
      Trains settings supply symbols Serves (.error (.invalidBounds flaw))
  | nothing : settings.Valid → supply = [] → Trains settings supply symbols Serves (.error .emptyAlphabet)
  | crowded : settings.Valid → supply ≠ [] → 2 ^ settings.maximum < symbols →
      Trains settings supply symbols Serves (.error (.codeTooLong symbols settings.maximum))
  | done {coder : β} : settings.Valid → supply ≠ [] → symbols ≤ 2 ^ settings.maximum → Serves coder →
      Trains settings supply symbols Serves (.ok coder)

theorem trains_of_ranked {σ β α : Type} [DecidableEq α] (settings : Settings) {supply : List σ}
    {frequencies : List (α × UInt64)} (supplied : supply ≠ [] → frequencies ≠ []) {escape : Option α}
    {alphabet : List α} (distinct : alphabet.Nodup)
    (members : ∀ symbol, symbol ∈ alphabet ↔ symbol ∈ frequencies.map (·.1) ∨ symbol ∈ escape)
    {make : CodeTable α → Except Failure β} {Serves : β → Prop}
    (made : ∀ table, CodeTable.PrefixCode table alphabet settings.minimum settings.maximum → table.escape = escape →
      ∃ coder, make table = .ok coder ∧ Serves coder) :
    Trains settings supply alphabet.length Serves (do
      settings.check
      if supply.isEmpty then throw .emptyAlphabet
      let result ← CodeTable.ranked frequencies escape settings.minimum settings.maximum
      make result.2) := by
  rcases settings.check_cases with ⟨valid, checked⟩ | ⟨invalid, flaw, refused⟩
  · cases supply with
    | nil =>
      rw [checked]
      exact .nothing valid rfl
    | cons first rest =>
      have some := List.cons_ne_nil first rest
      rcases CodeTable.ranked_cases valid (supplied some) distinct members with
        ⟨crowded, refused⟩ | ⟨room, result, ranked, code⟩
      · rw [checked, refused]
        exact .crowded valid some crowded
      · obtain ⟨coder, accepted, serves⟩ := made result.2 code (CodeTable.escape_of_ranked ranked)
        rw [checked, ranked]
        simp only [List.isEmpty_cons, Bind.bind, Except.bind, Bool.false_eq_true, if_false, accepted]
        exact .done valid some room serves
  · rw [refused]
    exact .refused invalid refused

section Alphabet

variable {β α : Type} [DecidableEq β]

/-- The symbols of a code for such frequencies: each item under its name, and those that are always there. -/
def alphabet (name : β → α) (sentinels : List α) (frequencies : List (β × UInt64)) : List α :=
  (frequencies.map (·.1)).dedup.map name ++ sentinels

variable {name : β → α} {sentinels : List α} (frequencies : List (β × UInt64))

theorem nodup_alphabet (injective : Function.Injective name) (apart : ∀ item, name item ∉ sentinels)
    (distinct : sentinels.Nodup) : (alphabet name sentinels frequencies).Nodup := by
  refine ((List.nodup_dedup _).map injective).append distinct ?_
  intro symbol named sentinel
  obtain ⟨item, -, rfl⟩ := List.mem_map.1 named
  exact apart item sentinel

theorem length_alphabet (name : β → α) (sentinels : List α) :
    (alphabet name sentinels frequencies).length = (frequencies.map (·.1)).toFinset.card + sentinels.length := by
  rw [alphabet, List.length_append, List.length_map, List.card_toFinset]

theorem mem_alphabet {symbol : α} : symbol ∈ alphabet name sentinels frequencies ↔
    symbol ∈ (frequencies.map fun entry => (name entry.1, entry.2)).map (·.1) ∨ symbol ∈ sentinels := by
  rw [alphabet, List.mem_append, List.map_map]
  refine or_congr_left ?_
  simp only [List.mem_map, List.mem_dedup, exists_exists_and_eq_and, Function.comp_apply]

theorem name_mem_alphabet (injective : Function.Injective name) (apart : ∀ item, name item ∉ sentinels) {item : β} :
    name item ∈ alphabet name sentinels frequencies ↔ item ∈ frequencies.map (·.1) := by
  rw [alphabet, List.mem_append, or_iff_left (apart item), List.mem_map_of_injective injective, List.mem_dedup]

end Alphabet

namespace CharCoder

variable {frequencies : List (Char × UInt64)}

theorem char_injective : Function.Injective Letter.char :=
  fun _ _ same => Letter.char.inj same

/-- A coder with words within the bounds for just these characters, the end of a text and the escape. -/
structure Serves (coder : CharCoder) (frequencies : List (Char × UInt64)) (settings : Settings) : Prop where
  code : CodeTable.PrefixCode coder.table (alphabet .char [.endOfString, .escape] frequencies) settings.minimum
    settings.maximum
  contains_iff : ∀ c, coder.contains c = true ↔ c ∈ frequencies.map (·.1)

theorem trains_ofFrequencies (frequencies : List (Char × UInt64)) (texts : UInt64) (settings : Settings) :
    Trains settings frequencies ((frequencies.map (·.1)).toFinset.card + 2) (Serves · frequencies settings)
      (ofFrequencies frequencies texts settings) := by
  have apart (c : Char) : Letter.char c ∉ [.endOfString, .escape] := by simp
  have distinct := nodup_alphabet frequencies char_injective apart (by decide)
  have supplied (_ : frequencies ≠ []) : letters frequencies texts ≠ [] := by simp [letters]
  have members (letter : Letter) : letter ∈ alphabet .char [.endOfString, .escape] frequencies ↔
      letter ∈ (letters frequencies texts).map (·.1) ∨ letter ∈ some Letter.escape := by
    rw [mem_alphabet, letters, List.map_append, List.mem_append, or_assoc]
    simp [eq_comm]
  have size : (alphabet Letter.char [.endOfString, .escape] frequencies).length =
      (frequencies.map (·.1)).toFinset.card + 2 := length_alphabet ..
  rw [ofFrequencies_eq, ← size]
  refine trains_of_ranked settings supplied distinct members fun table code escaped => ?_
  have ended : .endOfString ∈ table.symbols := code.perm.mem_iff.2 (by simp [alphabet])
  obtain ⟨coder, made⟩ := (judged_ofTable table).exists_ok_iff.2 ⟨escaped, ended⟩
  refine ⟨coder, made, ?_⟩
  obtain rfl := ofTable_eq_ok_iff.1 made
  refine ⟨code, fun c => ?_⟩
  rw [contains, CodeTable.contains_iff_mem_symbols, code.perm.mem_iff, name_mem_alphabet frequencies char_injective apart]

end CharCoder

namespace TextCoder

variable {frequencies : List (String × UInt64)}

theorem text_injective : Function.Injective Phrase.text :=
  fun _ _ same => Phrase.text.inj same

structure Serves (coder : TextCoder) (chars : CharCoder) (frequencies : List (String × UInt64)) (settings : Settings) :
    Prop where
  chars_eq : coder.chars = chars
  code : CodeTable.PrefixCode coder.table (alphabet .text [.escape] frequencies) settings.minimum settings.maximum
  contains_iff : ∀ text, coder.contains text = true ↔ text ∈ frequencies.map (·.1)

theorem trains_ofFrequencies (frequencies : List (String × UInt64)) (chars : CharCoder) (settings : Settings) :
    Trains settings frequencies ((frequencies.map (·.1)).toFinset.card + 1) (Serves · chars frequencies settings)
      (ofFrequencies frequencies chars settings) := by
  have apart (text : String) : Phrase.text text ∉ [.escape] := by simp
  have distinct := nodup_alphabet frequencies text_injective apart (by decide)
  have supplied (some : frequencies ≠ []) : phrases frequencies ≠ [] := by simpa [phrases] using some
  have members (phrase : Phrase) : phrase ∈ alphabet .text [.escape] frequencies ↔
      phrase ∈ (phrases frequencies).map (·.1) ∨ phrase ∈ some Phrase.escape := by
    rw [mem_alphabet, phrases]
    simp [eq_comm]
  have made (table : CodeTable Phrase) (code : CodeTable.PrefixCode table (alphabet .text [.escape] frequencies)
      settings.minimum settings.maximum) (escaped : table.escape = some .escape) :
      ∃ coder, ofTable table chars = .ok coder ∧ Serves coder chars frequencies settings := by
    obtain ⟨coder, made⟩ := (judged_ofTable table chars).exists_ok_iff.2 escaped
    refine ⟨coder, made, ?_⟩
    obtain ⟨rfl, same⟩ := ofTable_eq_ok_iff.1 made
    refine ⟨same, code, fun text => ?_⟩
    rw [contains, wordOf_eq, ← CodeTable.contains, CodeTable.contains_iff_mem_symbols, code.perm.mem_iff,
      name_mem_alphabet frequencies text_injective apart]
  have size : (alphabet Phrase.text [.escape] frequencies).length = (frequencies.map (·.1)).toFinset.card + 1 :=
    length_alphabet ..
  rw [ofFrequencies_eq, ← size]
  exact trains_of_ranked settings supplied distinct members made

end TextCoder

/-- Training fails for unfit settings, else for want of anything to code, else for want of room, and succeeds otherwise. A
coder for characters needs room for two symbols besides those it is trained for, a coder for texts for one. -/
theorem training_ends (settings : Settings) :
    (∀ (frequencies : List (Char × UInt64)) (texts : UInt64),
      Trains settings frequencies ((frequencies.map (·.1)).toFinset.card + 2)
        (CharCoder.Serves · frequencies settings) (CharCoder.ofFrequencies frequencies texts settings)) ∧
    ∀ (frequencies : List (String × UInt64)) (chars : CharCoder),
      Trains settings frequencies ((frequencies.map (·.1)).toFinset.card + 1)
        (TextCoder.Serves · chars frequencies settings) (TextCoder.ofFrequencies frequencies chars settings) :=
  ⟨fun frequencies texts => CharCoder.trains_ofFrequencies frequencies texts settings, fun frequencies chars =>
    TextCoder.trains_ofFrequencies frequencies chars settings⟩

end HuffmanStrings
