import Mathlib
import HuffmanStrings.Proofs.Coder.Outcome

/-!
Coders and the samples they are trained on. Nothing of the samples is lost on the way through their counts to the words:
each of them has a word, as has each of their characters, and together they take as little as words of any other lengths
would.
-/

namespace HuffmanStrings

namespace CodeTable

variable {α : Type} [DecidableEq α] {ranking : Ranking α} {maximum : Nat} {table : CodeTable α}

theorem range_lengthOf (built : build ranking maximum = .ok table) {symbol : α} (member : symbol ∈ ranking.symbols) :
    1 ≤ table.lengthOf symbol ∧ table.lengthOf symbol ≤ maximum := by
  obtain ⟨⟨positive, -⟩, order, room, accepted⟩ := build_eq_ok_iff.1 built
  rw [← map_fst_rankedLengths positive room] at member
  obtain ⟨entry, listed, rfl⟩ := List.mem_map.1 member
  rw [lengthOf_eq accepted listed]
  exact (range_rankedLengths positive room order listed).2

theorem kraft_lengthOf_le (built : build ranking maximum = .ok table) :
    kraft (ranking.symbols.map table.lengthOf) ≤ 1 := by
  obtain ⟨⟨positive, -⟩, -, room, -⟩ := build_eq_ok_iff.1 built
  rw [map_lengthOf_symbols built]
  exact (kraft_map_max_le ..).trans (optimal_ranked positive room).admissible.kraft_le

theorem totalLength_le (built : build ranking maximum = .ok table) (least : ranking.minimum = 1) {lengths : α → Nat}
    (range : ∀ symbol ∈ ranking.symbols, 1 ≤ lengths symbol ∧ lengths symbol ≤ maximum)
    (bound : kraft (ranking.symbols.map lengths) ≤ 1) :
    ranking.totalLength table.lengthOf ≤ ranking.totalLength lengths := by
  obtain ⟨⟨positive, -⟩, -, room, -⟩ := build_eq_ok_iff.1 built
  have optimal := optimal_ranked positive room
  have kept : ranking.symbols.map table.lengthOf = optimalLengths (ranking.frequencies.map (·.toNat)) maximum := by
    rw [map_lengthOf_symbols built, least, List.map_congr_left fun length member =>
      max_eq_right (optimal.admissible.range length member).1, List.map_id']
  have other : Admissible (ranking.frequencies.map (·.toNat)).length maximum (ranking.symbols.map lengths) := by
    refine ⟨?_, List.forall_mem_map.2 range, bound⟩
    rw [List.length_map, List.length_map, Ranking.length_symbols, Ranking.length_frequencies]
  rw [Ranking.totalLength_eq_cost, Ranking.totalLength_eq_cost, kept]
  exact optimal.cost_le _ other

end CodeTable

theorem CharCoder.contains_iff_of_train {samples : List String} {settings : Settings} {coder : CharCoder}
    (trained : train samples settings = .ok coder) (c : Char) :
    coder.contains c = true ↔ ∃ text ∈ samples, c ∈ text.toList := by
  have ended := trains_ofFrequencies (countCharacters samples).counts (UInt64.ofNat (max samples.length 1)) settings
  unfold train at trained
  rw [trained] at ended
  cases ended with
  | done _ _ _ serves =>
    rw [serves.contains_iff, countCharacters_eq, Counter.mem_ofList, List.mem_flatMap]

namespace TextCoder

def phrasesOf (samples : List String) : Finset Phrase :=
  insert .escape (samples.toFinset.image .text)

/-- The bits of words of such lengths for the samples, each as often as it is among them. -/
def samplesLength (samples : List String) (lengths : Phrase → Nat) : Nat :=
  ∑ text ∈ samples.toFinset, samples.count text * lengths (.text text)

/-- Lengths of 1 to `maximum` bits that words for the samples and the escape can have, if none begins another. -/
structure Possible (samples : List String) (maximum : Nat) (lengths : Phrase → Nat) : Prop where
  range : ∀ phrase ∈ phrasesOf samples, 1 ≤ lengths phrase ∧ lengths phrase ≤ maximum
  kraft_le : ∑ phrase ∈ phrasesOf samples, (1 / 2 : ℚ) ^ lengths phrase ≤ 1

theorem sum_samples (samples : List String) (lengths : Phrase → Nat) :
    (samples.map (lengths ∘ Phrase.text)).sum = samplesLength samples lengths := by
  simp only [Finset.sum_list_map_count, samplesLength, smul_eq_mul, Function.comp_apply]

section Known

variable {coder : TextCoder} {text : String}

theorem codeOf_of_contains (known : coder.contains text = true) :
    ∃ word, coder.table.codeOf (.text text) = some word ∧ coder.table.lengthOf (.text text) = word.length := by
  rw [contains, wordOf_eq, Option.isSome_iff_exists] at known
  obtain ⟨word, coded⟩ := known
  exact ⟨word, coded, CodeTable.lengthOf_of_codeOf coded⟩

theorem textCodes_of_contains (known : coder.contains text = true) :
    coder.textCodes text = [(coder.table.lengthOf (.text text), false)] := by
  obtain ⟨word, coded, length⟩ := codeOf_of_contains known
  rw [textCodes, coded, length]

theorem textLength_of_contains (known : coder.contains text = true) :
    coder.textLength text = coder.table.lengthOf (.text text) := by
  obtain ⟨word, coded, length⟩ := codeOf_of_contains known
  rw [textLength, wordOf_eq, coded, length]

theorem flatMap_textCodes {texts : List String} (known : ∀ text ∈ texts, coder.contains text = true) :
    texts.flatMap coder.textCodes = texts.map fun text => (coder.table.lengthOf (.text text), false) := by
  rw [List.map_eq_flatMap]
  exact List.flatMap_congr fun text member => textCodes_of_contains (known text member)

theorem textsLength_eq_samplesLength {texts : List String} (known : ∀ text ∈ texts, coder.contains text = true) :
    coder.textsLength texts = samplesLength texts coder.table.lengthOf := by
  rw [← sum_textLength, ← sum_samples]
  exact congrArg List.sum (List.map_congr_left fun text member => textLength_of_contains (known text member))

end Known

variable {samples : List String} {settings : Settings} {chars : CharCoder} {coder : TextCoder}

theorem contains_iff_of_train (trained : train samples chars settings = .ok coder) (text : String) :
    coder.contains text = true ↔ text ∈ samples := by
  have ended := trains_ofFrequencies (Counter.ofList samples).counts chars settings
  unfold train at trained
  rw [trained] at ended
  cases ended with
  | done _ _ _ serves => rw [serves.contains_iff, Counter.mem_ofList]

theorem exists_countedBy {frequencies : List (String × UInt64)}
    (made : ofFrequencies frequencies chars settings = .ok coder) :
    ∃ ranking, CountedBy frequencies settings ranking coder := by
  rw [ofFrequencies_eq] at made
  obtain ⟨-, -, made⟩ := exists_of_bind_eq_ok made
  split at made
  · cases made
  · obtain ⟨⟨ranking, table⟩, ranked, made⟩ := exists_of_bind_eq_ok made
    obtain ⟨rfl, -⟩ := ofTable_eq_ok_iff.1 made
    exact ⟨ranking, ranked⟩

theorem toFinset_symbols {ranking : Ranking Phrase}
    (ranked : Ranking.build (phrases (Counter.ofList samples).counts) (some .escape) settings.minimum = .ok ranking) :
    ranking.symbols.toFinset = phrasesOf samples := by
  have counts (text : String) : text ∈ samples ↔ ∃ entry ∈ (Counter.ofList samples).counts, entry.1 = text := by
    rw [← Counter.mem_ofList, List.mem_map]
  ext phrase
  rw [List.mem_toFinset, Ranking.mem_symbols_of_build ranked, phrasesOf, Finset.mem_insert, Finset.mem_image, or_comm]
  refine or_congr (by simp [eq_comm]) ?_
  simp only [phrases, List.mem_map, exists_exists_and_eq_and, List.mem_toFinset, counts]

theorem possible_iff {ranking : Ranking Phrase}
    (ranked : Ranking.build (phrases (Counter.ofList samples).counts) (some .escape) settings.minimum = .ok ranking)
    {maximum : Nat} {lengths : Phrase → Nat} : Possible samples maximum lengths ↔
      (∀ phrase ∈ ranking.symbols, 1 ≤ lengths phrase ∧ lengths phrase ≤ maximum) ∧
        kraft (ranking.symbols.map lengths) ≤ 1 := by
  have listed := toFinset_symbols ranked
  have distinct := (Ranking.sound_of_build ranked).distinct
  have sum : kraft (ranking.symbols.map lengths) = ∑ phrase ∈ phrasesOf samples, (1 / 2 : ℚ) ^ lengths phrase := by
    rw [kraft, List.map_map, ← listed, List.sum_toFinset _ distinct]
    rfl
  rw [sum]
  constructor
  · intro possible
    exact ⟨fun phrase member => possible.range phrase (listed ▸ List.mem_toFinset.2 member), possible.kraft_le⟩
  · rintro ⟨range, bound⟩
    exact ⟨fun phrase member => range phrase (List.mem_toFinset.1 (listed ▸ member)), bound⟩

theorem possible_lengthOf (trained : train samples chars settings = .ok coder) :
    Possible samples settings.maximum coder.table.lengthOf := by
  obtain ⟨ranking, counted⟩ := exists_countedBy trained
  obtain ⟨ranked, built⟩ := CodeTable.ranked_eq_ok_iff.1 counted
  exact (possible_iff ranked).2 ⟨fun phrase => CodeTable.range_lengthOf built, CodeTable.kraft_lengthOf_le built⟩

theorem samplesLength_le (trained : train samples chars settings = .ok coder) (least : settings.minimum = 1)
    (fits : ∀ text, samples.count text < 2 ^ 64) {lengths : Phrase → Nat}
    (possible : Possible samples settings.maximum lengths) :
    samplesLength samples coder.table.lengthOf ≤ samplesLength samples lengths := by
  obtain ⟨ranking, counted⟩ := exists_countedBy trained
  obtain ⟨ranked, built⟩ := CodeTable.ranked_eq_ok_iff.1 counted
  have minimum : ranking.minimum = 1 := (congrArg Ranking.minimum (Ranking.build_eq_ok ranked).2.2).trans least
  obtain ⟨range, bound⟩ := (possible_iff ranked).1 possible
  rw [← sum_samples, ← sum_samples, ← totalLength_samples counted fits, ← totalLength_samples counted fits]
  exact CodeTable.totalLength_le built minimum range bound

end TextCoder

/-- Coders that are trained on samples know them and their characters, and nothing else. The samples are written without
an escape, in as many bits as the words of the distinct ones have, each counted as often as it occurs. Where no minimum is
asked for, no other lengths that words for the same texts and the escape can have make that less, unless a text occurs
more often than can be counted in 64 bits. -/
theorem samples_compressed {samples : List String} {charSettings settings : Settings} {chars : CharCoder}
    {coder : TextCoder} (charsTrained : CharCoder.train samples charSettings = .ok chars)
    (trained : TextCoder.train samples chars settings = .ok coder) :
    (∀ c, chars.contains c = true ↔ ∃ text ∈ samples, c ∈ text.toList) ∧
    (∀ text, coder.contains text = true ↔ text ∈ samples) ∧
    (∃ bits : List Bool, bits.length = TextCoder.samplesLength samples coder.table.lengthOf ∧
      ∀ {ω : Type} [Observer ω],
        Session.Writes (coder.encodeTexts samples : EStateM Failure (Session BitStore ω) Unit) bits
          (encodings (samples.map fun text => (coder.table.lengthOf (.text text), false)))) ∧
    TextCoder.Possible samples settings.maximum coder.table.lengthOf ∧
    (settings.minimum = 1 → (∀ text, samples.count text < 2 ^ 64) →
      ∀ lengths, TextCoder.Possible samples settings.maximum lengths →
        TextCoder.samplesLength samples coder.table.lengthOf ≤ TextCoder.samplesLength samples lengths) := by
  have known (text : String) (member : text ∈ samples) : coder.contains text = true :=
    (TextCoder.contains_iff_of_train trained text).2 member
  refine ⟨CharCoder.contains_iff_of_train charsTrained, TextCoder.contains_iff_of_train trained,
    ⟨coder.textsBits samples, ?_, ?_⟩, TextCoder.possible_lengthOf trained, fun least fits _ =>
      TextCoder.samplesLength_le trained least fits⟩
  · rw [coder.length_textsBits, TextCoder.textsLength_eq_samplesLength known]
  · intro ω _
    rw [← TextCoder.flatMap_textCodes known]
    exact coder.writes_encodeTexts samples

/-- With one bit for the text that occurs twice and two for the rest the samples take four. -/
theorem samples_compressed_letters :
    ∃ chars coder, CharCoder.train ["ab", "b", "ab"] {} = .ok chars ∧
      TextCoder.train ["ab", "b", "ab"] chars {} = .ok coder ∧ chars.contains 'a' = true ∧ coder.contains "b" = true ∧
      TextCoder.samplesLength ["ab", "b", "ab"] coder.table.lengthOf ≤ 4 := by
  have letters : Ranking.build
      ((CharCoder.countCharacters ["ab", "b", "ab"]).counts.map (fun entry => (Letter.char entry.1, entry.2)) ++
        [(.endOfString, UInt64.ofNat (max ["ab", "b", "ab"].length 1))]) (some .escape) ({} : Settings).minimum =
      .ok ⟨[⟨.char 'b', 3, 0⟩, ⟨.endOfString, 3, 1⟩, ⟨.char 'a', 2, 2⟩, ⟨.escape, 0, 3⟩], some .escape, 1⟩ := by cbv
  have phrases : Ranking.build
      ((Counter.ofList ["ab", "b", "ab"]).counts.map fun entry => (Phrase.text entry.1, entry.2)) (some .escape)
        ({} : Settings).minimum =
      .ok ⟨[⟨.text "ab", 2, 0⟩, ⟨.text "b", 1, 1⟩, ⟨.escape, 0, 2⟩], some .escape, 1⟩ := by cbv
  obtain ⟨chars, charsTrained⟩ : ∃ chars, CharCoder.train ["ab", "b", "ab"] {} = .ok chars :=
    CharCoder.exists_ofFrequencies rfl (by decide) letters (by decide)
  obtain ⟨coder, trained, -⟩ : ∃ coder, TextCoder.train ["ab", "b", "ab"] chars {} = .ok coder ∧ coder.chars = chars :=
    TextCoder.exists_ofFrequencies rfl (by decide) phrases (by decide)
  obtain ⟨known, texts, -, -, best⟩ := samples_compressed charsTrained trained
  have possible : TextCoder.Possible ["ab", "b", "ab"] ({} : Settings).maximum
      fun phrase => if phrase = .text "ab" then 1 else 2 := by
    have listed : TextCoder.phrasesOf ["ab", "b", "ab"] = {.escape, .text "ab", .text "b"} := by decide
    refine ⟨by decide, ?_⟩
    rw [listed, Finset.sum_insert (by decide), Finset.sum_insert (by decide), Finset.sum_singleton, if_neg (by decide),
      if_pos rfl, if_neg (by decide)]
    norm_num
  have least := best rfl (fun _ => lt_of_le_of_lt List.count_le_length (by decide)) _ possible
  exact ⟨chars, coder, charsTrained, trained, (known 'a').2 (by decide), (texts "b").2 (by decide),
    least.trans_eq (by decide)⟩

end HuffmanStrings
