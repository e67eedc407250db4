import Mathlib
import HuffmanStrings.Proofs.Code.Relabelling
import HuffmanStrings.Proofs.Coder.Text
import HuffmanStrings.Proofs.Coder.Training

/-!
The order of samples. Coders are trained on counts, so samples that come in another order give coders of the same
lengths for the same frequencies. What the samples themselves take is the sum of frequencies times lengths, as long as
no count is cut off, so it is the same for both.
-/

namespace HuffmanStrings

namespace Ranking

variable {α : Type} [DecidableEq α] {lengths : α → Nat}

omit [DecidableEq α] in
theorem totalLength_eq_weigh (ranking : Ranking α) : ranking.totalLength lengths = weigh lengths ranking.pairs := by
  rw [totalLength, weigh, pairs, List.map_map]
  rfl

theorem weigh_withEscape (counts : Counter α) (escape : Option α) :
    weigh lengths (withEscape counts escape) = weigh lengths counts.counts := by
  cases escape with
  | none => rfl
  | some symbol =>
    simp only [withEscape]
    split
    · rfl
    · rw [weigh_append, weigh_cons, UInt64.toNat_zero, Nat.zero_mul]
      rfl

theorem totalLength_of_build {frequencies : List (α × UInt64)} {escape : Option α} {minimum : Nat} {ranking : Ranking α}
    (built : build frequencies escape minimum = .ok ranking)
    (fits : ∀ symbol, Counter.supplied frequencies symbol < 2 ^ 64) :
    ranking.totalLength lengths = weigh lengths frequencies := by
  obtain ⟨-, -, rfl⟩ := build_eq_ok built
  rw [totalLength_eq_weigh, pairs, weigh_perm (perm_rank _), weigh_withEscape, Counter.weigh_ofCounts fits]

end Ranking

namespace CodeTable

variable {α : Type} [DecidableEq α] {frequencies : List (α × UInt64)} {escape : Option α} {minimum maximum : Nat}
  {result : Ranking α × CodeTable α}

theorem ranked_eq_ok_iff : ranked frequencies escape minimum maximum = .ok result ↔
    Ranking.build frequencies escape minimum = .ok result.1 ∧ build result.1 maximum = .ok result.2 := by
  constructor
  · intro done
    obtain ⟨ranking, ranked, done⟩ := exists_of_bind_eq_ok done
    obtain ⟨table, built, done⟩ := exists_of_bind_eq_ok done
    cases done
    exact ⟨ranked, built⟩
  · rintro ⟨ranked, built⟩
    simp only [CodeTable.ranked, ranked, built, Bind.bind, Except.bind]
    rfl

theorem escape_of_ranked (done : ranked frequencies escape minimum maximum = .ok result) :
    result.2.escape = escape := by
  obtain ⟨ranked, built⟩ := ranked_eq_ok_iff.1 done
  rw [escape_of_build built, (Ranking.build_eq_ok ranked).2.2]

theorem mem_symbols_of_ranked (done : ranked frequencies escape minimum maximum = .ok result) {symbol : α}
    (supplied : symbol ∈ frequencies.map (·.1)) : symbol ∈ result.2.symbols := by
  obtain ⟨ranked, built⟩ := ranked_eq_ok_iff.1 done
  exact (mem_symbols_of_build built).2 ((Ranking.mem_symbols_of_build ranked).2 (.inl supplied))

theorem exists_codeOf_of_ranked (done : ranked frequencies escape minimum maximum = .ok result) {symbol : α}
    (supplied : symbol ∈ frequencies.map (·.1)) : ∃ word, result.2.codeOf symbol = some word := by
  have listed := mem_symbols_of_ranked done supplied
  rw [← map_fst_codes] at listed
  obtain ⟨entry, coded, rfl⟩ := List.mem_map.1 listed
  exact ⟨entry.2, codeOf_eq_some_iff.2 coded⟩

theorem lengthOf_of_codeOf {table : CodeTable α} {symbol : α} {word : CodeWord}
    (coded : table.codeOf symbol = some word) : table.lengthOf symbol = word.length := by
  rw [lengthOf, coded]
  rfl

end CodeTable

namespace TextCoder

def phrases (frequencies : List (String × UInt64)) : List (Phrase × UInt64) :=
  frequencies.map fun entry => (Phrase.text entry.1, entry.2)

theorem ofFrequencies_eq (frequencies : List (String × UInt64)) (chars : CharCoder) (settings : Settings) :
    ofFrequencies frequencies chars settings = (do
      settings.check
      if frequencies.isEmpty then throw .emptyAlphabet
      let result ← CodeTable.ranked (phrases frequencies) (some .escape) settings.minimum settings.maximum
      ofTable result.2 chars) := by
  simp only [ofFrequencies, CodeTable.ranked, phrases, bind_assoc, pure_bind]

def CountedBy (frequencies : List (String × UInt64)) (settings : Settings) (ranking : Ranking Phrase)
    (coder : TextCoder) : Prop :=
  CodeTable.ranked (phrases frequencies) (some .escape) settings.minimum settings.maximum = .ok (ranking, coder.table)

theorem sameOutcome_ofFrequencies {frequencies others : List (String × UInt64)} (perm : frequencies.Perm others)
    (chars otherChars : CharCoder) (settings : Settings) :
    SameOutcome (fun coder other => ∃ ranking otherRanking, CountedBy frequencies settings ranking coder ∧
        CountedBy others settings otherRanking other ∧
        CodeTable.Interchanged (ranking, coder.table) (otherRanking, other.table))
      (ofFrequencies frequencies chars settings) (ofFrequencies others otherChars settings) := by
  rw [ofFrequencies_eq, ofFrequencies_eq, ← perm.isEmpty_eq]
  refine (SameOutcome.refl settings.check).bind fun _ _ _ _ _ => ?_
  split
  · exact .failed _
  · refine (CodeTable.sameOutcome_ranked (perm.map _) _ _ _).bind
      fun first second ranked otherRanked interchanged => ?_
    obtain ⟨ranking, table⟩ := first
    obtain ⟨otherRanking, otherTable⟩ := second
    obtain ⟨coder, made⟩ := (judged_ofTable table chars).exists_ok_iff.2 (CodeTable.escape_of_ranked ranked)
    obtain ⟨otherCoder, otherMade⟩ :=
      (judged_ofTable otherTable otherChars).exists_ok_iff.2 (CodeTable.escape_of_ranked otherRanked)
    rw [made, otherMade]
    obtain ⟨rfl, -⟩ := ofTable_eq_ok_iff.1 made
    obtain ⟨rfl, -⟩ := ofTable_eq_ok_iff.1 otherMade
    exact .done ⟨ranking, otherRanking, ranked, otherRanked, interchanged⟩

variable {samples : List String} {settings : Settings} {ranking : Ranking Phrase} {coder : TextCoder}

theorem textLength_of_counted {frequencies : List (String × UInt64)}
    (counted : CountedBy frequencies settings ranking coder) {text : String} (supplied : text ∈ frequencies.map (·.1)) :
    coder.textLength text = coder.table.lengthOf (.text text) := by
  have listed : Phrase.text text ∈ (phrases frequencies).map (·.1) := by
    rw [phrases, List.map_map]
    obtain ⟨entry, member, rfl⟩ := List.mem_map.1 supplied
    exact List.mem_map.2 ⟨entry, member, rfl⟩
  obtain ⟨word, coded⟩ := CodeTable.exists_codeOf_of_ranked counted listed
  have found : coder.wordOf text = some word := (coder.wordOf_eq text).trans coded
  rw [textLength, found, CodeTable.lengthOf_of_codeOf coded]

/-- Whatever the lengths, the ranking of samples says what the samples take. -/
theorem totalLength_samples (counted : CountedBy (Counter.ofList samples).counts settings ranking coder)
    (fits : ∀ text, samples.count text < 2 ^ 64) (lengths : Phrase → Nat) :
    ranking.totalLength lengths = (samples.map (lengths ∘ Phrase.text)).sum := by
  have distinct : ((phrases (Counter.ofList samples).counts).map (·.1)).Nodup :=
    nodup_map_name (fun _ _ same => Phrase.text.inj same) (Counter.nodup_ofList samples)
  obtain ⟨ranked, -⟩ := CodeTable.ranked_eq_ok_iff.1 counted
  rw [Ranking.totalLength_of_build ranked (Counter.supplied_lt_of_nodup distinct), phrases, weigh_map,
    Counter.weigh_ofList fits]

theorem textsLength_samples (counted : CountedBy (Counter.ofList samples).counts settings ranking coder)
    (fits : ∀ text, samples.count text < 2 ^ 64) :
    coder.textsLength samples = ranking.totalLength coder.table.lengthOf := by
  rw [totalLength_samples counted fits, ← sum_textLength]
  refine congrArg List.sum (List.map_congr_left fun text member => ?_)
  exact textLength_of_counted counted (Counter.mem_ofList.2 member)

theorem sameOutcome_train {samples others : List String} (perm : samples.Perm others) (chars otherChars : CharCoder)
    (settings : Settings) :
    SameOutcome (fun coder other => (∀ text, samples.count text < 2 ^ 64) →
        coder.textsLength samples = other.textsLength samples)
      (train samples chars settings) (train others otherChars settings) := by
  refine (sameOutcome_ofFrequencies (Counter.perm_ofList perm) chars otherChars settings).imp ?_
  rintro coder other - - ⟨ranking, otherRanking, counted, otherCounted, interchanged⟩ fits
  have otherFits (text : String) : others.count text < 2 ^ 64 := perm.count_eq text ▸ fits text
  rw [textsLength_samples counted fits, interchanged.totalLength_eq, ← textsLength_samples otherCounted otherFits,
    ← sum_textLength, ← sum_textLength, (perm.map _).sum_eq]

end TextCoder

namespace CharCoder

def letters (frequencies : List (Char × UInt64)) (texts : UInt64) : List (Letter × UInt64) :=
  frequencies.map (fun entry => (Letter.char entry.1, entry.2)) ++ [(.endOfString, texts)]

theorem ofFrequencies_eq (frequencies : List (Char × UInt64)) (texts : UInt64) (settings : Settings) :
    ofFrequencies frequencies texts settings = (do
      settings.check
      if frequencies.isEmpty then throw .emptyAlphabet
      let result ← CodeTable.ranked (letters frequencies texts) (some .escape) settings.minimum settings.maximum
      ofTable result.2) := by
  simp only [ofFrequencies, CodeTable.ranked, letters, bind_assoc, pure_bind]

def CountedBy (frequencies : List (Char × UInt64)) (texts : UInt64) (settings : Settings) (ranking : Ranking Letter)
    (coder : CharCoder) : Prop :=
  frequencies ≠ [] ∧ CodeTable.ranked (letters frequencies texts) (some .escape) settings.minimum settings.maximum =
    .ok (ranking, coder.table)

theorem sameOutcome_ofFrequencies {frequencies others : List (Char × UInt64)} (perm : frequencies.Perm others)
    (texts : UInt64) (settings : Settings) :
    SameOutcome (fun coder other => ∃ ranking otherRanking, CountedBy frequencies texts settings ranking coder ∧
        CountedBy others texts settings otherRanking other ∧
        CodeTable.Interchanged (ranking, coder.table) (otherRanking, other.table))
      (ofFrequencies frequencies texts settings) (ofFrequencies others texts settings) := by
  rw [ofFrequencies_eq, ofFrequencies_eq, ← perm.isEmpty_eq]
  refine (SameOutcome.refl settings.check).bind fun _ _ _ _ _ => ?_
  split
  · exact .failed _
  · rename_i supplied
    have nonempty : frequencies ≠ [] := mt List.isEmpty_iff.2 supplied
    have otherNonempty : others ≠ [] := fun none => nonempty (List.perm_nil.1 (none ▸ perm))
    refine (CodeTable.sameOutcome_ranked ((perm.map _).append_right _) _ _ _).bind
      fun first second ranked otherRanked interchanged => ?_
    obtain ⟨ranking, table⟩ := first
    obtain ⟨otherRanking, otherTable⟩ := second
    have ended {entries : List (Char × UInt64)} {result : Ranking Letter × CodeTable Letter}
        (ranked : CodeTable.ranked (letters entries texts) (some .escape) settings.minimum settings.maximum =
          .ok result) : .endOfString ∈ result.2.symbols :=
      CodeTable.mem_symbols_of_ranked ranked (by simp [letters])
    obtain ⟨coder, made⟩ := (judged_ofTable table).exists_ok_iff.2 ⟨CodeTable.escape_of_ranked ranked, ended ranked⟩
    obtain ⟨otherCoder, otherMade⟩ :=
      (judged_ofTable otherTable).exists_ok_iff.2 ⟨CodeTable.escape_of_ranked otherRanked, ended otherRanked⟩
    rw [made, otherMade]
    obtain rfl := ofTable_eq_ok_iff.1 made
    obtain rfl := ofTable_eq_ok_iff.1 otherMade
    exact .done ⟨ranking, otherRanking, ⟨nonempty, ranked⟩, ⟨otherNonempty, otherRanked⟩, interchanged⟩

theorem countCharacters_eq (samples : List String) :
    countCharacters samples = Counter.ofList (samples.flatMap String.toList) := by
  rw [countCharacters, Counter.ofList, Counter.addAll, List.foldl_flatMap]
  rfl

section Samples

variable {samples : List String} {texts : UInt64} {settings : Settings} {ranking : Ranking Letter} {coder : CharCoder}

theorem nodup_letters {frequencies : List (Char × UInt64)} (distinct : (frequencies.map (·.1)).Nodup) (texts : UInt64) :
    ((letters frequencies texts).map (·.1)).Nodup := by
  rw [letters, List.map_append, List.map_singleton, ← List.concat_eq_append]
  refine (nodup_map_name (fun _ _ same => Letter.char.inj same) distinct).concat ?_
  simp

theorem charLength_of_counted {frequencies : List (Char × UInt64)}
    (counted : CountedBy frequencies texts settings ranking coder) {c : Char} (supplied : c ∈ frequencies.map (·.1)) :
    coder.charLength c = coder.table.lengthOf (.char c) := by
  have listed : Letter.char c ∈ (letters frequencies texts).map (·.1) := by
    rw [letters, List.map_append, List.map_map]
    obtain ⟨entry, member, rfl⟩ := List.mem_map.1 supplied
    exact List.mem_append_left _ (List.mem_map.2 ⟨entry, member, rfl⟩)
  obtain ⟨word, coded⟩ := CodeTable.exists_codeOf_of_ranked counted.2 listed
  dsimp only at coded
  rw [charLength, coded, CodeTable.lengthOf_of_codeOf coded]

theorem sum_textLength (coder : CharCoder) (samples : List String) : (samples.map coder.textLength).sum =
    ((samples.flatMap String.toList).map coder.charLength).sum + samples.length * coder.endWord.length := by
  have chars (cs : List Char) : coder.charsLength cs = (cs.map coder.charLength).sum := by
    induction cs with
    | nil => rfl
    | cons c cs ih => rw [charsLength, ih, List.map_cons, List.sum_cons]
  induction samples with
  | nil => rw [List.length_nil, Nat.zero_mul]; rfl
  | cons text rest ih =>
    rw [List.map_cons, List.sum_cons, ih, textLength, chars, List.flatMap_cons, List.map_append, List.sum_append,
      List.length_cons, Nat.succ_mul]
    omega

theorem sum_textLength_samples
    (counted : CountedBy (countCharacters samples).counts (UInt64.ofNat (max samples.length 1)) settings ranking coder)
    (fits : samples.length < 2 ^ 64) (charsFit : ∀ c, (samples.flatMap String.toList).count c < 2 ^ 64) :
    (samples.map coder.textLength).sum = ranking.totalLength coder.table.lengthOf := by
  rw [countCharacters_eq] at counted
  have some : 1 ≤ samples.length := by
    rw [Nat.one_le_iff_ne_zero, ne_eq, List.length_eq_zero_iff]
    rintro rfl
    exact counted.1 rfl
  have texts : (UInt64.ofNat (max samples.length 1)).toNat = samples.length := by
    rw [max_eq_left some, UInt64.toNat_ofNat_of_lt' fits]
  have distinct := nodup_letters (Counter.nodup_ofList (samples.flatMap String.toList))
    (UInt64.ofNat (max samples.length 1))
  have chars : (samples.flatMap String.toList).map coder.charLength =
      (samples.flatMap String.toList).map (coder.table.lengthOf ∘ Letter.char) :=
    List.map_congr_left fun c member => charLength_of_counted counted (Counter.mem_ofList.2 member)
  obtain ⟨ranked, -⟩ := CodeTable.ranked_eq_ok_iff.1 counted.2
  rw [Ranking.totalLength_of_build ranked (Counter.supplied_lt_of_nodup distinct), letters, weigh_append, weigh_map,
    Counter.weigh_ofList charsFit, weigh_cons, texts, sum_textLength, chars,
    CodeTable.lengthOf_of_codeOf coder.endWord_eq]
  rfl

end Samples

theorem sameOutcome_train {samples others : List String} (perm : samples.Perm others) (settings : Settings) :
    SameOutcome (fun coder other => samples.length < 2 ^ 64 →
        (∀ c, (samples.flatMap String.toList).count c < 2 ^ 64) →
        (samples.map coder.textLength).sum = (samples.map other.textLength).sum)
      (train samples settings) (train others settings) := by
  have chars := perm.flatMap_right String.toList
  have counts : (countCharacters samples).counts.Perm (countCharacters others).counts := by
    rw [countCharacters_eq, countCharacters_eq]
    exact Counter.perm_ofList chars
  have length := perm.length_eq
  unfold train
  rw [← length]
  refine (sameOutcome_ofFrequencies counts _ settings).imp ?_
  rintro coder other - - ⟨ranking, otherRanking, counted, otherCounted, interchanged⟩ fits charsFit
  rw [length] at otherCounted
  have otherFits (c : Char) : (others.flatMap String.toList).count c < 2 ^ 64 := chars.count_eq c ▸ charsFit c
  rw [sum_textLength_samples counted fits charsFit, interchanged.totalLength_eq,
    ← sum_textLength_samples otherCounted (length ▸ fits) otherFits, (perm.map _).sum_eq]

end CharCoder

/-- Symbols and samples may come in any order. Both orders are refused for the same reason, or they give codes that are
the same at each position of the ranking; and coders trained on samples take the same number of bits for them, provided
that the counts of the samples are numbers of 64 bits. -/
theorem order_of_supply {α : Type} [DecidableEq α] {frequencies others : List (α × UInt64)}
    (perm : frequencies.Perm others) {samples otherSamples : List String} (reordered : samples.Perm otherSamples) :
    (∀ escape minimum maximum, SameOutcome CodeTable.Interchanged
      (CodeTable.ranked frequencies escape minimum maximum) (CodeTable.ranked others escape minimum maximum)) ∧
    ∀ settings,
      SameOutcome (fun coder other => samples.length < 2 ^ 64 →
          (∀ c, (samples.flatMap String.toList).count c < 2 ^ 64) →
          (samples.map coder.textLength).sum = (samples.map other.textLength).sum)
        (CharCoder.train samples settings) (CharCoder.train otherSamples settings) ∧
      ∀ chars otherChars,
        SameOutcome (fun coder other => (∀ text, samples.count text < 2 ^ 64) →
            coder.textsLength samples = other.textsLength samples)
          (TextCoder.train samples chars settings) (TextCoder.train otherSamples otherChars settings) :=
  ⟨fun escape minimum maximum => CodeTable.sameOutcome_ranked perm escape minimum maximum, fun settings =>
    ⟨CharCoder.sameOutcome_train reordered settings, fun chars otherChars =>
      TextCoder.sameOutcome_train reordered chars otherChars settings⟩⟩

/-- Of two letters that are equally frequent each gets the word of the other, and the samples take as much. -/
theorem order_of_supply_letters :
    (∃ first second, CodeTable.ranked [('a', 2), ('b', 2), ('c', 1)] none 1 3 = .ok first ∧
      CodeTable.ranked [('b', 2), ('c', 1), ('a', 2)] none 1 3 = .ok second ∧
      first.2.codeOf 'a' = second.2.codeOf 'b' ∧ first.2.codeOf 'b' = second.2.codeOf 'a' ∧
      first.2.codeOf 'c' = second.2.codeOf 'c') ∧
    ∃ coder other, CharCoder.train ["ab", "b"] {} = .ok coder ∧ CharCoder.train ["b", "ab"] {} = .ok other ∧
      coder.textLength "ab" + coder.textLength "b" = other.textLength "ab" + other.textLength "b" := by
  have perm : [('a', 2), ('b', 2), ('c', 1)].Perm [('b', 2), ('c', 1), ('a', (2 : UInt64))] := by decide
  have reordered : ["ab", "b"].Perm ["b", "ab"] := by decide
  obtain ⟨codes, coders⟩ := order_of_supply perm reordered
  constructor
  · have ranked : Ranking.build [('a', 2), ('b', 2), ('c', 1)] none 1 =
        .ok ⟨[⟨'a', 2, 0⟩, ⟨'b', 2, 1⟩, ⟨'c', 1, 2⟩], none, 1⟩ := by cbv
    have otherRanked : Ranking.build [('b', 2), ('c', 1), ('a', 2)] none 1 =
        .ok ⟨[⟨'b', 2, 0⟩, ⟨'a', 2, 1⟩, ⟨'c', 1, 2⟩], none, 1⟩ := by cbv
    have range : 1 ≤ 3 ∧ 3 ≤ maximumCodeLength := by decide
    obtain ⟨table, built⟩ := CodeTable.exists_build (Ranking.sound_of_build ranked) range (by decide) (by decide)
    obtain ⟨otherTable, otherBuilt⟩ :=
      CodeTable.exists_build (Ranking.sound_of_build otherRanked) range (by decide) (by decide)
    have first : CodeTable.ranked [('a', 2), ('b', 2), ('c', 1)] none 1 3 = .ok (_, table) :=
      CodeTable.ranked_eq_ok_iff.2 ⟨ranked, built⟩
    have second : CodeTable.ranked [('b', 2), ('c', 1), ('a', 2)] none 1 3 = .ok (_, otherTable) :=
      CodeTable.ranked_eq_ok_iff.2 ⟨otherRanked, otherBuilt⟩
    have same := codes none 1 3
    rw [first, second] at same
    cases same with
    | done interchanged =>
      obtain ⟨-, _, here, there⟩ := interchanged.position 0 _ _ rfl rfl
      obtain ⟨-, _, next, nextThere⟩ := interchanged.position 1 _ _ rfl rfl
      obtain ⟨-, _, last, lastThere⟩ := interchanged.position 2 _ _ rfl rfl
      exact ⟨_, _, first, second, here.trans there.symm, next.trans nextThere.symm, last.trans lastThere.symm⟩
  · have ranked : Ranking.build
        ((CharCoder.countCharacters ["ab", "b"]).counts.map (fun entry => (Letter.char entry.1, entry.2)) ++
          [(.endOfString, UInt64.ofNat (max ["ab", "b"].length 1))]) (some .escape) ({} : Settings).minimum =
        .ok ⟨[⟨.char 'b', 2, 0⟩, ⟨.endOfString, 2, 1⟩, ⟨.char 'a', 1, 2⟩, ⟨.escape, 0, 3⟩], some .escape, 1⟩ := by cbv
    obtain ⟨coder, trained⟩ := CharCoder.exists_ofFrequencies rfl (by decide) ranked (by decide)
    have succeeded : CharCoder.train ["ab", "b"] {} = .ok coder := trained
    have same := (coders {}).1
    rw [succeeded] at same
    generalize otherTrained : CharCoder.train ["b", "ab"] {} = result at same
    cases same with
    | @done _ other holds =>
      have sums := holds (by decide) fun c => lt_of_le_of_lt List.count_le_length (by decide)
      exact ⟨coder, other, succeeded, rfl, by simpa using sums⟩

end HuffmanStrings
