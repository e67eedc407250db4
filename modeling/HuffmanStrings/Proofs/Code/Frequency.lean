import Mathlib
import HuffmanStrings.Proofs.Code.Relabelling

/-!
More frequent symbols have no longer words. If a heavier weight had the longer word, exchanging the two words would
save bits, so lengths that cost least never order two weights the wrong way. This is all that is needed: whichever way
the lengths are found, and also when they are raised to the minimum, equally frequent symbols apart.
-/

namespace HuffmanStrings

def exchanged (lengths : List Nat) (first second : Nat) : List Nat :=
  (List.range lengths.length).map fun index => valueAt lengths (Equiv.swap first second index)

section Exchange

variable {weights lengths : List Nat} {limit first second : Nat}

theorem length_exchanged (lengths : List Nat) (first second : Nat) :
    (exchanged lengths first second).length = lengths.length := by
  rw [exchanged, List.length_map, List.length_range]

theorem swap_lt {index : Nat} (firstIn : first < lengths.length) (secondIn : second < lengths.length)
    (within : index < lengths.length) : Equiv.swap first second index < lengths.length := by
  rw [Equiv.swap_apply_def]
  split_ifs
  · exact secondIn
  · exact firstIn
  · exact within

theorem valueAt_exchanged {index : Nat} (within : index < lengths.length) :
    valueAt (exchanged lengths first second) index = valueAt lengths (Equiv.swap first second index) :=
  valueAt_map_range _ within

theorem kraft_exchanged (firstIn : first < lengths.length) (secondIn : second < lengths.length) :
    kraft (exchanged lengths first second) = kraft lengths := by
  rw [kraft_eq_sum, kraft_eq_sum, length_exchanged]
  apply Finset.sum_equiv (Equiv.swap first second)
  · intro index
    rw [Finset.mem_range, Finset.mem_range]
    refine ⟨swap_lt firstIn secondIn, fun within => ?_⟩
    simpa using swap_lt firstIn secondIn within
  · intro index within
    rw [valueAt_exchanged (Finset.mem_range.1 within)]

theorem Admissible.exchanged {count : Nat} (admissible : Admissible count limit lengths)
    (firstIn : first < lengths.length) (secondIn : second < lengths.length) :
    Admissible count limit (exchanged lengths first second) where
  length_eq := (length_exchanged ..).trans admissible.length_eq
  range length member := by
    obtain ⟨index, within, rfl⟩ := List.mem_map.1 member
    exact admissible.range _ (valueAt_mem (swap_lt firstIn secondIn (List.mem_range.1 within)))
  kraft_le := (kraft_exchanged firstIn secondIn).trans_le admissible.kraft_le

theorem cost_eq_add_others (same : lengths.length = weights.length) (different : first ≠ second)
    (firstIn : first < weights.length) (secondIn : second < weights.length) :
    cost weights lengths = valueAt weights first * valueAt lengths first +
      (valueAt weights second * valueAt lengths second +
        ∑ index ∈ ((Finset.range weights.length).erase first).erase second,
          valueAt weights index * valueAt lengths index) := by
  have other : second ∈ (Finset.range weights.length).erase first :=
    Finset.mem_erase.2 ⟨different.symm, Finset.mem_range.2 secondIn⟩
  rw [cost_eq_sum same, Finset.add_sum_erase _ (fun index => valueAt weights index * valueAt lengths index) other,
    Finset.add_sum_erase _ (fun index => valueAt weights index * valueAt lengths index) (Finset.mem_range.2 firstIn)]

theorem cost_exchanged_lt (same : lengths.length = weights.length) (firstIn : first < weights.length)
    (secondIn : second < weights.length) (heavier : valueAt weights second < valueAt weights first)
    (longer : valueAt lengths second < valueAt lengths first) :
    cost weights (exchanged lengths first second) < cost weights lengths := by
  have different : first ≠ second := by
    rintro rfl
    exact Nat.lt_irrefl _ heavier
  have sameToo : (exchanged lengths first second).length = weights.length := (length_exchanged ..).trans same
  have others : ∑ index ∈ ((Finset.range weights.length).erase first).erase second,
      valueAt weights index * valueAt (exchanged lengths first second) index =
      ∑ index ∈ ((Finset.range weights.length).erase first).erase second,
        valueAt weights index * valueAt lengths index := by
    refine Finset.sum_congr rfl fun index member => ?_
    simp only [Finset.mem_erase, Finset.mem_range] at member
    rw [valueAt_exchanged (same ▸ member.2.2), Equiv.swap_apply_of_ne_of_ne member.2.1 member.1]
  rw [cost_eq_add_others sameToo different firstIn secondIn, cost_eq_add_others same different firstIn secondIn, others,
    valueAt_exchanged (same ▸ firstIn), valueAt_exchanged (same ▸ secondIn), Equiv.swap_apply_left,
    Equiv.swap_apply_right]
  have saved := mul_add_mul_lt_mul_add_mul heavier longer
  omega

/-- Lengths that cost least order no two weights the wrong way. -/
theorem Optimal.antivaryOn (optimal : Optimal weights limit lengths) :
    AntivaryOn (valueAt lengths) (valueAt weights) (Set.Iio weights.length) := by
  intro light lightIn heavy heavyIn heavier
  have same := optimal.admissible.length_eq
  by_contra longer
  have cheaper := cost_exchanged_lt same heavyIn lightIn heavier (Nat.lt_of_not_le longer)
  have least := optimal.cost_le _ (optimal.admissible.exchanged (same ▸ heavyIn) (same ▸ lightIn))
  exact absurd cheaper (Nat.not_lt.2 least)

end Exchange

theorem antivaryOn_of_length_le_one {weights : List Nat} (few : weights.length ≤ 1) (lengths : List Nat) :
    AntivaryOn (valueAt lengths) (valueAt weights) (Set.Iio weights.length) := by
  intro light lightIn heavy heavyIn heavier
  rw [Set.mem_Iio] at lightIn heavyIn
  obtain rfl : light = heavy := by omega
  exact le_refl _

theorem MergeTree.antivaryOn_lengths (weights : List Nat) :
    AntivaryOn (valueAt (lengths weights)) (valueAt weights) (Set.Iio weights.length) := by
  rcases Nat.lt_or_ge weights.length 2 with few | several
  · exact antivaryOn_of_length_le_one (Nat.le_of_lt_succ few) _
  · exact (optimal_lengths several fun _ => List.le_sum_of_mem).antivaryOn

theorem Coin.antivaryOn_lengths {weights : List Nat} {limit : Nat} (enough : weights.length ≤ 2 ^ limit) :
    AntivaryOn (valueAt (lengths weights limit)) (valueAt weights) (Set.Iio weights.length) := by
  rcases Nat.lt_or_ge weights.length 2 with few | several
  · exact antivaryOn_of_length_le_one (Nat.le_of_lt_succ few) _
  · exact (optimal_lengths several enough).antivaryOn

namespace CodeTable

variable {α : Type} [DecidableEq α] {ranking : Ranking α} {maximum : Nat} {table : CodeTable α}

theorem exists_position (built : build ranking maximum = .ok table) {symbol : α} {frequency : UInt64}
    (known : ranking.frequencyOf symbol = some frequency) :
    ∃ position < ranking.size, valueAt (ranking.frequencies.map (·.toNat)) position = frequency.toNat ∧
      ∃ word, table.codeOf symbol = some word ∧ word.length =
        max ranking.minimum (valueAt (optimalLengths (ranking.frequencies.map (·.toNat)) maximum) position) := by
  obtain ⟨⟨positive, -⟩, -, room, accepted⟩ := build_eq_ok_iff.1 built
  obtain ⟨entry, found, rfl⟩ := Option.map_eq_some_iff.1 known
  obtain ⟨position, within, rfl⟩ := List.getElem_of_mem (List.mem_of_find?_eq_some found)
  obtain rfl : ranking.entries[position].symbol = symbol := by simpa using List.find?_some found
  have size : (optimalLengths (ranking.frequencies.map (·.toNat)) maximum).length = ranking.size :=
    length_ranked positive room
  have listed : (ranking.entries[position].symbol, max ranking.minimum
      (valueAt (optimalLengths (ranking.frequencies.map (·.toNat)) maximum) position)) ∈
      rankedLengths ranking maximum := by
    have inside : position < (rankedLengths ranking maximum).length := by
      rw [rankedLengths, List.length_zip, List.length_map, size, Ranking.length_symbols, Nat.min_self]
      exact within
    refine List.mem_of_getElem (i := position) (h := inside) ?_
    simp only [rankedLengths, List.getElem_zip, List.getElem_map, Ranking.symbols, valueAt]
    rw [List.getD_eq_getElem]
  obtain ⟨word, coded, length⟩ := exists_codeOf accepted listed
  refine ⟨position, within, ?_, word, coded, length⟩
  simp [valueAt, Ranking.frequencies, within]

/-- Neither merging nor coins give a heavier weight the longer word, and in no table that is built, whichever of the two
its lengths are from and whatever they are raised to, does a more frequent symbol have the longer word. -/
theorem frequent_not_longer :
    (∀ weights, AntivaryOn (valueAt (MergeTree.lengths weights)) (valueAt weights) (Set.Iio weights.length)) ∧
    (∀ weights limit, weights.length ≤ 2 ^ limit →
      AntivaryOn (valueAt (Coin.lengths weights limit)) (valueAt weights) (Set.Iio weights.length)) ∧
    ∀ (ranking : Ranking α) maximum table, build ranking maximum = .ok table →
      ∀ symbol other frequency otherFrequency, ranking.frequencyOf symbol = some frequency →
        ranking.frequencyOf other = some otherFrequency → otherFrequency < frequency →
        ∃ word otherWord, table.codeOf symbol = some word ∧ table.codeOf other = some otherWord ∧
          word.length ≤ otherWord.length := by
  refine ⟨MergeTree.antivaryOn_lengths, fun weights limit => Coin.antivaryOn_lengths, ?_⟩
  intro ranking maximum table built symbol other frequency otherFrequency known otherKnown heavier
  obtain ⟨⟨positive, -⟩, -, room, -⟩ := build_eq_ok_iff.1 built
  obtain ⟨position, within, weight, word, coded, length⟩ := exists_position built known
  obtain ⟨otherPosition, otherWithin, otherWeight, otherWord, otherCoded, otherLength⟩ := exists_position built otherKnown
  have lighter : valueAt (ranking.frequencies.map (·.toNat)) otherPosition <
      valueAt (ranking.frequencies.map (·.toNat)) position := by
    rw [weight, otherWeight]
    exact UInt64.lt_iff_toNat_lt.1 heavier
  have size : (ranking.frequencies.map (·.toNat)).length = ranking.size := by
    rw [List.length_map, Ranking.length_frequencies]
  have shorter := (optimal_ranked positive room).antivaryOn (size ▸ otherWithin) (size ▸ within) lighter
  refine ⟨word, otherWord, coded, otherCoded, ?_⟩
  rw [length, otherLength]
  exact max_le_max_left _ shorter

/-- Merging would give the two rarest letters words of four bits, three bits are allowed and two are asked for. -/
theorem frequent_not_longer_capped :
    ∃ (ranking : Ranking Char) (table : CodeTable Char),
      Ranking.build [('a', 8), ('b', 4), ('c', 2), ('d', 1)] (some 'z') 2 = .ok ranking ∧
      (∃ length ∈ MergeTree.lengths (ranking.frequencies.map (·.toNat)), 3 < length) ∧
      build ranking 3 = .ok table ∧
      ∃ word otherWord, table.codeOf 'c' = some word ∧ table.codeOf 'z' = some otherWord ∧
        word.length ≤ otherWord.length := by
  have ranked : Ranking.build [('a', 8), ('b', 4), ('c', 2), ('d', 1)] (some 'z') 2 =
      .ok ⟨[⟨'a', 8, 0⟩, ⟨'b', 4, 1⟩, ⟨'c', 2, 2⟩, ⟨'d', 1, 3⟩, ⟨'z', 0, 4⟩], some 'z', 2⟩ := by cbv
  obtain ⟨table, built⟩ := exists_build (Ranking.sound_of_build ranked) (by decide : 1 ≤ 3 ∧ 3 ≤ 64) (by decide)
    (by decide)
  have exceeded : ∃ length ∈ MergeTree.lengths [8, 4, 2, 1, 0], 3 < length := by
    have lengths : MergeTree.lengths [8, 4, 2, 1, 0] = [1, 2, 3, 4, 4] := by cbv
    exact ⟨4, by simp [lengths], by decide⟩
  obtain ⟨-, -, ordered⟩ := frequent_not_longer (α := Char)
  exact ⟨_, table, ranked, exceeded, built, ordered _ 3 table built 'c' 'z' 2 0 (by decide) (by decide) (by decide)⟩

end CodeTable

end HuffmanStrings
