import Mathlib
import HuffmanStrings.Proofs.Code.Building
import HuffmanStrings.Proofs.Code.Decoding

/-!
Complete codes. If the shares of the words add up to 1, the numbers that begin with a word are all the numbers there are,
so every long enough row of bits begins with a word, and reading never comes to a code that is not known. The lengths of
merging add up to 1, and so do those of coins; a table has just these lengths unless the minimum has raised some.
-/

namespace HuffmanStrings

theorem CodeWord.toBits_prefix_of_between {w : CodeWord} {bits : List Bool} (fits : w.value.toNat < 2 ^ w.length)
    (shorter : w.length ≤ bits.length) (within : bits.length ≤ maximumCodeLength)
    (above : w.lower ≤ Bits.toNat bits * 2 ^ (maximumCodeLength - bits.length))
    (below : Bits.toNat bits * 2 ^ (maximumCodeLength - bits.length) < w.upper) : w.toBits <+: bits := by
  have scale := split_scale shorter within
  rw [lower, scale, ← Nat.mul_assoc] at above
  rw [upper, scale, ← Nat.mul_assoc] at below
  have least := Nat.le_of_mul_le_mul_right above (Nat.two_pow_pos _)
  have greatest := Nat.lt_of_mul_lt_mul_right below
  have begins : Bits.ofNat w.length w.value.toNat <+: Bits.ofNat bits.length (Bits.toNat bits) := by
    apply (Bits.ofNat_prefix_iff fits (Bits.toNat_lt bits)).2
    exact ⟨shorter, Nat.div_eq_of_lt_le least greatest⟩
  rwa [Bits.ofNat_toNat] at begins

theorem Canonical.Adjoining.exists_between {α : Type} {position number : Nat} {codes : List (α × CodeWord)}
    (adjoining : Adjoining position codes) (above : position ≤ number)
    (below : number < position + kraftSum (codes.map fun entry => (entry.1, entry.2.length))) :
    ∃ entry ∈ codes, entry.2.lower ≤ number ∧ number < entry.2.upper := by
  induction codes generalizing position with
  | nil =>
    simp only [List.map_nil, kraftSum, Nat.add_zero] at below
    exact absurd above (Nat.not_le.2 below)
  | cons head rest ih =>
    obtain ⟨begun, adjoining⟩ := adjoining
    have size := head.2.upper_eq
    simp only [List.map_cons, kraftSum, Nat.one_shiftLeft] at below
    by_cases first : number < head.2.upper
    · exact ⟨head, List.mem_cons_self .., by omega, first⟩
    · obtain ⟨entry, member, between⟩ := ih adjoining (Nat.le_of_not_lt first) (by omega)
      exact ⟨entry, List.mem_cons_of_mem _ member, between⟩

namespace CodeTable

variable {α : Type}

theorem exists_begins {t : CodeTable α} (whole : kraft (t.lengths.map (·.2)) = 1) {bits : List Bool}
    (long : t.longest ≤ bits.length) : ∃ entry ∈ t.codes, entry.2.toBits <+: bits := by
  have total : kraftSum t.lengths = 2 ^ maximumCodeLength := by
    have sum := kraftSum_eq fun entry member => (t.realisable.range entry member).2
    rw [whole, mul_one] at sum
    exact_mod_cast sum
  have size : (bits.take t.longest).length = t.longest := by
    rw [List.length_take, Nat.min_eq_left long]
  have number : Bits.toNat (bits.take t.longest) * 2 ^ (maximumCodeLength - t.longest) < 2 ^ maximumCodeLength := by
    calc
      _ < 2 ^ t.longest * 2 ^ (maximumCodeLength - t.longest) := by
        apply Nat.mul_lt_mul_of_pos_right _ (Nat.two_pow_pos _)
        exact (Bits.toNat_lt _).trans_eq (congrArg (2 ^ ·) size)
      _ = 2 ^ maximumCodeLength := by rw [← pow_add, Nat.add_sub_cancel' t.longest_le]
  rw [← total, ← t.map_codes, ← Nat.zero_add (kraftSum _)] at number
  obtain ⟨entry, member, above, below⟩ := t.adjoining_codes.exists_between (Nat.zero_le _) number
  refine ⟨entry, member, List.IsPrefix.trans ?_ (List.take_prefix t.longest bits)⟩
  apply CodeWord.toBits_prefix_of_between (fits member)
  · exact (length_le_longest member).trans_eq size.symm
  · exact size.trans_le t.longest_le
  · rwa [size]
  · rwa [size]

variable [DecidableEq α]

/-- The words of a table leave nothing over: their shares add up to 1, just one of them begins any bits that are long
enough, and reading never comes to an unknown code. -/
structure Complete (t : CodeTable α) : Prop where
  kraft_eq : kraft (t.symbols.map t.lengthOf) = 1
  exists_unique : ∀ bits : List Bool, t.longest ≤ bits.length →
    ∃! entry : α × CodeWord, t.codeOf entry.1 = some entry.2 ∧ entry.2.toBits <+: bits
  known : ∀ (s : BitStore) position s', t.decode s ≠ .error (.unknownCode position) s'

theorem map_lengthOf (t : CodeTable α) : t.symbols.map t.lengthOf = t.lengths.map (·.2) := by
  rw [symbols, List.map_map]
  refine List.map_congr_left fun entry member => ?_
  rw [← t.map_codes] at member
  obtain ⟨code, known, rfl⟩ := List.mem_map.1 member
  have coded : t.codeOf code.1 = some code.2 := codeOf_eq_some_iff.2 known
  simp only [Function.comp_apply, lengthOf, coded, Option.map_some, Option.getD_some]

theorem complete_of_kraft {t : CodeTable α} (whole : kraft (t.lengths.map (·.2)) = 1) : t.Complete where
  kraft_eq := t.map_lengthOf ▸ whole
  exists_unique bits long := by
    obtain ⟨entry, member, begins⟩ := exists_begins whole long
    have coded : t.codeOf entry.1 = some entry.2 := codeOf_eq_some_iff.2 member
    refine ⟨entry, ⟨coded, begins⟩, fun other ⟨otherCoded, otherBegins⟩ => ?_⟩
    have same := symbol_unique coded otherCoded begins otherBegins
    rw [same, coded, Option.some_inj] at otherCoded
    exact Prod.ext same otherCoded.symm
  known s position s' unknown := by
    rcases t.decode_cases s with ⟨_, _, _, _, result⟩ | ⟨unmatched, long, -⟩ | ⟨_, _, result⟩
    · rw [result] at unknown
      cases unknown
    · obtain ⟨entry, member, begins⟩ := exists_begins whole long
      exact unmatched_iff.1 unmatched entry member begins
    · rw [result] at unknown
      cases unknown

theorem kraft_optimalLengths {weights : List Nat} {limit : Nat} (several : 2 ≤ weights.length)
    (enough : weights.length ≤ 2 ^ limit) : kraft (optimalLengths weights limit) = 1 := by
  by_cases exceeded : ∃ length ∈ MergeTree.lengths weights, limit < length
  · rw [optimalLengths_eq_coins exceeded]
    exact Coin.kraft_lengths several enough
  · have within : ∀ length ∈ MergeTree.lengths weights, length ≤ limit := by
      simpa only [not_exists, not_and, Nat.not_lt] using exceeded
    rw [optimalLengths_eq_merge within]
    exact MergeTree.kraft_lengths several

theorem complete_of_build {ranking : Ranking α} {maximum : Nat} {table : CodeTable α} (least : ranking.minimum = 1)
    (several : 2 ≤ ranking.size) (built : build ranking maximum = .ok table) : table.Complete := by
  obtain ⟨⟨positive, -⟩, -, room, accepted⟩ := build_eq_ok_iff.1 built
  have range := (optimal_ranked positive room).admissible.range
  have size : (ranking.frequencies.map (·.toNat)).length = ranking.size := by
    rw [List.length_map, Ranking.length_frequencies]
  apply complete_of_kraft
  calc
    kraft (table.lengths.map (·.2)) = kraft ((rankedLengths ranking maximum).map (·.2)) :=
      kraft_perm ((perm_lengths accepted).map _)
    _ = kraft ((optimalLengths (ranking.frequencies.map (·.toNat)) maximum).map (max 1)) := by
      rw [map_snd_rankedLengths positive room, least]
    _ = kraft (optimalLengths (ranking.frequencies.map (·.toNat)) maximum) := by
      rw [List.map_congr_left fun length member => max_eq_right (range length member).1, List.map_id']
    _ = 1 := kraft_optimalLengths (several.trans_eq size.symm) (size.trans_le room)

end CodeTable

end HuffmanStrings
