import Mathlib
import HuffmanStrings.Code.Table
import HuffmanStrings.Proofs.Code.Canonical
import HuffmanStrings.Proofs.Code.CoinMerge
import HuffmanStrings.Proofs.Code.MergeTree
import HuffmanStrings.Proofs.Symbol.Ranking

/-!
Building a table. The lengths of merging, or of coins where those are too long, leave room for prefix-free words and
cost least; raised to the minimum they leave more room. So a table is built whenever the bounds allow one at all.
-/

namespace HuffmanStrings

namespace Ranking

variable {α : Type}

/-- What it takes to write each ranked symbol as often as it is frequent, in words of the given lengths. -/
def totalLength (ranking : Ranking α) (lengths : α → Nat) : Nat :=
  (ranking.entries.map fun entry => entry.frequency.toNat * lengths entry.symbol).sum

theorem totalLength_eq_cost (ranking : Ranking α) (lengths : α → Nat) :
    ranking.totalLength lengths = cost (ranking.frequencies.map (·.toNat)) (ranking.symbols.map lengths) := by
  rw [totalLength, cost, frequencies, symbols, List.map_map, List.map_map, List.zipWith_map,
    List.zipWith_self]
  rfl

end Ranking

namespace CodeTable

section OptimalLengths

variable {weights : List Nat} {limit : Nat}

theorem optimalLengths_eq_merge (within : ∀ length ∈ MergeTree.lengths weights, length ≤ limit) :
    optimalLengths weights limit = MergeTree.lengths weights := by
  have kept : ¬∃ length ∈ MergeTree.lengths weights, limit < length := by
    rintro ⟨length, member, longer⟩
    exact absurd (within length member) (Nat.not_le.2 longer)
  simp only [optimalLengths, if_neg kept]

theorem optimalLengths_eq_coins (exceeded : ∃ length ∈ MergeTree.lengths weights, limit < length) :
    optimalLengths weights limit = Coin.lengths weights limit := by
  simp only [optimalLengths, if_pos exceeded]

theorem optimal_singleton (weight : Nat) (positive : 1 ≤ limit) : Optimal [weight] limit [1] := by
  refine ⟨⟨rfl, by simpa using positive, by norm_num⟩, fun others admissible => ?_⟩
  obtain ⟨length, rfl⟩ := List.length_eq_one_iff.1 admissible.length_eq
  have nonempty := (admissible.range length (List.mem_singleton_self _)).1
  simpa [cost] using Nat.mul_le_mul_left weight nonempty

theorem optimal_optimalLengths (positive : 1 ≤ limit) (enough : weights.length ≤ 2 ^ limit) :
    Optimal weights limit (optimalLengths weights limit) := by
  rcases weights with _ | ⟨weight, _ | ⟨other, rest⟩⟩
  · exact ⟨⟨rfl, by simp [optimalLengths, MergeTree.lengths], by simp [optimalLengths, MergeTree.lengths]⟩,
      fun _ _ => by simp [cost]⟩
  · rw [optimalLengths_eq_merge (by simpa [MergeTree.lengths] using positive)]
    exact optimal_singleton weight positive
  · have several : 2 ≤ (weight :: other :: rest).length := by simp
    by_cases exceeded : ∃ length ∈ MergeTree.lengths (weight :: other :: rest), limit < length
    · rw [optimalLengths_eq_coins exceeded]
      exact Coin.optimal_lengths several enough
    · have within : ∀ length ∈ MergeTree.lengths (weight :: other :: rest), length ≤ limit := by
        simpa only [not_exists, not_and, Nat.not_lt] using exceeded
      rw [optimalLengths_eq_merge within]
      exact MergeTree.optimal_lengths several within

end OptimalLengths

section Tables

variable {α : Type}

theorem eq_of_lengths {t u : CodeTable α} (lengths : t.lengths = u.lengths) (escape : t.escape = u.escape) : t = u := by
  obtain ⟨_, _, _, _, _, codes, codesSame, buckets, bucketsSame⟩ := t
  obtain ⟨_, _, _, _, _, otherCodes, otherCodesSame, otherBuckets, otherBucketsSame⟩ := u
  dsimp only at lengths escape
  subst lengths escape codesSame bucketsSame otherCodesSame otherBucketsSame
  rfl

variable [DecidableEq α]

theorem firstFlaw_eq_none_iff {seen : List α} {entries : List (α × Nat)} :
    Realisable.firstFlaw seen entries = none ↔ (entries.map (·.1)).Nodup ∧
      (∀ symbol ∈ entries.map (·.1), symbol ∉ seen) ∧ ∀ entry ∈ entries, 1 ≤ entry.2 ∧ entry.2 ≤ maximumCodeLength := by
  constructor
  · intro clean
    obtain ⟨distinct, fresh⟩ := Realisable.distinct_of_firstFlaw clean
    exact ⟨distinct, fresh, Realisable.range_of_firstFlaw clean⟩
  · rintro ⟨distinct, fresh, range⟩
    induction entries generalizing seen with
    | nil => rfl
    | cons entry rest ih =>
      rw [List.map_cons, List.nodup_cons] at distinct
      rw [List.map_cons, List.forall_mem_cons] at fresh
      rw [List.forall_mem_cons] at range
      have within : ¬(entry.2 = 0 ∨ maximumCodeLength < entry.2) := by omega
      rw [Realisable.firstFlaw, if_neg within, if_neg fresh.1]
      refine ih distinct.2 (fun symbol member => ?_) range.2
      rw [List.mem_cons, not_or]
      exact ⟨fun same => distinct.1 (same ▸ member), fresh.2 symbol member⟩

theorem ofLengths_eq_ok_iff {entries : List (α × Nat)} {escape : Option α} {table : CodeTable α} :
    ofLengths entries escape = .ok table ↔ Realisable entries ∧ (∀ symbol ∈ escape, symbol ∈ entries.map (·.1)) ∧
      table.lengths = Canonical.order entries ∧ table.escape = escape := by
  constructor
  · intro accepted
    unfold ofLengths at accepted
    split at accepted
    · cases accepted
    · rename_i nonempty
      split at accepted
      · cases accepted
      · rename_i clean
        split at accepted
        · rename_i kraft
          split at accepted
          · rename_i member
            cases accepted
            obtain ⟨distinct, -, range⟩ := firstFlaw_eq_none_iff.1 clean
            exact ⟨⟨nonempty, distinct, range, kraft⟩, member, rfl, rfl⟩
          · cases accepted
        · cases accepted
  · rintro ⟨realisable, member, lengths, same⟩
    have clean : Realisable.firstFlaw [] entries = none :=
      firstFlaw_eq_none_iff.2 ⟨realisable.distinct, by simp, realisable.range⟩
    unfold ofLengths
    rw [dif_neg realisable.nonempty]
    split
    · rename_i flawed
      rw [clean] at flawed
      cases flawed
    · rw [dif_pos realisable.kraft, dif_pos member]
      exact congrArg Except.ok (eq_of_lengths lengths.symm same.symm)

theorem exists_ofLengths {entries : List (α × Nat)} {escape : Option α} (realisable : Realisable entries)
    (member : ∀ symbol ∈ escape, symbol ∈ entries.map (·.1)) : ∃ table, ofLengths entries escape = .ok table := by
  have range := realisable.range
  let table : CodeTable α := {
    lengths := Canonical.order entries
    escape
    realisable := realisable_order realisable
    ordered := Canonical.pairwise_order entries
    escape_mem := fun symbol given => ((Canonical.perm_order range).map _).mem_iff.2 (member symbol given) }
  exact ⟨table, ofLengths_eq_ok_iff.2 ⟨realisable, member, rfl, rfl⟩⟩

/-- The length of a symbol's word, 0 if it has none. -/
def lengthOf (t : CodeTable α) (symbol : α) : Nat :=
  ((t.codeOf symbol).map (·.length)).getD 0

theorem perm_lengths {entries : List (α × Nat)} {escape : Option α} {table : CodeTable α}
    (accepted : ofLengths entries escape = .ok table) : table.lengths.Perm entries := by
  obtain ⟨realisable, -, lengths, -⟩ := ofLengths_eq_ok_iff.1 accepted
  rw [lengths]
  exact Canonical.perm_order realisable.range

theorem exists_codeOf {entries : List (α × Nat)} {escape : Option α} {table : CodeTable α}
    (accepted : ofLengths entries escape = .ok table) {entry : α × Nat} (member : entry ∈ entries) :
    ∃ word, table.codeOf entry.1 = some word ∧ word.length = entry.2 := by
  have listed := (perm_lengths accepted).mem_iff.2 member
  rw [← table.map_codes] at listed
  obtain ⟨code, known, rfl⟩ := List.mem_map.1 listed
  exact ⟨code.2, codeOf_eq_some_iff.2 known, rfl⟩

theorem lengthOf_eq {entries : List (α × Nat)} {escape : Option α} {table : CodeTable α}
    (accepted : ofLengths entries escape = .ok table) {entry : α × Nat} (member : entry ∈ entries) :
    table.lengthOf entry.1 = entry.2 := by
  obtain ⟨word, coded, same⟩ := exists_codeOf accepted member
  rw [lengthOf, coded, Option.map_some, Option.getD_some, same]

end Tables

section Build

variable {α : Type} {ranking : Ranking α} {maximum : Nat}

def rankedLengths (ranking : Ranking α) (maximum : Nat) : List (α × Nat) :=
  ranking.symbols.zip
    ((optimalLengths (ranking.frequencies.map (·.toNat)) maximum).map (max ranking.minimum))

section Bounds

variable (positive : 1 ≤ maximum) (room : ranking.size ≤ 2 ^ maximum)

include positive room

theorem optimal_ranked : Optimal (ranking.frequencies.map (·.toNat)) maximum
    (optimalLengths (ranking.frequencies.map (·.toNat)) maximum) := by
  apply optimal_optimalLengths positive
  rwa [List.length_map, Ranking.length_frequencies]

theorem length_ranked : (optimalLengths (ranking.frequencies.map (·.toNat)) maximum).length = ranking.size := by
  rw [(optimal_ranked positive room).admissible.length_eq, List.length_map, Ranking.length_frequencies]

theorem map_fst_rankedLengths : (rankedLengths ranking maximum).map (·.1) = ranking.symbols := by
  apply List.map_fst_zip
  rw [List.length_map, length_ranked positive room, Ranking.length_symbols]

theorem map_snd_rankedLengths : (rankedLengths ranking maximum).map (·.2) =
    (optimalLengths (ranking.frequencies.map (·.toNat)) maximum).map (max ranking.minimum) := by
  apply List.map_snd_zip
  rw [List.length_map, length_ranked positive room, Ranking.length_symbols]

theorem range_rankedLengths (order : ranking.minimum ≤ maximum) {entry : α × Nat}
    (member : entry ∈ rankedLengths ranking maximum) : ranking.minimum ≤ entry.2 ∧ 1 ≤ entry.2 ∧ entry.2 ≤ maximum := by
  have listed := List.mem_map_of_mem (f := fun entry : α × Nat => entry.2) member
  rw [map_snd_rankedLengths positive room] at listed
  obtain ⟨length, optimal, same⟩ := List.mem_map.1 listed
  have := (optimal_ranked positive room).admissible.range length optimal
  omega

theorem realisable_rankedLengths (sound : ranking.Sound) (range : maximum ≤ maximumCodeLength)
    (order : ranking.minimum ≤ maximum) : Realisable (rankedLengths ranking maximum) := by
  have symbols := map_fst_rankedLengths positive room
  have within : ∀ entry ∈ rankedLengths ranking maximum, 1 ≤ entry.2 ∧ entry.2 ≤ maximumCodeLength := by
    intro entry member
    have := range_rankedLengths positive room order member
    omega
  refine ⟨fun none => sound.nonempty ?_, symbols ▸ sound.distinct, within, ?_⟩
  · rw [none, List.map_nil] at symbols
    exact List.map_eq_nil_iff.1 symbols.symm
  · rw [kraftSum_le_iff fun entry member => (within entry member).2, map_snd_rankedLengths positive room]
    exact (kraft_map_max_le ..).trans (optimal_ranked positive room).admissible.kraft_le

end Bounds

variable [DecidableEq α]

theorem build_eq_ok_iff {table : CodeTable α} : build ranking maximum = .ok table ↔
    (1 ≤ maximum ∧ maximum ≤ maximumCodeLength) ∧ ranking.minimum ≤ maximum ∧ ranking.size ≤ 2 ^ maximum ∧
      ofLengths (rankedLengths ranking maximum) ranking.escape = .ok table := by
  rw [← Nat.one_shiftLeft]
  unfold build
  split
  · simp only [reduceCtorEq, false_iff]
    omega
  · split
    · simp only [reduceCtorEq, false_iff]
      omega
    · split
      · simp only [reduceCtorEq, false_iff]
        omega
      · rename_i range order room
        constructor
        · exact fun built => ⟨by omega, by omega, by omega, built⟩
        · exact fun ⟨_, _, _, built⟩ => built

theorem escape_of_build {table : CodeTable α} (built : build ranking maximum = .ok table) :
    table.escape = ranking.escape :=
  (ofLengths_eq_ok_iff.1 (build_eq_ok_iff.1 built).2.2.2).2.2.2

theorem mem_symbols_of_build {table : CodeTable α} (built : build ranking maximum = .ok table) {symbol : α} :
    symbol ∈ table.symbols ↔ symbol ∈ ranking.symbols := by
  obtain ⟨⟨positive, -⟩, -, room, accepted⟩ := build_eq_ok_iff.1 built
  rw [symbols, ((perm_lengths accepted).map _).mem_iff, map_fst_rankedLengths positive room]

/-- A code for some symbols that needs no look-ahead: each has one word, of a length within the bounds, and no word
begins that of another symbol. -/
structure PrefixCode (table : CodeTable α) (symbols : List α) (minimum maximum : Nat) : Prop where
  distinct : symbols.Nodup
  perm : table.symbols.Perm symbols
  unique : ∀ symbol ∈ symbols, ∃ word, table.codeOf symbol = some word ∧
    ∀ other, (symbol, other) ∈ table.codes ↔ other = word
  range : ∀ entry ∈ table.codes, minimum ≤ entry.2.length ∧ entry.2.length ≤ maximum
  fits : ∀ entry ∈ table.codes, entry.2.value.toNat < 2 ^ entry.2.length
  not_prefix : ∀ entry ∈ table.codes, ∀ other ∈ table.codes, entry.1 ≠ other.1 →
    ¬entry.2.toBits <+: other.2.toBits ∧ entry.2.isPrefixOf other.2 = false

theorem prefixCode_of_ofLengths {entries : List (α × Nat)} {escape : Option α} {table : CodeTable α}
    (accepted : ofLengths entries escape = .ok table) {minimum maximum : Nat}
    (range : ∀ entry ∈ entries, minimum ≤ entry.2 ∧ entry.2 ≤ maximum) :
    PrefixCode table (entries.map (·.1)) minimum maximum := by
  have perm := perm_lengths accepted
  refine ⟨?_, perm.map _, ?_, ?_, fun _ => fits, ?_⟩
  · exact (ofLengths_eq_ok_iff.1 accepted).1.distinct
  · intro symbol member
    obtain ⟨entry, given, rfl⟩ := List.mem_map.1 member
    obtain ⟨word, coded, -⟩ := exists_codeOf accepted given
    refine ⟨word, coded, fun other => ?_⟩
    rw [← codeOf_eq_some_iff, coded, Option.some_inj, eq_comm]
  · intro entry member
    exact range _ (perm.mem_iff.1 (mem_lengths member))
  · intro entry member other otherMember different
    have apart : ¬entry.2.toBits <+: other.2.toBits := fun begins =>
      different (congrArg Prod.fst (eq_of_begins member otherMember begins))
    refine ⟨apart, Bool.eq_false_iff.2 fun shifted => apart ?_⟩
    exact (CodeWord.isPrefixOf_iff (length_range member).1 (length_range otherMember).2 (fits member)
      (fits otherMember)).1 shifted

theorem exists_build (sound : ranking.Sound) (range : 1 ≤ maximum ∧ maximum ≤ maximumCodeLength)
    (order : ranking.minimum ≤ maximum) (room : ranking.size ≤ 2 ^ maximum) :
    ∃ table, build ranking maximum = .ok table := by
  have symbols := map_fst_rankedLengths range.1 room
  have realisable := realisable_rankedLengths range.1 room sound range.2 order
  obtain ⟨table, accepted⟩ := exists_ofLengths realisable (symbols ▸ sound.escape_mem)
  exact ⟨table, build_eq_ok_iff.2 ⟨range, order, room, accepted⟩⟩

/-- It is a prefix-free code of all symbols that were supplied, and of the escape. -/
theorem build_prefixCode {frequencies : List (α × UInt64)} {escape : Option α} {minimum : Nat}
    (ranked : Ranking.build frequencies escape minimum = .ok ranking) (range : 1 ≤ maximum ∧ maximum ≤ 64)
    (order : minimum ≤ maximum) (room : ranking.size ≤ 2 ^ maximum) :
    ∃ table, build ranking maximum = .ok table ∧ PrefixCode table ranking.symbols minimum maximum ∧
      table.escape = escape ∧
      ∀ symbol, symbol ∈ ranking.symbols ↔ symbol ∈ frequencies.map (·.1) ∨ symbol ∈ escape := by
  obtain ⟨-, -, same⟩ := Ranking.build_eq_ok ranked
  have escapeSame : ranking.escape = escape := congrArg Ranking.escape same
  obtain rfl : ranking.minimum = minimum := congrArg Ranking.minimum same
  obtain ⟨table, built⟩ := exists_build (Ranking.sound_of_build ranked) range order room
  obtain ⟨-, -, -, accepted⟩ := build_eq_ok_iff.1 built
  refine ⟨table, built, ?_, ?_, fun _ => Ranking.mem_symbols_of_build ranked⟩
  · rw [← map_fst_rankedLengths range.1 room]
    refine prefixCode_of_ofLengths accepted fun entry member => ?_
    obtain ⟨lower, -, upper⟩ := range_rankedLengths range.1 room order member
    exact ⟨lower, upper⟩
  · rw [← escapeSame]
    exact (ofLengths_eq_ok_iff.1 accepted).2.2.2

theorem build_prefixCode_letters :
    ∃ (ranking : Ranking Char) (table : CodeTable Char),
      Ranking.build [('a', 5), ('b', 2), ('a', 1)] (some 'z') 2 = .ok ranking ∧ build ranking 3 = .ok table ∧
      PrefixCode table ['a', 'b', 'z'] 2 3 := by
  have ranked : Ranking.build [('a', 5), ('b', 2), ('a', 1)] (some 'z') 2 =
      .ok ⟨[⟨'a', 6, 0⟩, ⟨'b', 2, 1⟩, ⟨'z', 0, 2⟩], some 'z', 2⟩ := by cbv
  obtain ⟨table, built, code, -⟩ := build_prefixCode ranked (by decide : 1 ≤ 3 ∧ 3 ≤ 64) (by decide) (by decide)
  exact ⟨_, table, ranked, built, code⟩

/-- A table's words take no more than words of any other lengths that prefix-free words can have. -/
theorem build_optimal {table : CodeTable α} (least : ranking.minimum = 1) (built : build ranking maximum = .ok table) :
    ((∀ symbol ∈ ranking.symbols, 1 ≤ table.lengthOf symbol ∧ table.lengthOf symbol ≤ maximum) ∧
      kraft (ranking.symbols.map table.lengthOf) ≤ 1) ∧
    ∀ lengths : α → Nat, (∀ symbol ∈ ranking.symbols, 1 ≤ lengths symbol ∧ lengths symbol ≤ maximum) →
      kraft (ranking.symbols.map lengths) ≤ 1 →
      ranking.totalLength table.lengthOf ≤ ranking.totalLength lengths := by
  obtain ⟨⟨positive, -⟩, -, room, accepted⟩ := build_eq_ok_iff.1 built
  have optimal := optimal_ranked positive room
  have kept : ranking.symbols.map table.lengthOf = optimalLengths (ranking.frequencies.map (·.toNat)) maximum := by
    have raised := map_snd_rankedLengths positive room
    rw [least, List.map_congr_left fun length member => max_eq_right (optimal.admissible.range length member).1,
      List.map_id'] at raised
    rw [← raised, ← map_fst_rankedLengths positive room, List.map_map]
    exact List.map_congr_left fun entry member => lengthOf_eq accepted member
  have range := optimal.admissible.range
  rw [← kept, List.forall_mem_map] at range
  refine ⟨⟨range, kept ▸ optimal.admissible.kraft_le⟩, fun lengths others bound => ?_⟩
  rw [Ranking.totalLength_eq_cost, Ranking.totalLength_eq_cost, kept]
  refine optimal.cost_le _ ⟨?_, List.forall_mem_map.2 others, bound⟩
  rw [List.length_map, List.length_map, Ranking.length_symbols, Ranking.length_frequencies]

/-- Words of two bits for all would take 16. -/
theorem build_optimal_letters :
    ∃ (ranking : Ranking Char) (table : CodeTable Char),
      Ranking.build [('a', 5), ('b', 2), ('a', 1)] (some 'z') 1 = .ok ranking ∧ build ranking 3 = .ok table ∧
      ranking.totalLength table.lengthOf ≤ 16 := by
  have ranked : Ranking.build [('a', 5), ('b', 2), ('a', 1)] (some 'z') 1 =
      .ok ⟨[⟨'a', 6, 0⟩, ⟨'b', 2, 1⟩, ⟨'z', 0, 2⟩], some 'z', 1⟩ := by cbv
  obtain ⟨table, built⟩ := exists_build (Ranking.sound_of_build ranked) (by decide : 1 ≤ 3 ∧ 3 ≤ 64) (by decide)
    (by decide)
  have least := (build_optimal rfl built).2 (fun _ => 2) (by simp) (by norm_num [Ranking.symbols, kraft])
  exact ⟨_, table, ranked, built, least.trans_eq (by decide)⟩

end Build

end CodeTable

end HuffmanStrings
