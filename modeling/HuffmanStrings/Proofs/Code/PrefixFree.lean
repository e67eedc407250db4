import Mathlib
import HuffmanStrings.Proofs.Code.Building

/-!
Which lengths prefix-free words can have. Words none of which begins another leave no doubt about where each of them
ends in a row of them, so Kraft's inequality holds for them; and where it holds, a table assigns such words. The
inequality that a table checks in units of `2 ^ -64` thus says that there are words of these lengths.
-/

namespace HuffmanStrings

/-- Each entry's word has the entry's length, and begins no other entry's word. -/
structure PrefixFree {α : Type} (words : α → List Bool) (entries : List (α × Nat)) : Prop where
  length_eq : ∀ entry ∈ entries, (words entry.1).length = entry.2
  eq_of_prefix : ∀ entry ∈ entries, ∀ other ∈ entries, words entry.1 <+: words other.1 → entry = other

theorem uniquelyDecodable_of_prefix {words : Set (List Bool)} (nonempty : [] ∉ words)
    (apart : ∀ word ∈ words, ∀ other ∈ words, word <+: other → word = other) :
    InformationTheory.UniquelyDecodable words := by
  intro row
  induction row with
  | nil =>
    intro others _ members same
    cases others with
    | nil => rfl
    | cons other others =>
      rw [List.forall_mem_cons] at members
      rw [List.flatten_nil, List.flatten_cons, eq_comm, List.append_eq_nil_iff] at same
      exact absurd (same.1 ▸ members.1) nonempty
  | cons word row ih =>
    intro others members otherMembers same
    rw [List.forall_mem_cons] at members
    cases others with
    | nil =>
      rw [List.flatten_nil, List.flatten_cons, List.append_eq_nil_iff] at same
      exact absurd (same.1 ▸ members.1) nonempty
    | cons other others =>
      rw [List.forall_mem_cons] at otherMembers
      rw [List.flatten_cons, List.flatten_cons] at same
      have begins : word <+: word ++ row.flatten := List.prefix_append ..
      have otherBegins : other <+: word ++ row.flatten := same ▸ List.prefix_append ..
      -- Both begin the row, so one of them begins the other.
      obtain rfl : word = other := by
        rcases List.prefix_or_prefix_of_prefix begins otherBegins with inside | inside
        · exact apart _ members.1 _ otherMembers.1 inside
        · exact (apart _ otherMembers.1 _ members.1 inside).symm
      rw [ih others members.2 otherMembers.2 (List.append_cancel_left same)]

namespace PrefixFree

variable {α : Type} {words : α → List Bool} {entries : List (α × Nat)}

theorem kraft_le (free : PrefixFree words entries) (distinct : (entries.map (·.1)).Nodup)
    (positive : ∀ entry ∈ entries, 1 ≤ entry.2) : kraft (entries.map (·.2)) ≤ 1 := by
  -- The inequality is about a set of words, so no two entries may share one.
  have injective : (entries.map fun entry => words entry.1).Nodup := by
    refine (List.Nodup.of_map _ distinct).map_on fun entry member other otherMember same => ?_
    exact free.eq_of_prefix entry member other otherMember (same ▸ List.prefix_rfl)
  have decodable : InformationTheory.UniquelyDecodable
      ((entries.map fun entry => words entry.1).toFinset : Set (List Bool)) := by
    apply uniquelyDecodable_of_prefix
    · intro empty
      obtain ⟨entry, member, none⟩ := List.mem_map.1 (List.mem_toFinset.1 empty)
      have length := free.length_eq entry member
      rw [none, List.length_nil] at length
      exact absurd (positive entry member) (by omega)
    · intro word member other otherMember begins
      obtain ⟨entry, given, rfl⟩ := List.mem_map.1 (List.mem_toFinset.1 member)
      obtain ⟨otherEntry, otherGiven, rfl⟩ := List.mem_map.1 (List.mem_toFinset.1 otherMember)
      rw [free.eq_of_prefix entry given otherEntry otherGiven begins]
  have bound := InformationTheory.kraft_mcmillan_inequality decodable
  rw [List.sum_toFinset _ injective, List.map_map] at bound
  have shares : (kraft (entries.map (·.2)) : ℝ) =
      (entries.map ((fun word => (1 / Fintype.card Bool : ℝ) ^ word.length) ∘ fun entry => words entry.1)).sum := by
    rw [kraft, List.map_map, Rat.cast_list_sum, List.map_map]
    refine congrArg List.sum (List.map_congr_left fun entry member => ?_)
    simp [free.length_eq entry member]
  rw [← shares] at bound
  exact_mod_cast bound

end PrefixFree

structure Acceptable {α : Type} (entries : List (α × Nat)) (escape : Option α) : Prop where
  nonempty : entries ≠ []
  distinct : (entries.map (·.1)).Nodup
  range : ∀ entry ∈ entries, 1 ≤ entry.2 ∧ entry.2 ≤ maximumCodeLength
  escape_mem : ∀ symbol ∈ escape, symbol ∈ entries.map (·.1)
  words : ∃ words, PrefixFree words entries

namespace CodeTable

variable {α : Type} [DecidableEq α] {entries : List (α × Nat)} {escape : Option α} {table : CodeTable α}

def bitsOf (t : CodeTable α) (symbol : α) : List Bool :=
  ((t.codeOf symbol).map CodeWord.toBits).getD []

theorem bitsOf_eq {symbol : α} {word : CodeWord} (coded : table.codeOf symbol = some word) :
    table.bitsOf symbol = word.toBits := by
  rw [bitsOf, coded, Option.map_some, Option.getD_some]

theorem prefixFree_bitsOf (accepted : ofLengths entries escape = .ok table) : PrefixFree table.bitsOf entries where
  length_eq entry member := by
    obtain ⟨word, coded, length⟩ := exists_codeOf accepted member
    rw [bitsOf_eq coded, CodeWord.length_toBits, length]
  eq_of_prefix entry member other otherMember begins := by
    obtain ⟨word, coded, length⟩ := exists_codeOf accepted member
    obtain ⟨otherWord, otherCoded, otherLength⟩ := exists_codeOf accepted otherMember
    rw [bitsOf_eq coded, bitsOf_eq otherCoded] at begins
    have same := eq_of_begins (codeOf_eq_some_iff.1 coded) (codeOf_eq_some_iff.1 otherCoded) begins
    rw [Prod.mk.injEq] at same
    exact Prod.ext same.1 (by rw [← length, ← otherLength, same.2])

theorem contains_iff_mem_symbols {symbol : α} : table.contains symbol = true ↔ symbol ∈ table.symbols := by
  rw [contains, Option.isSome_iff_exists, ← map_fst_codes, List.mem_map]
  constructor
  · rintro ⟨word, coded⟩
    exact ⟨_, codeOf_eq_some_iff.1 coded, rfl⟩
  · rintro ⟨entry, member, rfl⟩
    exact ⟨entry.2, codeOf_eq_some_iff.2 member⟩

theorem codeOf_eq_none_iff {symbol : α} : table.codeOf symbol = none ↔ symbol ∉ table.symbols := by
  rw [← contains_iff_mem_symbols, contains, Bool.not_eq_true, Option.isSome_eq_false_iff, Option.isNone_iff_eq_none]

theorem mem_symbols_iff (accepted : ofLengths entries escape = .ok table) {symbol : α} :
    symbol ∈ table.symbols ↔ symbol ∈ entries.map (·.1) :=
  ((perm_lengths accepted).map (·.1)).mem_iff

/-- The check of the Kraft sum asks for just what prefix-free words need. -/
theorem acceptable_iff : Acceptable entries escape ↔
    Realisable entries ∧ ∀ symbol ∈ escape, symbol ∈ entries.map (·.1) := by
  constructor
  · rintro ⟨nonempty, distinct, range, member, words, free⟩
    have bound := free.kraft_le distinct fun entry given => (range entry given).1
    exact ⟨⟨nonempty, distinct, range, (kraftSum_le_iff fun entry given => (range entry given).2).2 bound⟩, member⟩
  · rintro ⟨realisable, member⟩
    obtain ⟨table, accepted⟩ := exists_ofLengths realisable member
    exact ⟨realisable.nonempty, realisable.distinct, realisable.range, member, _, prefixFree_bitsOf accepted⟩

theorem exists_ofLengths_iff : (∃ table, ofLengths entries escape = .ok table) ↔ Acceptable entries escape := by
  rw [acceptable_iff]
  constructor
  · rintro ⟨table, accepted⟩
    obtain ⟨realisable, member, -⟩ := ofLengths_eq_ok_iff.1 accepted
    exact ⟨realisable, member⟩
  · rintro ⟨realisable, member⟩
    exact exists_ofLengths realisable member

end CodeTable

end HuffmanStrings
