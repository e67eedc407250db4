import Mathlib
import HuffmanStrings.Proofs.Symbol.Order

/-!
Which symbol comes first. Counting lists symbols in the order in which they first appear, and sorting by frequency leaves
equally frequent ones in that order. So what is supplied settles the ranking: each symbol has its place in it, and an
escape that was not supplied has the last one. An index of the places finds the same symbols as a search does.
-/

namespace HuffmanStrings

section Sorting

variable {β : Type} {le : β → β → Bool} (transitive : ∀ a b c, le a b = true → le b c = true → le a c = true)
  (total : ∀ a b, (le a b || le b a) = true)

include transitive total

/-- Items of which none has to come before another stay in their order. -/
theorem filter_mergeSort {group : β → Bool} (tied : ∀ a b, group a = true → group b = true → le a b = true)
    (items : List β) : (items.mergeSort le).filter group = items.filter group := by
  have sorted : (items.filter group).Pairwise fun a b => le a b = true := by
    refine List.pairwise_of_forall_mem_list fun a member b other => ?_
    exact tied a b (List.mem_filter.1 member).2 (List.mem_filter.1 other).2
  have kept := (List.sublist_mergeSort transitive total sorted List.filter_sublist).filter group
  simp only [List.filter_filter, Bool.and_self] at kept
  have count := ((List.mergeSort_perm items le).filter group).length_eq
  exact (kept.eq_of_length count.symm).symm

end Sorting

/-- In the list, `a` appears before `b` does for the first time. -/
def Precedes {α : Type} [DecidableEq α] (listed : List α) (a b : α) : Prop :=
  listed.idxOf a < listed.idxOf b

namespace Precedes

variable {α : Type} [DecidableEq α] {listed symbols : List α} {a b symbol : α}

theorem append (before : Precedes listed a b) (member : a ∈ listed) (other : b ∈ listed) (later : List α) :
    Precedes (listed ++ later) a b := by
  rw [Precedes, List.idxOf_append, List.idxOf_append, if_pos member, if_pos other]
  exact before

theorem of_mem_of_notMem (member : a ∈ listed) (fresh : b ∉ listed) (later : List α) :
    Precedes (listed ++ later) a b := by
  have within := List.idxOf_lt_length_of_mem member
  rw [Precedes, List.idxOf_append, List.idxOf_append, if_pos member, if_neg fresh]
  omega

theorem pairwise_append (ordered : symbols.Pairwise (Precedes listed)) (covered : ∀ symbol ∈ symbols, symbol ∈ listed)
    (later : List α) : symbols.Pairwise (Precedes (listed ++ later)) :=
  ordered.imp_of_mem fun member other before => before.append (covered _ member) (covered _ other) later

theorem pairwise_concat (ordered : symbols.Pairwise (Precedes listed)) (covered : ∀ symbol ∈ symbols, symbol ∈ listed)
    (fresh : symbol ∉ listed) : (symbols ++ [symbol]).Pairwise (Precedes (listed ++ [symbol])) := by
  refine List.pairwise_append.2 ⟨pairwise_append ordered covered _, List.pairwise_singleton .., ?_⟩
  intro known member last same
  obtain rfl := List.mem_singleton.1 same
  exact of_mem_of_notMem (covered known member) fresh _

end Precedes

namespace Counter

variable {α : Type} [DecidableEq α]

theorem pairwise_ofCounts (frequencies : List (α × UInt64)) :
    ((ofCounts frequencies).counts.map (·.1)).Pairwise (Precedes (frequencies.map (·.1))) := by
  induction frequencies using List.reverseRecOn with
  | nil => exact .nil
  | append_singleton front entry ih =>
    have covered (symbol : α) (member : symbol ∈ (ofCounts front).counts.map (·.1)) : symbol ∈ front.map (·.1) :=
      (mem_ofCounts front).1 member
    rw [ofCounts_concat, addCount, symbols_raise, List.map_append, List.map_singleton]
    split
    · exact Precedes.pairwise_append ih covered _
    · rename_i fresh
      exact Precedes.pairwise_concat ih covered (mt (mem_ofCounts front).2 fresh)

end Counter

namespace Ranking

variable {α : Type}

section Places

theorem map_rank_rank (frequencies : List (α × UInt64)) :
    (rank frequencies).map (·.rank) = List.range (rank frequencies).length := by
  apply List.ext_getElem
  · simp
  · intro position _ _
    simp [rank]

/-- The more frequent symbol has the place before, and of two that are equally frequent the one that was listed before. -/
theorem pairwise_rank {before : α → α → Prop} {frequencies : List (α × UInt64)}
    (ordered : (frequencies.map (·.1)).Pairwise before) :
    (rank frequencies).Pairwise fun a b =>
      b.frequency < a.frequency ∨ b.frequency = a.frequency ∧ before a.symbol b.symbol := by
  have sorted := List.pairwise_mergeSort descending_trans descending_total frequencies
  have pairs : ((rank frequencies).map fun entry => (entry.symbol, entry.frequency)).Pairwise fun a b =>
      b.2 < a.2 ∨ b.2 = a.2 ∧ before a.1 b.1 := by
    rw [map_rank, List.pairwise_iff_forall_sublist]
    intro a b listed
    have descending : b.2 ≤ a.2 := of_decide_eq_true (List.pairwise_iff_forall_sublist.1 sorted listed)
    rcases UInt64.lt_or_eq_of_le descending with less | same
    · exact .inl less
    · -- Sorting leaves the symbols of one frequency in their order.
      have tied (c d : α × UInt64) (first : decide (c.2 = a.2) = true) (second : decide (d.2 = a.2) = true) :
          decide (d.2 ≤ c.2) = true := by
        rw [decide_eq_true_eq] at *
        exact second.trans first.symm ▸ UInt64.le_refl _
      have among := listed.filter fun entry => entry.2 = a.2
      rw [filter_mergeSort descending_trans descending_total tied, List.filter_eq_self.2 (by simp [same])] at among
      have supplied := among.trans List.filter_sublist
      exact .inr ⟨same, List.pairwise_iff_forall_sublist.1 (List.pairwise_map.1 ordered) supplied⟩
  exact List.pairwise_map.1 pairs

end Places

variable [DecidableEq α] {frequencies : List (α × UInt64)} {escape : Option α} {minimum : Nat} {ranking : Ranking α}

/-- The symbols to rank in the order in which they first appear, the escape after all that are supplied. -/
def appearance (frequencies : List (α × UInt64)) (escape : Option α) : List α :=
  frequencies.map (·.1) ++ escape.toList

theorem pairwise_withEscape (frequencies : List (α × UInt64)) (escape : Option α) :
    ((withEscape (Counter.ofCounts frequencies) escape).map (·.1)).Pairwise
      (Precedes (appearance frequencies escape)) := by
  have ordered := Counter.pairwise_ofCounts frequencies
  have covered (symbol : α) (member : symbol ∈ (Counter.ofCounts frequencies).counts.map (·.1)) :
      symbol ∈ frequencies.map (·.1) := (Counter.mem_ofCounts frequencies).1 member
  cases escape with
  | none => exact Precedes.pairwise_append ordered covered _
  | some symbol =>
    simp only [withEscape]
    split
    · exact Precedes.pairwise_append ordered covered _
    · rename_i absent
      rw [Counter.contains_iff, Counter.mem_ofCounts] at absent
      rw [List.map_append]
      exact Precedes.pairwise_concat ordered covered absent

theorem toNat_of_mem_withEscape {entry : α × UInt64}
    (member : entry ∈ withEscape (Counter.ofCounts frequencies) escape) :
    entry.2.toNat = min (Counter.supplied frequencies entry.1) (2 ^ 64 - 1) := by
  have counted (listed : entry ∈ (Counter.ofCounts frequencies).counts) :
      entry.2.toNat = min (Counter.supplied frequencies entry.1) (2 ^ 64 - 1) := by
    rw [← Counter.toNat_countOf_ofCounts, ((Counter.mem_counts_iff (Counter.nodup_ofCounts frequencies)).1 listed).2]
  cases escape with
  | none => exact counted member
  | some symbol =>
    simp only [withEscape] at member
    split at member
    · exact counted member
    · rename_i absent
      rw [Counter.contains_iff, Counter.mem_ofCounts] at absent
      rcases List.mem_append.1 member with listed | joined
      · exact counted listed
      · obtain rfl := List.mem_singleton.1 joined
        rw [Counter.supplied_eq_zero absent]
        rfl

section Finding

theorem find?_eq_some (distinct : ranking.symbols.Nodup) {entry : RankedSymbol α} (member : entry ∈ ranking.entries) :
    ranking.find? entry.symbol = some entry := by
  cases found : ranking.find? entry.symbol with
  | none => exact absurd rfl (of_decide_eq_false (Bool.eq_false_iff.2 (List.find?_eq_none.1 found entry member)))
  | some other =>
    have same : decide (other.symbol = entry.symbol) = true :=
      List.find?_some (p := fun other : RankedSymbol α => other.symbol = entry.symbol) found
    rw [List.inj_on_of_nodup_map distinct (List.mem_of_find?_eq_some found) member (of_decide_eq_true same)]

theorem find?_eq_none {symbol : α} (absent : symbol ∉ ranking.symbols) : ranking.find? symbol = none := by
  refine List.find?_eq_none.2 fun entry member same => absent ?_
  exact of_decide_eq_true same ▸ List.mem_map_of_mem member

variable [Hashable α]

def index (ranking : Ranking α) : Std.HashMap α Nat :=
  .ofList (ranking.entries.map fun entry => (entry.symbol, entry.rank))

theorem getElem?_index (distinct : ranking.symbols.Nodup) (symbol : α) :
    ranking.index[symbol]? = ranking.rankOf symbol := by
  by_cases listed : symbol ∈ ranking.symbols
  · obtain ⟨entry, member, rfl⟩ := List.mem_map.1 listed
    have apart : (ranking.entries.map fun entry => (entry.symbol, entry.rank)).Pairwise
        fun a b => (a.1 == b.1) = false := by
      refine List.pairwise_map.2 ((List.pairwise_map.1 distinct).imp ?_)
      exact beq_eq_false_iff_ne.2
    rw [rankOf, find?_eq_some distinct member]
    exact Std.HashMap.getElem?_ofList_of_mem (beq_self_eq_true _) apart (List.mem_map_of_mem member)
  · rw [rankOf, find?_eq_none listed]
    refine Std.HashMap.getElem?_ofList_of_contains_eq_false ?_
    rw [List.map_map, List.contains_eq_mem]
    exact decide_eq_false listed

/-- The rank that the index gives is the place of the entry itself. -/
theorem find?_eq_index (distinct : ranking.symbols.Nodup)
    (ranks : ranking.entries.map (·.rank) = List.range ranking.size) (symbol : α) :
    ranking.find? symbol = ranking.index[symbol]?.bind (ranking.entries[·]?) := by
  rw [getElem?_index distinct, rankOf]
  cases found : ranking.find? symbol with
  | none => rfl
  | some entry =>
    obtain ⟨position, inside, rfl⟩ := List.getElem_of_mem (List.mem_of_find?_eq_some found)
    have placed : (ranking.entries.map (·.rank))[position]? = some position := by
      rw [ranks, size, List.getElem?_range inside]
    rw [List.getElem?_map, List.getElem?_eq_getElem inside, Option.map_some, Option.some_inj] at placed
    rw [Option.map_some, Option.bind_some, placed, List.getElem?_eq_getElem inside]

end Finding

def Outranks (frequencies : List (α × UInt64)) (escape : Option α) (a b : RankedSymbol α) : Prop :=
  b.frequency < a.frequency ∨ b.frequency = a.frequency ∧ Precedes (appearance frequencies escape) a.symbol b.symbol

structure Ranks (ranking : Ranking α) (frequencies : List (α × UInt64)) (escape : Option α) : Prop where
  distinct : ranking.symbols.Nodup
  mem_symbols : ∀ symbol, symbol ∈ ranking.symbols ↔ symbol ∈ frequencies.map (·.1) ∨ symbol ∈ escape
  frequency : ∀ entry ∈ ranking.entries,
    entry.frequency.toNat = min (Counter.supplied frequencies entry.symbol) (2 ^ 64 - 1)
  frequency_joined : ∀ entry ∈ ranking.entries, entry.symbol ∉ frequencies.map (·.1) → entry.frequency = 0
  ordered : ranking.entries.Pairwise (Outranks frequencies escape)
  last : ∀ symbol ∈ escape, symbol ∉ frequencies.map (·.1) → ranking.symbols.getLast? = some symbol
  ranks : ranking.entries.map (·.rank) = List.range ranking.size
  found : ∀ entry ∈ ranking.entries, ranking.rankOf entry.symbol = some entry.rank ∧
    ranking.frequencyOf entry.symbol = some entry.frequency ∧ ranking.contains entry.symbol = true
  missing : ∀ symbol, symbol ∉ ranking.symbols →
    ranking.rankOf symbol = none ∧ ranking.frequencyOf symbol = none ∧ ranking.contains symbol = false
  /-- An index of the ranks, with the entry at the rank, answers as a search among the entries does. -/
  indexed : ∀ [Hashable α] (symbol : α), ranking.rankOf symbol = ranking.index[symbol]? ∧
    ranking.frequencyOf symbol = (ranking.index[symbol]?.bind (ranking.entries[·]?)).map (·.frequency) ∧
    ranking.contains symbol = ranking.index.contains symbol

/-- An escape that was not supplied comes last: nothing is less frequent, and nothing appears later. -/
theorem getLast?_symbols {symbol : α} (given : symbol ∈ escape) (absent : symbol ∉ frequencies.map (·.1))
    (members : ∀ symbol, symbol ∈ ranking.symbols ↔ symbol ∈ frequencies.map (·.1) ∨ symbol ∈ escape)
    (joined : ∀ entry ∈ ranking.entries, entry.symbol ∉ frequencies.map (·.1) → entry.frequency = 0)
    (ordered : ranking.entries.Pairwise (Outranks frequencies escape)) : ranking.symbols.getLast? = some symbol := by
  obtain ⟨entry, member, rfl⟩ := List.mem_map.1 ((members symbol).2 (.inr given))
  obtain ⟨front, last, split⟩ : ∃ front last, ranking.entries = front ++ [last] :=
    ⟨_, _, (List.dropLast_concat_getLast (List.ne_nil_of_mem member)).symm⟩
  have end_eq : ranking.symbols.getLast? = some last.symbol := by
    rw [symbols, split, List.map_append, List.map_singleton, List.getLast?_concat]
  rw [end_eq, Option.some_inj]
  by_contra different
  have supplied : last.symbol ∈ frequencies.map (·.1) := by
    have listed : last.symbol ∈ ranking.symbols := List.mem_of_getLast? end_eq
    refine ((members _).1 listed).resolve_right fun again => different ?_
    exact Option.some_inj.1 (again.symm.trans given)
  have earlier : entry ∈ front := by
    rw [split, List.mem_append, List.mem_singleton] at member
    exact member.resolve_right fun same => different (same ▸ rfl)
  rw [split, List.pairwise_append] at ordered
  rcases ordered.2.2 entry earlier last (List.mem_singleton_self _) with less | ⟨-, before⟩
  · rw [joined entry member absent] at less
    exact UInt64.not_lt_zero less
  · have after : Precedes (appearance frequencies escape) last.symbol entry.symbol :=
      .of_mem_of_notMem supplied absent _
    exact lt_asymm before after

theorem ranks_of_build (built : build frequencies escape minimum = .ok ranking) : Ranks ranking frequencies escape := by
  have sound := sound_of_build built
  have members (symbol : α) : symbol ∈ ranking.symbols ↔ symbol ∈ frequencies.map (·.1) ∨ symbol ∈ escape :=
    mem_symbols_of_build built
  obtain ⟨-, -, same⟩ := build_eq_ok built
  have entries : ranking.entries = rank (withEscape (Counter.ofCounts frequencies) escape) :=
    congrArg Ranking.entries same
  have frequency (entry : RankedSymbol α) (member : entry ∈ ranking.entries) :
      entry.frequency.toNat = min (Counter.supplied frequencies entry.symbol) (2 ^ 64 - 1) := by
    rw [entries] at member
    have pair := List.mem_map_of_mem (f := fun entry : RankedSymbol α => (entry.symbol, entry.frequency)) member
    exact toNat_of_mem_withEscape ((perm_rank _).mem_iff.1 pair)
  have joined (entry : RankedSymbol α) (member : entry ∈ ranking.entries)
      (absent : entry.symbol ∉ frequencies.map (·.1)) : entry.frequency = 0 := by
    apply UInt64.toNat_inj.1
    rw [frequency entry member, Counter.supplied_eq_zero absent]
    rfl
  have ordered : ranking.entries.Pairwise (Outranks frequencies escape) :=
    entries ▸ pairwise_rank (pairwise_withEscape frequencies escape)
  have ranks : ranking.entries.map (·.rank) = List.range ranking.size := by rw [size, entries, map_rank_rank]
  refine ⟨sound.distinct, members, frequency, joined, ordered, fun symbol given absent => ?_, ranks,
    fun entry member => ?_, fun symbol absent => ?_, fun symbol => ⟨?_, ?_, ?_⟩⟩
  · exact getLast?_symbols given absent members joined ordered
  · rw [rankOf, frequencyOf, contains, find?_eq_some sound.distinct member]
    exact ⟨rfl, rfl, rfl⟩
  · rw [rankOf, frequencyOf, contains, find?_eq_none absent]
    exact ⟨rfl, rfl, rfl⟩
  · exact (getElem?_index sound.distinct symbol).symm
  · rw [frequencyOf, find?_eq_index sound.distinct ranks]
  · rw [Std.HashMap.contains_eq_isSome_getElem?, getElem?_index sound.distinct, rankOf, contains, Option.isSome_map]

theorem build_of_nonempty (nonempty : frequencies ≠ []) (positive : 1 ≤ minimum) (escape : Option α) :
    build frequencies escape minimum =
      .ok ⟨rank (withEscape (Counter.ofCounts frequencies) escape), escape, minimum⟩ := by
  obtain ⟨entry, member⟩ := List.exists_mem_of_ne_nil _ nonempty
  have counted : (Counter.ofCounts frequencies).counts ≠ [] := by
    intro none
    have listed := (Counter.mem_ofCounts frequencies).2 (List.mem_map_of_mem (f := (·.1)) member)
    rw [none] at listed
    cases listed
  exact build_of_valid (Nat.one_le_iff_ne_zero.1 positive) (List.isEmpty_eq_false_iff.2 counted) escape

/-- A supply is ranked with each symbol in it once, by descending frequency, and equally frequent ones in the order in
which they first appear. -/
theorem ranking_of_supply (nonempty : frequencies ≠ []) (positive : 1 ≤ minimum) (escape : Option α) :
    ∃ ranking, build frequencies escape minimum = .ok ranking ∧ ranking.escape = escape ∧
      ranking.minimum = minimum ∧ Ranks ranking frequencies escape :=
  have built := build_of_nonempty nonempty positive escape
  ⟨_, built, rfl, rfl, ranks_of_build built⟩

/-- What is supplied for `c` is cut off, `b` appears before `a`, and the escape joins them. -/
theorem ranking_of_supply_letters :
    ∃ ranking, build [('b', 1), ('a', 2), ('c', 0xFFFFFFFFFFFFFFFF), ('b', 1), ('c', 5)] (some 'z') 1 = .ok ranking ∧
      ranking.entries = [⟨'c', 0xFFFFFFFFFFFFFFFF, 0⟩, ⟨'b', 2, 1⟩, ⟨'a', 2, 2⟩, ⟨'z', 0, 3⟩] ∧
      Ranks ranking [('b', 1), ('a', 2), ('c', 0xFFFFFFFFFFFFFFFF), ('b', 1), ('c', 5)] (some 'z') := by
  obtain ⟨ranking, built, -, -, ranks⟩ := ranking_of_supply
    (List.cons_ne_nil ('b', 1) [('a', 2), ('c', 0xFFFFFFFFFFFFFFFF), ('b', 1), ('c', 5)]) (le_refl 1) (some 'z')
  have evaluated : build [('b', 1), ('a', 2), ('c', 0xFFFFFFFFFFFFFFFF), ('b', 1), ('c', 5)] (some 'z') 1 =
      .ok ⟨[⟨'c', 0xFFFFFFFFFFFFFFFF, 0⟩, ⟨'b', 2, 1⟩, ⟨'a', 2, 2⟩, ⟨'z', 0, 3⟩], some 'z', 1⟩ := by cbv
  rw [evaluated] at built
  cases built
  exact ⟨_, evaluated, rfl, ranks⟩

end Ranking

end HuffmanStrings
