import Mathlib
import HuffmanStrings.Symbol.Ranking

/-!
What a ranking holds. It lists each symbol once, the escape among them, however often symbols were supplied.
-/

namespace HuffmanStrings

theorem lookup_eq_some_iff {α β : Type} [DecidableEq α] {entries : List (α × β)} (distinct : (entries.map (·.1)).Nodup)
    {key : α} {value : β} : entries.lookup key = some value ↔ (key, value) ∈ entries := by
  induction entries with
  | nil => simp
  | cons entry rest ih =>
    obtain ⟨first, known⟩ := entry
    rw [List.map_cons, List.nodup_cons] at distinct
    by_cases same : key = first
    · subst same
      have absent : (key, value) ∉ rest := fun member => distinct.1 (List.mem_map.2 ⟨_, member, rfl⟩)
      simp [absent, eq_comm]
    · simp only [List.lookup_cons, beq_eq_false_iff_ne.2 same, ih distinct.2, List.mem_cons, Prod.mk.injEq, same,
        false_and, false_or]

namespace Counter

variable {α : Type} [DecidableEq α] {symbol : α} {count : UInt64} {counts : List (α × UInt64)}

theorem symbols_raise : (raise symbol count counts).map (·.1) =
    if symbol ∈ counts.map (·.1) then counts.map (·.1) else counts.map (·.1) ++ [symbol] := by
  induction counts with
  | nil => simp [raise]
  | cons entry rest ih =>
    obtain ⟨other, known⟩ := entry
    unfold raise
    by_cases same : other = symbol
    · simp [same]
    · have different : symbol ≠ other := Ne.symm same
      simp only [same, different, ↓reduceIte, List.map_cons, List.mem_cons, false_or, ih]
      split
      · rfl
      · rfl

theorem nodup_raise (distinct : (counts.map (·.1)).Nodup) : ((raise symbol count counts).map (·.1)).Nodup := by
  rw [symbols_raise]
  split
  · exact distinct
  · rename_i fresh
    rw [← List.concat_eq_append]
    exact distinct.concat fresh

theorem mem_raise {other : α} :
    other ∈ (raise symbol count counts).map (·.1) ↔ other ∈ counts.map (·.1) ∨ other = symbol := by
  rw [symbols_raise]
  split
  · rename_i member
    constructor
    · exact Or.inl
    · rintro (known | rfl)
      · exact known
      · exact member
  · simp

theorem contains_iff {c : Counter α} : c.contains symbol = true ↔ symbol ∈ c.counts.map (·.1) := by
  simp [contains]

theorem foldl_addCount (frequencies : List (α × UInt64)) (c : Counter α) (distinct : (c.counts.map (·.1)).Nodup) :
    ((frequencies.foldl (fun c entry => c.addCount entry.1 entry.2) c).counts.map (·.1)).Nodup ∧
      ∀ symbol, symbol ∈ (frequencies.foldl (fun c entry => c.addCount entry.1 entry.2) c).counts.map (·.1) ↔
        symbol ∈ c.counts.map (·.1) ∨ symbol ∈ frequencies.map (·.1) := by
  induction frequencies generalizing c with
  | nil => exact ⟨distinct, by simp⟩
  | cons entry rest ih =>
    have ⟨after, members⟩ := ih (c.addCount entry.1 entry.2) (nodup_raise distinct)
    refine ⟨after, fun symbol => ?_⟩
    rw [List.foldl_cons, members, addCount, mem_raise, List.map_cons, List.mem_cons, or_assoc]

theorem nodup_ofCounts (frequencies : List (α × UInt64)) : ((ofCounts frequencies).counts.map (·.1)).Nodup :=
  (foldl_addCount frequencies {} List.nodup_nil).1

theorem mem_ofCounts (frequencies : List (α × UInt64)) :
    symbol ∈ (ofCounts frequencies).counts.map (·.1) ↔ symbol ∈ frequencies.map (·.1) := by
  rw [ofCounts, (foldl_addCount frequencies {} List.nodup_nil).2]
  simp

end Counter

namespace Ranking

variable {α : Type}

theorem map_rank (frequencies : List (α × UInt64)) :
    (rank frequencies).map (fun entry => (entry.symbol, entry.frequency)) =
      frequencies.mergeSort fun a b => b.2 ≤ a.2 := by
  apply List.ext_getElem?
  intro position
  rw [rank, List.getElem?_map, List.getElem?_mapIdx, Option.map_map]
  exact congrFun Option.map_id _

theorem perm_rank (frequencies : List (α × UInt64)) :
    ((rank frequencies).map fun entry => (entry.symbol, entry.frequency)).Perm frequencies :=
  map_rank frequencies ▸ List.mergeSort_perm ..

theorem perm_symbols_rank (frequencies : List (α × UInt64)) :
    ((rank frequencies).map (·.symbol)).Perm (frequencies.map (·.1)) := by
  have perm := (perm_rank frequencies).map (·.1)
  rwa [List.map_map] at perm

@[simp] theorem length_symbols (ranking : Ranking α) : ranking.symbols.length = ranking.size :=
  List.length_map _

@[simp] theorem length_frequencies (ranking : Ranking α) : ranking.frequencies.length = ranking.size :=
  List.length_map _

structure Sound (ranking : Ranking α) : Prop where
  nonempty : ranking.entries ≠ []
  distinct : ranking.symbols.Nodup
  escape_mem : ∀ symbol ∈ ranking.escape, symbol ∈ ranking.symbols
  minimum_pos : 1 ≤ ranking.minimum

variable [DecidableEq α]

theorem nodup_withEscape {counts : Counter α} (distinct : (counts.counts.map (·.1)).Nodup) (escape : Option α) :
    ((withEscape counts escape).map (·.1)).Nodup := by
  cases escape with
  | none => exact distinct
  | some symbol =>
    simp only [withEscape]
    split
    · exact distinct
    · rename_i absent
      rw [List.map_append, List.map_singleton, ← List.concat_eq_append]
      exact distinct.concat (mt Counter.contains_iff.2 absent)

theorem mem_withEscape {counts : Counter α} {escape : Option α} {symbol : α} :
    symbol ∈ (withEscape counts escape).map (·.1) ↔ symbol ∈ counts.counts.map (·.1) ∨ symbol ∈ escape := by
  cases escape with
  | none => simp [withEscape]
  | some escape =>
    simp only [withEscape]
    split
    · rename_i present
      rw [Counter.contains_iff] at present
      rw [Option.mem_some_iff]
      constructor
      · exact Or.inl
      · rintro (known | rfl)
        · exact known
        · exact present
    · simp [eq_comm]

theorem build_eq_ok {frequencies : List (α × UInt64)} {escape : Option α} {minimum : Nat} {ranking : Ranking α}
    (built : build frequencies escape minimum = .ok ranking) :
    minimum ≠ 0 ∧ (Counter.ofCounts frequencies).counts ≠ [] ∧
      ranking = ⟨rank (withEscape (Counter.ofCounts frequencies) escape), escape, minimum⟩ := by
  unfold build at built
  split at built
  · cases built
  · rename_i positive
    dsimp only at built
    split at built
    · cases built
    · rename_i nonempty
      cases built
      exact ⟨positive, mt List.isEmpty_iff.2 nonempty, rfl⟩

theorem sound_of_build {frequencies : List (α × UInt64)} {escape : Option α} {minimum : Nat} {ranking : Ranking α}
    (built : build frequencies escape minimum = .ok ranking) : Sound ranking := by
  obtain ⟨positive, nonempty, rfl⟩ := build_eq_ok built
  have perm := perm_symbols_rank (withEscape (Counter.ofCounts frequencies) escape)
  refine ⟨fun none => ?_, ?_, ?_, Nat.one_le_iff_ne_zero.2 positive⟩
  · have empty : rank (withEscape (Counter.ofCounts frequencies) escape) = [] := none
    rw [empty, List.map_nil, List.nil_perm] at perm
    obtain ⟨entry, member⟩ := List.exists_mem_of_ne_nil _ nonempty
    have ranked : entry.1 ∈ (withEscape (Counter.ofCounts frequencies) escape).map (·.1) :=
      mem_withEscape.2 (.inl (List.mem_map_of_mem member))
    rw [perm] at ranked
    cases ranked
  · exact perm.nodup_iff.2 (nodup_withEscape (Counter.nodup_ofCounts frequencies) escape)
  · intro symbol given
    exact perm.mem_iff.2 (mem_withEscape.2 (.inr given))

theorem mem_symbols_of_build {frequencies : List (α × UInt64)} {escape : Option α} {minimum : Nat}
    {ranking : Ranking α} (built : build frequencies escape minimum = .ok ranking) {symbol : α} :
    symbol ∈ ranking.symbols ↔ symbol ∈ frequencies.map (·.1) ∨ symbol ∈ escape := by
  obtain ⟨-, -, rfl⟩ := build_eq_ok built
  rw [symbols, (perm_symbols_rank _).mem_iff, mem_withEscape, Counter.mem_ofCounts]

end Ranking

end HuffmanStrings
