import Mathlib
import HuffmanStrings.Proofs.Symbol.Counter

/-!
The order in which symbols are supplied. It decides which of equally frequent symbols is ranked first, and nothing
else: at each position of the ranking the frequency is the same, and each symbol keeps its own.
-/

namespace HuffmanStrings

/-- Both have failed in the same way, or both have succeeded with values that are so related. -/
inductive SameOutcome {β γ : Type} (related : β → γ → Prop) : Except Failure β → Except Failure γ → Prop
  | failed (failure : Failure) : SameOutcome related (.error failure) (.error failure)
  | done {value : β} {other : γ} (holds : related value other) : SameOutcome related (.ok value) (.ok other)

namespace SameOutcome

variable {β γ δ ε : Type} {related : β → γ → Prop} {later : δ → ε → Prop}

theorem refl (result : Except Failure β) : SameOutcome (fun value other => value = other) result result := by
  cases result with
  | error failure => exact .failed failure
  | ok value => exact .done rfl

theorem bind {first : Except Failure β} {other : Except Failure γ} {next : β → Except Failure δ}
    {otherNext : γ → Except Failure ε} (begun : SameOutcome related first other)
    (follows : ∀ value otherValue, first = .ok value → other = .ok otherValue → related value otherValue →
      SameOutcome later (next value) (otherNext otherValue)) :
    SameOutcome later (first >>= next) (other >>= otherNext) := by
  cases begun with
  | failed failure => exact .failed failure
  | done holds => exact follows _ _ rfl rfl holds

theorem imp {first : Except Failure β} {other : Except Failure γ} {weaker : β → γ → Prop}
    (outcome : SameOutcome related first other)
    (weaken : ∀ value otherValue, first = .ok value → other = .ok otherValue → related value otherValue →
      weaker value otherValue) : SameOutcome weaker first other := by
  cases outcome with
  | failed failure => exact .failed failure
  | done holds => exact .done (weaken _ _ rfl rfl holds)

end SameOutcome

namespace Ranking

variable {α : Type}

def pairs (ranking : Ranking α) : List (α × UInt64) :=
  ranking.entries.map fun entry => (entry.symbol, entry.frequency)

theorem map_fst_pairs (ranking : Ranking α) : ranking.pairs.map (·.1) = ranking.symbols := by
  rw [pairs, List.map_map]
  rfl

theorem map_snd_pairs (ranking : Ranking α) : ranking.pairs.map (·.2) = ranking.frequencies := by
  rw [pairs, List.map_map]
  rfl

section Sorting

theorem descending_trans (a b c : α × UInt64) :
    decide (b.2 ≤ a.2) = true → decide (c.2 ≤ b.2) = true → decide (c.2 ≤ a.2) = true := by
  simp only [decide_eq_true_eq]
  exact fun first second => UInt64.le_trans second first

theorem descending_total (a b : α × UInt64) : (decide (b.2 ≤ a.2) || decide (a.2 ≤ b.2)) = true := by
  simp only [Bool.or_eq_true, decide_eq_true_eq]
  exact UInt64.le_total ..

theorem map_snd_mergeSort {frequencies others : List (α × UInt64)} (perm : frequencies.Perm others) :
    (frequencies.mergeSort fun a b => b.2 ≤ a.2).map (·.2) = (others.mergeSort fun a b => b.2 ≤ a.2).map (·.2) := by
  have sorted (list : List (α × UInt64)) :
      ((list.mergeSort fun a b => b.2 ≤ a.2).map (·.2)).Pairwise fun a b => b ≤ a := by
    rw [List.pairwise_map]
    simpa only [decide_eq_true_eq] using List.pairwise_mergeSort descending_trans descending_total list
  refine List.Perm.eq_of_pairwise (fun a b _ _ lower upper => UInt64.le_antisymm upper lower) (sorted _) (sorted _) ?_
  exact (((List.mergeSort_perm ..).trans perm).trans (List.mergeSort_perm ..).symm).map _

end Sorting

/-- Two rankings of the same symbols that differ at most in the order of equally frequent ones. -/
structure Reordered (ranking other : Ranking α) : Prop where
  sound : ranking.Sound
  otherSound : other.Sound
  frequencies_eq : ranking.frequencies = other.frequencies
  perm : ranking.pairs.Perm other.pairs
  minimum_eq : ranking.minimum = other.minimum

namespace Reordered

variable {ranking other : Ranking α} (reordered : Reordered ranking other)

include reordered

theorem size_eq : ranking.size = other.size := by
  rw [← ranking.length_frequencies, reordered.frequencies_eq, other.length_frequencies]

theorem mem_symbols_iff {symbol : α} : symbol ∈ ranking.symbols ↔ symbol ∈ other.symbols := by
  rw [← map_fst_pairs, ← map_fst_pairs, (reordered.perm.map _).mem_iff]

end Reordered

variable [DecidableEq α]

theorem perm_withEscape {counts others : Counter α} (perm : counts.counts.Perm others.counts) (escape : Option α) :
    (withEscape counts escape).Perm (withEscape others escape) := by
  cases escape with
  | none => exact perm
  | some symbol =>
    have known : counts.contains symbol = others.contains symbol := perm.any_eq
    simp only [withEscape, known]
    split
    · exact perm
    · exact perm.append_right _

theorem frequencyOf_eq_lookup (ranking : Ranking α) (symbol : α) :
    ranking.frequencyOf symbol = ranking.pairs.lookup symbol := by
  obtain ⟨entries, escape, minimum⟩ := ranking
  simp only [frequencyOf, find?, pairs]
  induction entries with
  | nil => rfl
  | cons entry rest ih =>
    by_cases same : entry.symbol = symbol
    · simp [same]
    · rw [List.find?_cons_of_neg (by simpa using same), ih, List.map_cons, List.lookup_cons,
        beq_eq_false_iff_ne.2 (Ne.symm same)]

theorem frequencyOf_eq_some_iff {ranking : Ranking α} (distinct : ranking.symbols.Nodup) {symbol : α}
    {frequency : UInt64} : ranking.frequencyOf symbol = some frequency ↔ (symbol, frequency) ∈ ranking.pairs := by
  rw [frequencyOf_eq_lookup, lookup_eq_some_iff]
  rwa [map_fst_pairs]

theorem Reordered.frequencyOf_eq {ranking other : Ranking α} (reordered : Reordered ranking other) (symbol : α) :
    ranking.frequencyOf symbol = other.frequencyOf symbol := by
  refine Option.ext fun frequency => ?_
  rw [frequencyOf_eq_some_iff reordered.sound.distinct, frequencyOf_eq_some_iff reordered.otherSound.distinct,
    reordered.perm.mem_iff]

theorem build_of_valid {frequencies : List (α × UInt64)} {minimum : Nat} (positive : minimum ≠ 0)
    (supplied : (Counter.ofCounts frequencies).counts.isEmpty = false) (escape : Option α) :
    build frequencies escape minimum =
      .ok ⟨rank (withEscape (Counter.ofCounts frequencies) escape), escape, minimum⟩ := by
  simp only [build, if_neg positive, supplied, Bool.false_eq_true, if_false]

/-- Whatever the order of the supply, symbols are ranked alike or not at all. -/
theorem sameOutcome_build {frequencies others : List (α × UInt64)} (perm : frequencies.Perm others) (escape : Option α)
    (minimum : Nat) :
    SameOutcome Reordered (build frequencies escape minimum) (build others escape minimum) := by
  have counts := Counter.perm_ofCounts perm
  have empty := counts.isEmpty_eq
  by_cases zero : minimum = 0
  · simp only [build, if_pos zero]
    exact .failed _
  cases supplied : (Counter.ofCounts frequencies).counts.isEmpty with
  | true =>
    simp only [build, if_neg zero, ← empty, supplied, if_true]
    exact .failed _
  | false =>
    have built := build_of_valid zero supplied escape
    have otherBuilt := build_of_valid zero (empty ▸ supplied) escape
    have listed := perm_withEscape counts escape
    rw [built, otherBuilt]
    refine .done ⟨sound_of_build built, sound_of_build otherBuilt, ?_, ?_, rfl⟩
    · rw [← map_snd_pairs, ← map_snd_pairs, pairs, pairs, map_rank, map_rank]
      exact map_snd_mergeSort listed
    · exact ((perm_rank _).trans listed).trans (perm_rank _).symm

end Ranking

end HuffmanStrings
