import Mathlib
import HuffmanStrings.Proofs.Symbol.Precedence

/-!
Adding to a counter. Symbols may be added one by one, with a count, or many at a time: what a counter holds depends only
on the plain list of all that was added. It lists each symbol where that list has it first, and so lists none twice.
Counting what it lists therefore gives the same counter again, and ranking it is ranking what was added.
-/

namespace HuffmanStrings

namespace Counter

inductive Addition (α : Type)
  | one (symbol : α)
  | times (symbol : α) (count : UInt64)
  | each (symbols : List α)
  deriving DecidableEq, Repr

variable {α : Type}

def Addition.supply : Addition α → List (α × UInt64)
  | one symbol => [(symbol, 1)]
  | times symbol count => [(symbol, count)]
  | each symbols => symbols.map (·, 1)

variable [DecidableEq α]

def Addition.apply (c : Counter α) : Addition α → Counter α
  | one symbol => c.add symbol
  | times symbol count => c.addCount symbol count
  | each symbols => c.addAll symbols

def perform (c : Counter α) (additions : List (Addition α)) : Counter α :=
  additions.foldl Addition.apply c

section Calls

theorem apply_ofCounts (frequencies : List (α × UInt64)) (addition : Addition α) :
    addition.apply (ofCounts frequencies) = ofCounts (frequencies ++ addition.supply) := by
  rw [ofCounts_append]
  cases addition with
  | one symbol => rfl
  | times symbol count => rfl
  | each symbols =>
    rw [Addition.supply, List.foldl_map]
    rfl

/-- Calls add no more and no less than they supply. -/
theorem perform_eq_ofCounts (additions : List (Addition α)) :
    perform {} additions = ofCounts (additions.flatMap Addition.supply) := by
  induction additions using List.reverseRecOn with
  | nil => rfl
  | append_singleton earlier addition ih =>
    rw [perform] at ih
    rw [perform, List.foldl_append, ih, List.foldl_cons, List.foldl_nil, apply_ofCounts, List.flatMap_append,
      List.flatMap_singleton]

end Calls

section Again

/-- The count of a known symbol is raised at the symbol's position, and a new symbol joins the end with the count that it
comes with. -/
theorem raise_eq (symbol : α) (count : UInt64) (counts : List (α × UInt64)) : raise symbol count counts =
    if symbol ∈ counts.map (·.1) then
      counts.modify ((counts.map (·.1)).idxOf symbol) fun entry => (entry.1, addSaturating entry.2 count)
    else
      counts ++ [(symbol, count)] := by
  induction counts with
  | nil => rfl
  | cons entry rest ih =>
    obtain ⟨other, known⟩ := entry
    rw [raise, List.map_cons]
    by_cases same : other = symbol
    · rw [if_pos same, if_pos (same ▸ List.mem_cons_self), same, List.idxOf_cons_self, List.modify_zero_cons]
    · rw [if_neg same, ih, List.idxOf_cons_ne _ same, List.modify_succ_cons]
      by_cases listed : symbol ∈ rest.map (·.1)
      · rw [if_pos listed, if_pos (List.mem_cons_of_mem _ listed)]
      · have fresh : symbol ∉ other :: rest.map (·.1) := List.not_mem_cons_of_ne_of_not_mem (Ne.symm same) listed
        rw [if_neg listed, if_neg fresh, List.cons_append]

theorem ofCounts_eq_self {frequencies : List (α × UInt64)} (distinct : (frequencies.map (·.1)).Nodup) :
    ofCounts frequencies = ⟨frequencies⟩ := by
  induction frequencies using List.reverseRecOn with
  | nil => rfl
  | append_singleton front entry ih =>
    rw [List.map_append, List.nodup_append_comm, List.map_singleton, List.singleton_append, List.nodup_cons] at distinct
    rw [ofCounts_concat, ih distinct.2, addCount, raise_eq, if_neg distinct.1]

theorem ofCounts_counts (frequencies : List (α × UInt64)) :
    ofCounts (ofCounts frequencies).counts = ofCounts frequencies :=
  ofCounts_eq_self (nodup_ofCounts frequencies)

end Again

/-- A counter of what was supplied: each symbol once, in the order in which they first appear, with the sum of its counts
as far as that is a number of 64 bits. -/
structure Records (c : Counter α) (supply : List (α × UInt64)) : Prop where
  distinct : (c.counts.map (·.1)).Nodup
  mem_symbols : ∀ symbol, symbol ∈ c.counts.map (·.1) ↔ symbol ∈ supply.map (·.1)
  ordered : (c.counts.map (·.1)).Pairwise (Precedes (supply.map (·.1)))
  listed : ∀ entry ∈ c.counts, c.countOf entry.1 = entry.2
  count : ∀ symbol, (c.countOf symbol).toNat = min (supplied supply symbol) (2 ^ 64 - 1)
  missing : ∀ symbol, symbol ∉ supply.map (·.1) → c.countOf symbol = 0

theorem records_ofCounts (frequencies : List (α × UInt64)) : Records (ofCounts frequencies) frequencies where
  distinct := nodup_ofCounts frequencies
  mem_symbols _ := mem_ofCounts frequencies
  ordered := pairwise_ofCounts frequencies
  listed _ member := ((mem_counts_iff (nodup_ofCounts frequencies)).1 member).2
  count := toNat_countOf_ofCounts frequencies
  missing symbol absent := by
    apply UInt64.toNat_inj.1
    rw [toNat_countOf_ofCounts, supplied_eq_zero absent]
    rfl

/-- Whatever calls are made, the counter holds what they supply, and it does not matter to a ranking whether it is given
the counter's list or the calls' own. -/
theorem ranked_as_supplied (additions : List (Addition α)) :
    Records (perform {} additions) (additions.flatMap Addition.supply) ∧
      ∀ escape minimum, Ranking.build (perform {} additions).counts escape minimum =
        Ranking.build (additions.flatMap Addition.supply) escape minimum := by
  rw [perform_eq_ofCounts]
  refine ⟨records_ofCounts _, fun escape minimum => ?_⟩
  simp only [Ranking.build, ofCounts_counts]

/-- The count of `b` is cut off in the middle, and `c` is listed though nothing is added to it. -/
example : (perform {} [.times 'b' 0xFFFFFFFFFFFFFFFE, .each ['a', 'b', 'b', 'a'], .times 'c' 0, .one 'b']).counts =
    [('b', 0xFFFFFFFFFFFFFFFF), ('a', 2), ('c', 0)] := by decide

end Counter

end HuffmanStrings
