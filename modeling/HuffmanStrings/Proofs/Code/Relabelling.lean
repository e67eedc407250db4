import Mathlib
import HuffmanStrings.Proofs.Code.Building
import HuffmanStrings.Proofs.Symbol.Order

/-!
Codes of rankings that have the same frequencies at the same positions. A canonical code does not look at the symbols:
under new names they keep their words. So the word at a position depends on the frequencies alone, and a symbol that is
supplied in another order can only change places with one that is as frequent.
-/

namespace HuffmanStrings

namespace Canonical

variable {α β : Type} (name : α → β)

theorem order_map (entries : List (α × Nat)) :
    order (entries.map (Prod.map name id)) = (order entries).map (Prod.map name id) := by
  unfold order
  rw [List.map_flatMap]
  refine List.flatMap_congr fun length _ => ?_
  rw [List.filter_map]
  rfl

theorem assignFrom_map (previous : Option CodeWord) (entries : List (α × Nat)) :
    assignFrom previous (entries.map (Prod.map name id)) = (assignFrom previous entries).map (Prod.map name id) := by
  induction entries generalizing previous with
  | nil => cases previous <;> rfl
  | cons entry rest ih => cases previous <;> simp [assignFrom, ih]

theorem assign_map (entries : List (α × Nat)) :
    assign (entries.map (Prod.map name id)) = (assign entries).map (Prod.map name id) :=
  assignFrom_map name none entries

theorem exists_assign {entries : List (α × Nat)} (range : ∀ entry ∈ entries, 1 ≤ entry.2 ∧ entry.2 ≤ maximumCodeLength)
    {entry : α × Nat} (member : entry ∈ entries) : ∃ word, (entry.1, word) ∈ assign (order entries) := by
  have listed := (perm_order range).mem_iff.2 member
  rw [← map_assignFrom none (order entries)] at listed
  obtain ⟨⟨symbol, word⟩, assigned, rfl⟩ := List.mem_map.1 listed
  exact ⟨word, assigned⟩

end Canonical

namespace CodeTable

variable {α : Type} [DecidableEq α]

def ranked (frequencies : List (α × UInt64)) (escape : Option α) (minimum maximum : Nat) :
    Except Failure (Ranking α × CodeTable α) := do
  let ranking ← Ranking.build frequencies escape minimum
  return (ranking, ← build ranking maximum)

/-- Two codes of the same symbols that differ at most in which of equally frequent symbols has which word. -/
structure Interchanged (first second : Ranking α × CodeTable α) : Prop where
  size_eq : first.1.size = second.1.size
  position : ∀ (position : Nat) (entry other : RankedSymbol α), first.1.entries[position]? = some entry →
    second.1.entries[position]? = some other → entry.frequency = other.frequency ∧
      ∃ word, first.2.codeOf entry.symbol = some word ∧ second.2.codeOf other.symbol = some word
  frequencyOf_eq : ∀ symbol, first.1.frequencyOf symbol = second.1.frequencyOf symbol
  traded : ∀ symbol other word, first.2.codeOf symbol = some word → second.2.codeOf other = some word →
    first.1.frequencyOf symbol = first.1.frequencyOf other
  kept : ∀ symbol ∈ first.1.symbols,
    (∀ other ∈ first.1.symbols, first.1.frequencyOf other = first.1.frequencyOf symbol → other = symbol) →
    first.2.codeOf symbol = second.2.codeOf symbol
  totalLength_eq : first.1.totalLength first.2.lengthOf = second.1.totalLength second.2.lengthOf

theorem symbol_eq_of_codeOf {table : CodeTable α} {symbol other : α} {word : CodeWord}
    (coded : table.codeOf symbol = some word) (otherCoded : table.codeOf other = some word) : symbol = other :=
  congrArg Prod.fst (eq_of_begins (codeOf_eq_some_iff.1 coded) (codeOf_eq_some_iff.1 otherCoded) (List.prefix_refl _))

section Reordering

variable {ranking other : Ranking α} {table otherTable : CodeTable α} {maximum : Nat}

theorem codes_of_build (built : build ranking maximum = .ok table) :
    table.codes = Canonical.assign (Canonical.order (rankedLengths ranking maximum)) := by
  obtain ⟨-, -, -, accepted⟩ := build_eq_ok_iff.1 built
  rw [table.codes_eq, (ofLengths_eq_ok_iff.1 accepted).2.2.1]

theorem map_lengthOf_symbols (built : build ranking maximum = .ok table) : ranking.symbols.map table.lengthOf =
    (optimalLengths (ranking.frequencies.map (·.toNat)) maximum).map (max ranking.minimum) := by
  obtain ⟨⟨positive, -⟩, -, room, accepted⟩ := build_eq_ok_iff.1 built
  rw [← map_snd_rankedLengths positive room, ← map_fst_rankedLengths positive room, List.map_map]
  exact List.map_congr_left fun entry member => lengthOf_eq accepted member

variable (reordered : Ranking.Reordered ranking other) (built : build ranking maximum = .ok table)
  (otherBuilt : build other maximum = .ok otherTable)

include reordered built otherBuilt

theorem exists_word {pair : α × α} (member : pair ∈ ranking.symbols.zip other.symbols) :
    ∃ word, table.codeOf pair.1 = some word ∧ otherTable.codeOf pair.2 = some word := by
  obtain ⟨⟨positive, maximal⟩, order, room, -⟩ := build_eq_ok_iff.1 built
  let lengths := (optimalLengths (ranking.frequencies.map (·.toNat)) maximum).map (max ranking.minimum)
  -- Both codes are renamings of one code, that of the pairs of symbols at each position.
  let shared := (ranking.symbols.zip other.symbols).zip lengths
  have count : ranking.symbols.length = other.symbols.length := by
    rw [Ranking.length_symbols, Ranking.length_symbols, reordered.size_eq]
  have first : rankedLengths ranking maximum = shared.map (Prod.map Prod.fst id) := by
    rw [← List.zip_map_left, List.map_fst_zip count.le]
    rfl
  have second : rankedLengths other maximum = shared.map (Prod.map Prod.snd id) := by
    rw [← List.zip_map_left, List.map_snd_zip count.ge, rankedLengths, ← reordered.frequencies_eq,
      ← reordered.minimum_eq]
  have range : ∀ entry ∈ shared, 1 ≤ entry.2 ∧ entry.2 ≤ maximumCodeLength := by
    intro entry listed
    have ranked : Prod.map Prod.fst id entry ∈ rankedLengths ranking maximum := first ▸ List.mem_map_of_mem listed
    obtain ⟨-, lower, upper⟩ := range_rankedLengths positive room order ranked
    exact ⟨lower, upper.trans maximal⟩
  have sizes : (ranking.symbols.zip other.symbols).length ≤ lengths.length := by
    rw [List.length_zip, ← count, min_self, List.length_map, length_ranked positive room, Ranking.length_symbols]
  obtain ⟨entry, listed, rfl⟩ : ∃ entry ∈ shared, entry.1 = pair := by
    rw [← List.map_fst_zip sizes] at member
    exact List.mem_map.1 member
  obtain ⟨word, assigned⟩ := Canonical.exists_assign range listed
  refine ⟨word, codeOf_eq_some_iff.2 ?_, codeOf_eq_some_iff.2 ?_⟩
  · rw [codes_of_build built, first, Canonical.order_map, Canonical.assign_map]
    exact List.mem_map.2 ⟨_, assigned, rfl⟩
  · rw [codes_of_build otherBuilt, second, Canonical.order_map, Canonical.assign_map]
    exact List.mem_map.2 ⟨_, assigned, rfl⟩

theorem same_at_position {position : Nat} {entry otherEntry : RankedSymbol α}
    (here : ranking.entries[position]? = some entry) (there : other.entries[position]? = some otherEntry) :
    entry.frequency = otherEntry.frequency ∧
      ∃ word, table.codeOf entry.symbol = some word ∧ otherTable.codeOf otherEntry.symbol = some word := by
  constructor
  · have same := congrArg (·[position]?) reordered.frequencies_eq
    simp only [Ranking.frequencies, List.getElem?_map, here, there, Option.map_some, Option.some_inj] at same
    exact same
  · have paired : (ranking.symbols.zip other.symbols)[position]? = some (entry.symbol, otherEntry.symbol) := by
      rw [List.getElem?_zip_eq_some, Ranking.symbols, Ranking.symbols, List.getElem?_map, List.getElem?_map, here,
        there]
      exact ⟨rfl, rfl⟩
    exact exists_word reordered built otherBuilt (List.mem_of_getElem? paired)

theorem exists_counterpart {symbol : α} (member : symbol ∈ ranking.symbols) :
    ∃ counterpart ∈ ranking.symbols, ranking.frequencyOf counterpart = ranking.frequencyOf symbol ∧
      ∃ word, table.codeOf symbol = some word ∧ otherTable.codeOf counterpart = some word := by
  obtain ⟨entry, listed, rfl⟩ := List.mem_map.1 member
  obtain ⟨position, within, here⟩ := List.getElem_of_mem listed
  have otherWithin : position < other.entries.length := by
    have := reordered.size_eq
    rw [Ranking.size, Ranking.size] at this
    omega
  have there := List.getElem?_eq_getElem otherWithin
  have otherListed := List.mem_of_getElem? there
  have here : ranking.entries[position]? = some entry := here ▸ List.getElem?_eq_getElem within
  generalize other.entries[position] = otherEntry at there otherListed
  obtain ⟨frequency, words⟩ := same_at_position reordered built otherBuilt here there
  refine ⟨otherEntry.symbol, reordered.mem_symbols_iff.2 (List.mem_map_of_mem otherListed), ?_, words⟩
  have known : ranking.frequencyOf entry.symbol = some entry.frequency :=
    (Ranking.frequencyOf_eq_some_iff reordered.sound.distinct).2 (List.mem_map_of_mem listed)
  have otherKnown : other.frequencyOf otherEntry.symbol = some otherEntry.frequency :=
    (Ranking.frequencyOf_eq_some_iff reordered.otherSound.distinct).2 (List.mem_map_of_mem otherListed)
  rw [known, reordered.frequencyOf_eq, otherKnown, frequency]

theorem interchanged : Interchanged (ranking, table) (other, otherTable) where
  size_eq := reordered.size_eq
  position _ _ _ here there := same_at_position reordered built otherBuilt here there
  frequencyOf_eq := reordered.frequencyOf_eq
  traded symbol receiver word coded otherCoded := by
    have listed : symbol ∈ table.symbols := by
      rw [← table.map_fst_codes]
      exact List.mem_map_of_mem (f := (·.1)) (codeOf_eq_some_iff.1 coded)
    obtain ⟨counterpart, -, same, _, coded', otherCoded'⟩ :=
      exists_counterpart reordered built otherBuilt ((mem_symbols_of_build built).1 listed)
    obtain rfl := Option.some.inj (coded.symm.trans coded')
    rw [← same, symbol_eq_of_codeOf otherCoded otherCoded']
  kept symbol member unique := by
    obtain ⟨counterpart, listed, same, word, coded, otherCoded⟩ := exists_counterpart reordered built otherBuilt member
    rw [coded, ← unique counterpart listed same, otherCoded]
  totalLength_eq := by
    rw [Ranking.totalLength_eq_cost, Ranking.totalLength_eq_cost, map_lengthOf_symbols built,
      map_lengthOf_symbols otherBuilt, reordered.frequencies_eq, reordered.minimum_eq]

end Reordering

/-- Rankings of the same frequencies have both a code or none, for the same reason. -/
theorem sameOutcome_build {ranking other : Ranking α} (reordered : Ranking.Reordered ranking other) (maximum : Nat) :
    SameOutcome (fun table otherTable => Interchanged (ranking, table) (other, otherTable)) (build ranking maximum)
      (build other maximum) := by
  have size := reordered.size_eq
  have minimum := reordered.minimum_eq
  by_cases valid : (1 ≤ maximum ∧ maximum ≤ maximumCodeLength) ∧ ranking.minimum ≤ maximum ∧ ranking.size ≤ 2 ^ maximum
  · obtain ⟨range, order, room⟩ := valid
    obtain ⟨table, built⟩ := exists_build reordered.sound range order room
    obtain ⟨otherTable, otherBuilt⟩ := exists_build reordered.otherSound range (minimum ▸ order) (size ▸ room)
    rw [built, otherBuilt]
    exact .done (interchanged reordered built otherBuilt)
  · rw [← Nat.one_shiftLeft] at valid
    unfold build
    rw [← size, ← minimum]
    split
    · exact .failed _
    · split
      · exact .failed _
      · split
        · exact .failed _
        · omega

theorem sameOutcome_ranked {frequencies others : List (α × UInt64)} (perm : frequencies.Perm others) (escape : Option α)
    (minimum maximum : Nat) :
    SameOutcome Interchanged (ranked frequencies escape minimum maximum) (ranked others escape minimum maximum) := by
  refine (Ranking.sameOutcome_build perm escape minimum).bind fun ranking other _ _ reordered => ?_
  refine (sameOutcome_build reordered maximum).bind fun table otherTable _ _ interchanged => ?_
  exact .done interchanged

end CodeTable

end HuffmanStrings
