import HuffmanStrings.Proofs.Codebook.Rebuilding
import HuffmanStrings.Proofs.Symbol.Precedence

/-!
The normal form of codebooks. A codebook may list its entries in any order. What it is made into lists them by length,
and those of one length in the order in which they were found, for that order decides on the words.
-/

namespace HuffmanStrings

namespace Canonical

section Grouping

variable {β : Type} (key : β → Nat)

theorem filter_mergeSort_key (items : List β) (k : Nat) :
    ((items.mergeSort fun a b => key a ≤ key b).filter fun item => key item = k) =
      items.filter fun item => key item = k := by
  refine filter_mergeSort key_trans key_total (fun a b first second => ?_) items
  simp only [decide_eq_true_eq] at first second ⊢
  omega

theorem flatMap_filter_eq_mergeSort {keys : List Nat} (ascending : keys.Pairwise (· < ·)) {items : List β}
    (covered : ∀ item ∈ items, key item ∈ keys) :
    (keys.flatMap fun k => items.filter fun item => key item = k) = items.mergeSort fun a b => key a ≤ key b := by
  have grouped := flatMap_filter_eq_self key ascending (pairwise_mergeSort_key key items) fun item member =>
    covered item ((List.mergeSort_perm ..).mem_iff.1 member)
  simp only [filter_mergeSort_key] at grouped
  exact grouped

end Grouping

variable {α : Type} {entries others : List (α × Nat)}

theorem order_eq_mergeSort (range : ∀ entry ∈ entries, 1 ≤ entry.2 ∧ entry.2 ≤ maximumCodeLength) :
    order entries = entries.mergeSort fun a b => a.2 ≤ b.2 := by
  refine flatMap_filter_eq_mergeSort (fun entry : α × Nat => entry.2) List.pairwise_lt_range' fun entry member => ?_
  have := range entry member
  rw [List.mem_range'_1]
  omega

/-- The lists hold the same entries, and those of one length in the same order. -/
def SameByLength (entries others : List (α × Nat)) : Prop :=
  ∀ length, (entries.filter fun entry => entry.2 = length) = others.filter fun entry => entry.2 = length

namespace SameByLength

theorem symm (same : SameByLength entries others) : SameByLength others entries :=
  fun length => (same length).symm

theorem order_eq (same : SameByLength entries others) : order entries = order others :=
  List.flatMap_congr fun length _ => same length

theorem perm [DecidableEq α] (same : SameByLength entries others) : entries.Perm others := by
  refine List.perm_iff_count.2 fun entry => ?_
  have grouped (list : List (α × Nat)) : (list.filter fun other => other.2 = entry.2).count entry = list.count entry :=
    List.count_filter (decide_eq_true rfl)
  rw [← grouped, same entry.2, grouped]

end SameByLength

end Canonical

open Canonical (SameByLength)

namespace CodeTable

variable {α : Type} [DecidableEq α] {entries others : List (α × Nat)}

omit [DecidableEq α] in
theorem realisable_perm (realisable : Realisable entries) (perm : entries.Perm others) : Realisable others where
  nonempty := fun none => realisable.nonempty (List.perm_nil.1 (none ▸ perm))
  distinct := (perm.map _).nodup_iff.1 realisable.distinct
  range entry member := realisable.range entry (perm.mem_iff.2 member)
  kraft := kraftSum_perm perm ▸ realisable.kraft

theorem ofLengths_of_same (same : SameByLength entries others) {escape : Option α} {table : CodeTable α}
    (accepted : ofLengths entries escape = .ok table) : ofLengths others escape = .ok table := by
  obtain ⟨realisable, member, lengths, escaped⟩ := ofLengths_eq_ok_iff.1 accepted
  refine ofLengths_eq_ok_iff.2 ⟨realisable_perm realisable same.perm, fun symbol given => ?_, ?_, escaped⟩
  · exact (same.perm.map _).mem_iff.1 (member symbol given)
  · rw [lengths, same.order_eq]

end CodeTable

namespace StoredTable

variable {α : Type}

def normalised (stored : StoredTable α) : StoredTable α where
  entries := stored.entries.mergeSort fun a b => a.2.toNat ≤ b.2.toNat
  escape := stored.escape

theorem pairwise_normalised (stored : StoredTable α) : stored.normalised.entries.Pairwise fun a b => a.2 ≤ b.2 :=
  pairwise_mergeSort_key (fun entry => entry.2.toNat) stored.entries

theorem filter_normalised (stored : StoredTable α) (length : UInt8) :
    (stored.normalised.entries.filter fun entry => entry.2 = length) =
      stored.entries.filter fun entry => entry.2 = length := by
  have kept := Canonical.filter_mergeSort_key (fun entry => entry.2.toNat) stored.entries length.toNat
  simp only [UInt8.toNat_inj] at kept
  exact kept

theorem ofTable_of_toTable [DecidableEq α] {stored : StoredTable α} {table : CodeTable α}
    (accepted : stored.toTable = .ok table) : ofTable table = stored.normalised := by
  obtain ⟨realisable, -, lengths, escape⟩ := CodeTable.ofLengths_eq_ok_iff.1 accepted
  have sorted : table.lengths = stored.normalised.entries.map fun entry => (entry.1, entry.2.toNat) := by
    rw [lengths, Canonical.order_eq_mergeSort realisable.range, normalised]
    exact (List.map_mergeSort (f := fun entry : α × UInt8 => (entry.1, entry.2.toNat)) fun _ _ _ _ => rfl).symm
  have restored (entry : α × UInt8) : (entry.1, UInt8.ofNat entry.2.toNat) = entry := by
    rw [UInt8.ofNat_toNat]
  simp only [ofTable, sorted, escape, List.map_map, Function.comp_def, restored, List.map_id']
  rfl

end StoredTable

namespace Codebook

def normalised (book : Codebook) : Codebook where
  characters := book.characters.normalised
  texts := book.texts.normalised

theorem ofCoder_of_toCoder {book : Codebook} {coder : ListCoder} (made : book.toCoder = .ok coder) :
    ofCoder coder = book.normalised := by
  obtain ⟨letters, lettersMade, made⟩ := exists_of_bind_eq_ok made
  obtain ⟨chars, charsMade, made⟩ := exists_of_bind_eq_ok made
  obtain ⟨phrases, phrasesMade, made⟩ := exists_of_bind_eq_ok made
  obtain ⟨texts, textsMade, made⟩ := exists_of_bind_eq_ok made
  cases made
  obtain rfl := CharCoder.ofTable_eq_ok_iff.1 charsMade
  obtain ⟨rfl, rfl⟩ := TextCoder.ofTable_eq_ok_iff.1 textsMade
  simp only [ofCoder, normalised, StoredTable.ofTable_of_toTable lettersMade,
    StoredTable.ofTable_of_toTable phrasesMade]

/-- Whatever codebook a coder is made of, what is stored of it is the normal form. The same coder is made of that, and it
does not change any more. For the order of entries matters only within each length: lists that agree there give the same
table. -/
theorem rebuilding_normalises :
    (∀ {α : Type} (stored : StoredTable α), stored.normalised.escape = stored.escape ∧
      stored.normalised.entries.Pairwise (fun a b => a.2 ≤ b.2) ∧
      ∀ length, (stored.normalised.entries.filter fun entry => entry.2 = length) =
        stored.entries.filter fun entry => entry.2 = length) ∧
    (∀ {book : Codebook} {coder : ListCoder}, book.toCoder = .ok coder →
      ofCoder coder = book.normalised ∧ book.normalised.toCoder = .ok coder ∧
        book.normalised.normalised = book.normalised) ∧
    ∀ {α : Type} [DecidableEq α] {entries others : List (α × Nat)}, SameByLength entries others →
      ∀ escape table, CodeTable.ofLengths entries escape = .ok table ↔ CodeTable.ofLengths others escape = .ok table := by
  refine ⟨fun stored => ⟨rfl, stored.pairwise_normalised, stored.filter_normalised⟩, ?_, ?_⟩
  · intro book coder made
    have stored := ofCoder_of_toCoder made
    have again : book.normalised.toCoder = .ok coder := stored ▸ toCoder_ofCoder coder
    exact ⟨stored, again, (ofCoder_of_toCoder again).symm.trans stored⟩
  · intro α _ entries others same escape table
    exact ⟨CodeTable.ofLengths_of_same same, CodeTable.ofLengths_of_same same.symm⟩

/-- An incomplete code of which the longest word is listed first. -/
theorem rebuilding_normalises_letters :
    (∃ coder, (⟨⟨[(.char 'a', 3), (.endOfString, 2), (.escape, 1)], some .escape⟩,
        ⟨[(.text "a", 5), (.text "b", 2), (.escape, 2)], some .escape⟩⟩ : Codebook).toCoder = .ok coder ∧
      ofCoder coder = ⟨⟨[(.escape, 1), (.endOfString, 2), (.char 'a', 3)], some .escape⟩,
        ⟨[(.text "b", 2), (.escape, 2), (.text "a", 5)], some .escape⟩⟩) ∧
    ∀ table, CodeTable.ofLengths [('a', 2), ('b', 1), ('c', 2)] none = .ok table ↔
      CodeTable.ofLengths [('a', 2), ('c', 2), ('b', 1)] none = .ok table := by
  constructor
  · have letters : Realisable [(Letter.char 'a', 3), (.endOfString, 2), (.escape, 1)] :=
      ⟨by decide, by decide, by decide, by decide⟩
    have phrases : Realisable [(Phrase.text "a", 5), (.text "b", 2), (.escape, 2)] :=
      ⟨by decide, by decide, by decide, by decide⟩
    obtain ⟨coder, made⟩ := (judged_toCoder ⟨⟨[(.char 'a', 3), (.endOfString, 2), (.escape, 1)], some .escape⟩,
        ⟨[(.text "a", 5), (.text "b", 2), (.escape, 2)], some .escape⟩⟩).exists_ok_iff.2
      ⟨CodeTable.exists_ofLengths letters (by decide), CodeTable.exists_ofLengths phrases (by decide), rfl, by decide, rfl⟩
    have sorted := (rebuilding_normalises.2.1 made).1
    exact ⟨coder, made, sorted.trans (by cbv)⟩
  · refine rebuilding_normalises.2.2 (fun length => ?_) none
    by_cases two : 2 = length
    · subst two
      decide
    · simp [List.filter_cons, two]

end Codebook

end HuffmanStrings
