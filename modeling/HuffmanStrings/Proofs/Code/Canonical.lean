import Mathlib
import HuffmanStrings.Code.Table
import HuffmanStrings.Proofs.Bits.Field
import HuffmanStrings.Proofs.Code.Lengths
import HuffmanStrings.Proofs.Symbol.Ranking

/-!
Where the words of a canonical code lie. A word stands for all numbers of `maximumCodeLength` bits that begin with
it. In canonical order each word's numbers follow those of the word before without a gap, the whole code needs
no more numbers than the Kraft sum says, and so no word begins another.
-/

namespace HuffmanStrings

namespace CodeWord

def lower (w : CodeWord) : Nat :=
  w.value.toNat * 2 ^ (maximumCodeLength - w.length)

def upper (w : CodeWord) : Nat :=
  (w.value.toNat + 1) * 2 ^ (maximumCodeLength - w.length)

theorem upper_eq (w : CodeWord) : w.upper = w.lower + 2 ^ (maximumCodeLength - w.length) := by
  rw [upper, lower, Nat.add_mul, Nat.one_mul]

theorem lower_lt_upper (w : CodeWord) : w.lower < w.upper := by
  have := Nat.two_pow_pos (maximumCodeLength - w.length)
  have := w.upper_eq
  omega

@[simp] theorem length_toBits (w : CodeWord) : w.toBits.length = w.length :=
  Bits.length_ofNat ..

theorem split_scale {short long : Nat} (shorter : short ≤ long) (within : long ≤ maximumCodeLength) :
    2 ^ (maximumCodeLength - short) = 2 ^ (long - short) * 2 ^ (maximumCodeLength - long) := by
  rw [← pow_add]
  congr 1
  omega

theorem fits_of_upper {w : CodeWord} (within : w.length ≤ maximumCodeLength)
    (bound : w.upper ≤ 2 ^ maximumCodeLength) : w.value.toNat < 2 ^ w.length := by
  have scale := split_scale (Nat.zero_le w.length) within
  rw [Nat.sub_zero, Nat.sub_zero] at scale
  rw [upper, scale] at bound
  exact Nat.le_of_mul_le_mul_right bound (Nat.two_pow_pos _)

/-- `next` is the word assigned after `w`, and its value came about without a wrap-around: adding one does not overflow,
and the shift drops no bit that is set. -/
structure StepsTo (w next : CodeWord) : Prop where
  successor : next = w.successor next.length
  ordered : w.length ≤ next.length
  shift_lt : next.length - w.length < 64
  increment_lt : w.value.toNat + 1 < 2 ^ 64
  shifted_lt : (w.value.toNat + 1) * 2 ^ (next.length - w.length) < 2 ^ 64
  value : next.value.toNat = (w.value.toNat + 1) * 2 ^ (next.length - w.length)

theorem stepsTo_successor {w : CodeWord} {length : Nat} (nonempty : 1 ≤ w.length) (ordered : w.length ≤ length)
    (within : length ≤ maximumCodeLength) (room : w.upper < 2 ^ maximumCodeLength) :
    w.StepsTo (w.successor length) := by
  have shift : length - w.length < 64 := by
    simp only [maximumCodeLength] at within
    omega
  have scale := split_scale ordered within
  have whole := split_scale (Nat.zero_le length) within
  rw [Nat.sub_zero, Nat.sub_zero] at whole
  have narrow : (w.value.toNat + 1) * 2 ^ (length - w.length) < 2 ^ length := by
    rw [upper, scale, ← Nat.mul_assoc, whole] at room
    exact Nat.lt_of_mul_lt_mul_right room
  have small : (w.value.toNat + 1) * 2 ^ (length - w.length) < 2 ^ 64 :=
    narrow.trans_le (Nat.pow_le_pow_right (by decide) within)
  have unwrapped : w.value.toNat + 1 < 2 ^ 64 :=
    (Nat.le_mul_of_pos_right _ (Nat.two_pow_pos _)).trans_lt small
  have next : (w.value + 1).toNat = w.value.toNat + 1 := by
    rw [UInt64.toNat_add, UInt64.toNat_one, Nat.mod_eq_of_lt unwrapped]
  refine ⟨rfl, ordered, shift, unwrapped, small, ?_⟩
  show ((w.value + 1) <<< UInt64.ofNat (length - w.length)).toNat = _
  rw [Bits.toNat_shiftLeft_ofNat shift (by rwa [next]), next]
  rfl

theorem StepsTo.lower_eq {w next : CodeWord} (step : w.StepsTo next) (within : next.length ≤ maximumCodeLength) :
    next.lower = w.upper := by
  rw [lower, step.value, upper, split_scale step.ordered within, Nat.mul_assoc]

section Prefixes

variable {w other : CodeWord}

theorem toBits_prefix_iff (fits : w.value.toNat < 2 ^ w.length) (otherFits : other.value.toNat < 2 ^ other.length) :
    w.toBits <+: other.toBits ↔
      w.length ≤ other.length ∧ other.value.toNat / 2 ^ (other.length - w.length) = w.value.toNat :=
  Bits.ofNat_prefix_iff fits otherFits

theorem isPrefixOf_iff (nonempty : 1 ≤ w.length) (within : other.length ≤ maximumCodeLength)
    (fits : w.value.toNat < 2 ^ w.length) (otherFits : other.value.toNat < 2 ^ other.length) :
    w.isPrefixOf other = true ↔ w.toBits <+: other.toBits := by
  have shift : other.length - w.length < 64 := by
    simp only [maximumCodeLength] at within
    omega
  rw [toBits_prefix_iff fits otherFits, isPrefixOf, Bool.and_eq_true, decide_eq_true_eq, decide_eq_true_eq,
    ← UInt64.toNat_inj, Bits.toNat_shiftRight_ofNat _ shift]

theorem within_of_begins (within : other.length ≤ maximumCodeLength)
    (fits : w.value.toNat < 2 ^ w.length) (otherFits : other.value.toNat < 2 ^ other.length)
    (begins : w.toBits <+: other.toBits) : w.lower ≤ other.lower ∧ other.upper ≤ w.upper := by
  obtain ⟨shorter, quotient⟩ := (toBits_prefix_iff fits otherFits).1 begins
  have scale := split_scale shorter within
  have division := Nat.div_add_mod other.value.toNat (2 ^ (other.length - w.length))
  have remainder := Nat.mod_lt other.value.toNat (Nat.two_pow_pos (other.length - w.length))
  rw [quotient, Nat.mul_comm] at division
  rw [lower, lower, upper, upper, scale, ← Nat.mul_assoc, ← Nat.mul_assoc]
  constructor
  · apply Nat.mul_le_mul_right
    omega
  · apply Nat.mul_le_mul_right
    rw [Nat.add_mul, Nat.one_mul]
    omega

end Prefixes

end CodeWord

namespace Canonical

variable {α : Type}

/-- The numbers of the words follow one another without gaps, from `position` on. -/
def Adjoining : Nat → List (α × CodeWord) → Prop
  | _, [] => True
  | position, entry :: rest => entry.2.lower = position ∧ Adjoining entry.2.upper rest

theorem kraftSum_pos (entry : α × Nat) (rest : List (α × Nat)) : 0 < kraftSum (entry :: rest) := by
  have := Nat.two_pow_pos (maximumCodeLength - entry.2)
  rw [kraftSum, Nat.one_shiftLeft]
  omega

theorem map_assignFrom (previous : Option CodeWord) (entries : List (α × Nat)) :
    (assignFrom previous entries).map (fun entry => (entry.1, entry.2.length)) = entries := by
  induction entries generalizing previous with
  | nil => cases previous <;> rfl
  | cons entry rest ih => cases previous <;> simp [assignFrom, ih, CodeWord.successor]

theorem adjoining_assignFrom_some {previous : CodeWord} {entries : List (α × Nat)} (nonempty : 1 ≤ previous.length)
    (longer : ∀ entry ∈ entries, previous.length ≤ entry.2 ∧ entry.2 ≤ maximumCodeLength)
    (ordered : entries.Pairwise fun a b => a.2 ≤ b.2)
    (room : previous.upper + kraftSum entries ≤ 2 ^ maximumCodeLength) :
    Adjoining previous.upper (assignFrom (some previous) entries) := by
  induction entries generalizing previous with
  | nil => trivial
  | cons entry rest ih =>
    rw [List.forall_mem_cons] at longer
    rw [List.pairwise_cons] at ordered
    have begun : (previous.successor entry.2).lower = previous.upper := by
      have := kraftSum_pos entry rest
      exact (CodeWord.stepsTo_successor nonempty longer.1.1 longer.1.2 (by omega)).lower_eq longer.1.2
    refine ⟨begun, ih (nonempty.trans longer.1.1)
      (fun other member => ⟨ordered.1 other member, (longer.2 other member).2⟩) ordered.2 ?_⟩
    rw [CodeWord.upper_eq, begun]
    rw [kraftSum, Nat.one_shiftLeft] at room
    have : (previous.successor entry.2).length = entry.2 := rfl
    rw [this]
    omega

/-- The invariant of the assignment: each word begins where the words before it end. -/
theorem adjoining_assign {entries : List (α × Nat)}
    (range : ∀ entry ∈ entries, 1 ≤ entry.2 ∧ entry.2 ≤ maximumCodeLength)
    (ordered : entries.Pairwise fun a b => a.2 ≤ b.2) (room : kraftSum entries ≤ 2 ^ maximumCodeLength) :
    Adjoining 0 (assign entries) := by
  cases entries with
  | nil => trivial
  | cons entry rest =>
    rw [List.forall_mem_cons] at range
    rw [List.pairwise_cons] at ordered
    have begun : (⟨0, entry.2⟩ : CodeWord).lower = 0 := by simp [CodeWord.lower]
    refine ⟨begun, adjoining_assignFrom_some range.1.1
      (fun other member => ⟨ordered.1 other member, (range.2 other member).2⟩) ordered.2 ?_⟩
    rw [CodeWord.upper_eq, begun, Nat.zero_add, ← Nat.one_shiftLeft]
    exact room

section Position

variable {position : Nat} {codes : List (α × CodeWord)}

theorem Adjoining.between (adjoining : Adjoining position codes) {entry : α × CodeWord} (member : entry ∈ codes) :
    position ≤ entry.2.lower ∧
      entry.2.upper ≤ position + kraftSum (codes.map fun entry => (entry.1, entry.2.length)) := by
  induction codes generalizing position with
  | nil => cases member
  | cons head rest ih =>
    obtain ⟨begun, adjoining⟩ := adjoining
    have size := head.2.upper_eq
    have := head.2.lower_lt_upper
    have total : kraftSum ((head :: rest).map fun entry => (entry.1, entry.2.length)) =
        2 ^ (maximumCodeLength - head.2.length) + kraftSum (rest.map fun entry => (entry.1, entry.2.length)) := by
      rw [List.map_cons, kraftSum, Nat.one_shiftLeft]
    rcases List.mem_cons.1 member with rfl | later
    · constructor <;> omega
    · have := ih adjoining later
      constructor <;> omega

theorem Adjoining.pairwise (adjoining : Adjoining position codes) : codes.Pairwise fun a b => a.2.upper ≤ b.2.lower := by
  induction codes generalizing position with
  | nil => exact .nil
  | cons head rest ih =>
    exact .cons (fun entry member => (adjoining.2.between member).1) (ih adjoining.2)

theorem Adjoining.apart (adjoining : Adjoining position codes) {entry other : α × CodeWord}
    (member : entry ∈ codes) (otherMember : other ∈ codes) :
    entry = other ∨ entry.2.upper ≤ other.2.lower ∨ other.2.upper ≤ entry.2.lower := by
  obtain ⟨first, firstIn, rfl⟩ := List.mem_iff_getElem.1 member
  obtain ⟨second, secondIn, rfl⟩ := List.mem_iff_getElem.1 otherMember
  have apart := List.pairwise_iff_getElem.1 adjoining.pairwise
  rcases Nat.lt_trichotomy first second with before | rfl | after
  · exact .inr (.inl (apart first second firstIn secondIn before))
  · exact .inl rfl
  · exact .inr (.inr (apart second first secondIn firstIn after))

theorem Adjoining.lower_eq (adjoining : Adjoining position codes) {index : Nat} (within : index < codes.length) :
    codes[index].2.lower = position +
      ∑ earlier ∈ Finset.range index, 2 ^ (maximumCodeLength - valueAt (codes.map (·.2.length)) earlier) := by
  induction codes generalizing position index with
  | nil => cases within
  | cons head rest ih =>
    cases index with
    | zero => simpa using adjoining.1
    | succ index =>
      have later := ih adjoining.2 (Nat.lt_of_succ_lt_succ within)
      rw [List.getElem_cons_succ, later, CodeWord.upper_eq, adjoining.1, Finset.sum_range_succ', Nat.add_assoc,
        Nat.add_comm (2 ^ _)]
      rfl

theorem Adjoining.getElem (adjoining : Adjoining position codes) {length : Nat}
    (same : ∀ entry ∈ codes, entry.2.length = length) {index : Nat} (within : index < codes.length) :
    codes[index].2.lower = position + index * 2 ^ (maximumCodeLength - length) := by
  have equal : ∀ earlier ∈ Finset.range index,
      2 ^ (maximumCodeLength - valueAt (codes.map (·.2.length)) earlier) = 2 ^ (maximumCodeLength - length) := by
    intro earlier before
    have inside : earlier < (codes.map (·.2.length)).length := by
      simpa using (Finset.mem_range.1 before).trans within
    obtain ⟨entry, member, here⟩ := List.mem_map.1 (valueAt_mem inside)
    rw [← here, same entry member]
  rw [adjoining.lower_eq within, Finset.sum_congr rfl equal, Finset.sum_const, Finset.card_range, smul_eq_mul]

theorem Adjoining.append_right {front back : List (α × CodeWord)} (adjoining : Adjoining position (front ++ back)) :
    ∃ middle, Adjoining middle back := by
  induction front generalizing position with
  | nil => exact ⟨position, adjoining⟩
  | cons head front ih => exact ih adjoining.2

theorem Adjoining.append_left {front back : List (α × CodeWord)} (adjoining : Adjoining position (front ++ back)) :
    Adjoining position front := by
  induction front generalizing position with
  | nil => trivial
  | cons head front ih => exact ⟨adjoining.1, ih adjoining.2⟩

end Position

end Canonical

namespace CodeTable

variable {α : Type} (t : CodeTable α) {entry other : α × CodeWord}

theorem map_codes : t.codes.map (fun entry => (entry.1, entry.2.length)) = t.lengths := by
  rw [t.codes_eq]
  exact Canonical.map_assignFrom none t.lengths

theorem map_fst_codes : t.codes.map (·.1) = t.symbols := by
  rw [symbols, ← t.map_codes, List.map_map]
  rfl

theorem nodup_symbols : t.symbols.Nodup :=
  t.realisable.distinct

theorem adjoining_codes : Canonical.Adjoining 0 t.codes := by
  rw [t.codes_eq]
  exact Canonical.adjoining_assign t.realisable.range t.ordered (Nat.one_shiftLeft _ ▸ t.realisable.kraft)

theorem ordered_codes : t.codes.Pairwise fun a b => a.2.length ≤ b.2.length := by
  have ordered := t.ordered
  rw [← t.map_codes, List.pairwise_map] at ordered
  exact ordered

variable {t}

theorem mem_lengths (member : entry ∈ t.codes) : (entry.1, entry.2.length) ∈ t.lengths := by
  rw [← t.map_codes]
  exact List.mem_map_of_mem (f := fun entry : α × CodeWord => (entry.1, entry.2.length)) member

theorem length_range (member : entry ∈ t.codes) : 1 ≤ entry.2.length ∧ entry.2.length ≤ maximumCodeLength :=
  t.realisable.range _ (mem_lengths member)

theorem validCount_length (member : entry ∈ t.codes) : ValidCount entry.2.length :=
  length_range member

theorem upper_le (member : entry ∈ t.codes) : entry.2.upper ≤ 2 ^ maximumCodeLength := by
  have bound := (t.adjoining_codes.between member).2
  rw [t.map_codes, Nat.zero_add] at bound
  exact bound.trans (Nat.one_shiftLeft _ ▸ t.realisable.kraft)

theorem fits (member : entry ∈ t.codes) : entry.2.value.toNat < 2 ^ entry.2.length :=
  CodeWord.fits_of_upper (length_range member).2 (upper_le member)

theorem eq_of_begins (member : entry ∈ t.codes) (otherMember : other ∈ t.codes)
    (begins : entry.2.toBits <+: other.2.toBits) : entry = other := by
  have inside := CodeWord.within_of_begins (length_range otherMember).2 (fits member) (fits otherMember) begins
  have := entry.2.lower_lt_upper
  have := other.2.lower_lt_upper
  rcases t.adjoining_codes.apart member otherMember with same | before | after
  · exact same
  · omega
  · omega

theorem codeOf_eq_some_iff [DecidableEq α] {symbol : α} {word : CodeWord} :
    t.codeOf symbol = some word ↔ (symbol, word) ∈ t.codes := by
  have distinct := t.nodup_symbols
  rw [← t.map_fst_codes] at distinct
  exact lookup_eq_some_iff distinct

end CodeTable

end HuffmanStrings
