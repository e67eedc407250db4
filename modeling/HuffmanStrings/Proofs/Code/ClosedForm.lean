import Mathlib
import HuffmanStrings.Proofs.Code.Building
import HuffmanStrings.Proofs.Code.Decoding

/-!
The words of a canonical code in closed form. A word's value is the number of words of its length that begin with a word
before it, `2 ^ (l - k)` for a word of `k` bits, and the Kraft sum of the words up to it keeps it below `2 ^ l`. The sums
are of unbounded numbers; that the table's values, which are 64-bit numbers that grow by one and are shifted, are the same
is due to the room that the rest of the code leaves at every step, down to a full code with words of 64 bits. The buckets
of the table are what comes of filling them word by word.
-/

namespace HuffmanStrings

def closedValue (lengths : List Nat) (index : Nat) : Nat :=
  ∑ earlier ∈ Finset.range index, 2 ^ (valueAt lengths index - valueAt lengths earlier)

namespace CodeWord

theorem toBits_lt_of_upper_le {w other : CodeWord} (ordered : w.length ≤ other.length)
    (within : other.length ≤ maximumCodeLength) (fits : w.value.toNat < 2 ^ w.length)
    (otherFits : other.value.toNat < 2 ^ other.length) (before : w.upper ≤ other.lower) : w.toBits < other.toBits := by
  have least : w.value.toNat < other.value.toNat / 2 ^ (other.length - w.length) := by
    rw [upper, lower, split_scale ordered within, ← Nat.mul_assoc] at before
    rw [← Nat.succ_le_iff, Nat.le_div_iff_mul_le (Nat.two_pow_pos _)]
    exact Nat.le_of_mul_le_mul_right before (Nat.two_pow_pos _)
  have leading : other.value.toNat / 2 ^ (other.length - w.length) < 2 ^ w.length := by
    rwa [Nat.div_lt_iff_lt_mul (Nat.two_pow_pos _), ← pow_add, Nat.add_sub_cancel' ordered]
  have split := Bits.ofNat_add w.length (other.length - w.length) other.value.toNat
  rw [Nat.add_sub_cancel' ordered] at split
  rw [toBits, toBits, split, ← List.lex_lt]
  apply List.Lex.append_right
  rw [List.lex_lt]
  apply Bits.lt_of_toNat_lt (by rw [Bits.length_ofNat, Bits.length_ofNat])
  rwa [Bits.toNat_ofNat, Bits.toNat_ofNat, Nat.mod_eq_of_lt fits, Nat.mod_eq_of_lt leading]

end CodeWord

namespace Bucket

def empty : Bucket where
  first := 0
  offset := 0
  count := 0

def put (b : Bucket) (value : UInt64) (position : Nat) : Bucket :=
  if b.count = 0 then ⟨value, position, 1⟩ else { b with count := b.count + 1 }

theorem index?_of_count_eq_zero {b : Bucket} (none : b.count = 0) (value : UInt64) : b.index? value = Option.none := by
  simp [index?, none]

end Bucket

structure Bucket.Describes {α : Type} (b : Bucket) (codes : List (α × CodeWord)) (length : Nat) : Prop where
  within : b.offset + b.count ≤ codes.length
  run : ∀ (index : Nat) (entry : α × CodeWord), codes[index]? = some entry →
    (entry.2.length = length ↔ b.offset ≤ index ∧ index < b.offset + b.count)
  value : ∀ (index : Nat) (entry : α × CodeWord), codes[index]? = some entry → entry.2.length = length →
    entry.2.value.toNat = b.first.toNat + (index - b.offset)

namespace Canonical

variable {α : Type}

theorem filter_flatMap_filter {β : Type} (key : β → Nat) {keys : List Nat} (distinct : keys.Nodup) (list : List β)
    (k : Nat) : (keys.flatMap fun j => list.filter fun item => key item = j).filter (fun item => key item = k) =
      if k ∈ keys then list.filter fun item => key item = k else [] := by
  have group (j : Nat) : (list.filter fun item => key item = j).filter (fun item => key item = k) =
      if k = j then list.filter fun item => key item = k else [] := by
    rw [List.filter_filter]
    split
    case isTrue same => simp only [same, Bool.and_self]
    case isFalse other =>
      rw [List.filter_eq_nil_iff]
      intro item _
      simp only [Bool.and_eq_true, decide_eq_true_eq]
      omega
  induction keys with
  | nil => rfl
  | cons j keys ih =>
    rw [List.nodup_cons] at distinct
    rw [List.flatMap_cons, List.filter_append, group, ih distinct.2]
    by_cases same : k = j
    · subst same
      simp [distinct.1]
    · simp [same]

theorem filter_order {entries : List (α × Nat)} (range : ∀ entry ∈ entries, 1 ≤ entry.2 ∧ entry.2 ≤ maximumCodeLength)
    (length : Nat) : (order entries).filter (fun entry => entry.2 = length) = entries.filter fun entry => entry.2 = length := by
  rw [order, filter_flatMap_filter (fun entry : α × Nat => entry.2) List.nodup_range']
  split
  case isTrue => rfl
  case isFalse outside =>
    rw [eq_comm, List.filter_eq_nil_iff]
    intro entry member
    have := range entry member
    rw [List.mem_range'_1] at outside
    simp only [decide_eq_true_eq]
    omega

theorem isChain_assignFrom (symbol : α) (previous : CodeWord) (entries : List (α × Nat)) :
    ((symbol, previous) :: assignFrom (some previous) entries).IsChain fun a b => b.2 = a.2.successor b.2.length := by
  induction entries generalizing symbol previous with
  | nil => exact .singleton _
  | cons entry rest ih => exact .cons_cons rfl (ih entry.1 (previous.successor entry.2))

theorem isChain_assign (entries : List (α × Nat)) :
    (assign entries).IsChain fun a b => b.2 = a.2.successor b.2.length := by
  cases entries with
  | nil => exact .nil
  | cons entry rest => exact isChain_assignFrom entry.1 ⟨0, entry.2⟩ rest

section Filling

/-- The buckets of the lengths from 0 to `longest`, filled word by word. -/
def fill (longest : Nat) (codes : List (α × CodeWord)) : List Bucket :=
  codes.zipIdx.foldl
    (fun buckets word => buckets.modify word.1.2.length (·.put word.1.2.value word.2))
    (List.replicate (longest + 1) .empty)

variable {longest length : Nat} {front codes : List (α × CodeWord)} {entry : α × CodeWord}

theorem fill_concat (longest : Nat) (front : List (α × CodeWord)) (entry : α × CodeWord) :
    fill longest (front ++ [entry]) =
      (fill longest front).modify entry.2.length (·.put entry.2.value front.length) := by
  rw [fill, List.zipIdx_append, Nat.zero_add, List.foldl_append]
  rfl

theorem length_fill (longest : Nat) (codes : List (α × CodeWord)) : (fill longest codes).length = longest + 1 := by
  induction codes using List.reverseRecOn with
  | nil => exact List.length_replicate
  | append_singleton front entry ih => rw [fill_concat, List.length_modify, ih]

/-- A bucket that has a word is settled but for more words of its length: no shorter ones are to come. -/
theorem bucket_concat_of_ne (other : entry.2.length ≠ length) (later : ∃ word ∈ front, word.2.length = length)
    (ordered : ∀ word ∈ front, word.2.length ≤ entry.2.length) :
    bucket (front ++ [entry]) length = bucket front length := by
  obtain ⟨word, member, rfl⟩ := later
  have known : (front.find? fun entry => entry.2.length = word.2.length).isSome :=
    List.find?_isSome.2 ⟨word, member, decide_eq_true rfl⟩
  have longer := ordered word member
  simp [bucket, List.find?_append, Option.or_of_isSome known, List.countP_append, other, longer]

theorem bucket_concat_self (ordered : ∀ word ∈ front, word.2.length ≤ entry.2.length) :
    bucket (front ++ [entry]) entry.2.length =
      (if ∃ word ∈ front, word.2.length = entry.2.length then bucket front entry.2.length else .empty).put
        entry.2.value front.length := by
  split
  case isTrue later =>
    obtain ⟨word, member, same⟩ := later
    have known : (front.find? fun word => word.2.length = entry.2.length).isSome :=
      List.find?_isSome.2 ⟨word, member, decide_eq_true same⟩
    have counted : front.countP (fun word => word.2.length = entry.2.length) ≠ 0 :=
      (List.countP_pos_iff.2 ⟨word, member, decide_eq_true same⟩).ne'
    simp [bucket, Bucket.put, List.find?_append, Option.or_of_isSome known, List.countP_append, counted]
  case isFalse first =>
    simp only [not_exists, not_and] at first
    have none : (front.find? fun word => word.2.length = entry.2.length) = none :=
      List.find?_eq_none.2 fun word member => by simpa using first word member
    have zero : front.countP (fun word => word.2.length = entry.2.length) = 0 :=
      List.countP_eq_zero.2 fun word member => by simpa using first word member
    have shorter : front.countP (fun word => word.2.length < entry.2.length) = front.length :=
      List.countP_eq_length.2 fun word member => by simpa using (ordered word member).lt_of_ne (first word member)
    simp [bucket, Bucket.put, Bucket.empty, List.find?_append, none, List.countP_append, zero, shorter]

theorem getElem?_fill (ordered : codes.Pairwise fun a b => a.2.length ≤ b.2.length) (within : length ≤ longest) :
    (fill longest codes)[length]? =
      some (if ∃ word ∈ codes, word.2.length = length then bucket codes length else .empty) := by
  induction codes using List.reverseRecOn with
  | nil => simp [fill, Nat.lt_succ_of_le within]
  | append_singleton front entry ih =>
    rw [List.pairwise_append] at ordered
    have last (word : α × CodeWord) (member : word ∈ front) : word.2.length ≤ entry.2.length :=
      ordered.2.2 word member entry (List.mem_singleton_self _)
    rw [fill_concat, List.getElem?_modify, ih ordered.1]
    by_cases same : entry.2.length = length
    · subst same
      have present : ∃ word ∈ front ++ [entry], word.2.length = entry.2.length := ⟨entry, by simp, rfl⟩
      simp only [if_true, if_pos present, bucket_concat_self last, Option.map_eq_map, Option.map_some]
    · have others : (∃ word ∈ front ++ [entry], word.2.length = length) ↔ ∃ word ∈ front, word.2.length = length := by
        simp [or_and_right, exists_or, same]
      simp only [if_neg same, others]
      split
      · rename_i later
        rw [bucket_concat_of_ne same later last]
        rfl
      · rfl

end Filling

end Canonical

namespace CodeTable

variable {α : Type}

structure InClosedForm [DecidableEq α] (t : CodeTable α) (entries : List (α × Nat)) : Prop where
  /-- The symbols stand in canonical order: by length, those of one length as they were listed. -/
  perm : t.lengths.Perm entries
  ordered : t.lengths.Pairwise fun a b => a.2 ≤ b.2
  stable : ∀ length, t.lengths.filter (fun entry => entry.2 = length) = entries.filter fun entry => entry.2 = length
  assigned : t.codes.map (fun entry => (entry.1, entry.2.length)) = t.lengths
  coded : ∀ entry ∈ t.codes, t.codeOf entry.1 = some entry.2
  value : ∀ (index : Nat) (entry : α × CodeWord), t.codes[index]? = some entry →
    entry.2.value.toNat = closedValue (t.lengths.map (·.2)) index
  fits : ∀ entry ∈ t.codes, entry.2.value.toNat < 2 ^ entry.2.length
  steps : t.codes.IsChain fun a b => a.2.StepsTo b.2
  ascending : t.codes.Pairwise fun a b => a.2.toBits < b.2.toBits
  bucketed : ∀ entry ∈ t.codes, 1 ≤ entry.2.length ∧ entry.2.length ≤ t.buckets.length
  buckets : ∀ (index : Nat) (bucket : Bucket), t.buckets[index]? = some bucket → bucket.Describes t.codes (index + 1)
  /-- Buckets that are filled word by word are the same for the lengths that a word has, and find the same words. -/
  filled : ∀ entry ∈ t.codes,
    (Canonical.fill t.longest t.codes)[entry.2.length]? = t.buckets[entry.2.length - 1]?
  found : ∀ (index : Nat) (value : UInt64),
    (Canonical.fill t.longest t.codes)[index + 1]?.bind (·.index? value) = t.buckets[index]?.bind (·.index? value)

section Words

variable {t : CodeTable α}

theorem map_length_codes (t : CodeTable α) : t.codes.map (·.2.length) = t.lengths.map (·.2) := by
  rw [← t.map_codes, List.map_map]
  rfl

theorem valueAt_lengths {index : Nat} (within : index < t.codes.length) :
    valueAt (t.lengths.map (·.2)) index = t.codes[index].2.length := by
  rw [← t.map_length_codes, valueAt, List.getD_eq_getElem _ _ (by simpa using within), List.getElem_map]

theorem value_eq_closedValue {index : Nat} (within : index < t.codes.length) :
    t.codes[index].2.value.toNat = closedValue (t.lengths.map (·.2)) index := by
  have longest := (length_range (t := t) (List.getElem_mem within)).2
  have begun := t.adjoining_codes.lower_eq within
  -- In numbers of as many bits as this word has, each word before it takes up a whole number of them.
  have scaled : ∀ earlier ∈ Finset.range index, 2 ^ (maximumCodeLength - valueAt (t.lengths.map (·.2)) earlier) =
      2 ^ (valueAt (t.lengths.map (·.2)) index - valueAt (t.lengths.map (·.2)) earlier) *
        2 ^ (maximumCodeLength - t.codes[index].2.length) := by
    intro earlier before
    rw [Finset.mem_range] at before
    have shorter := List.pairwise_iff_getElem.1 t.ordered_codes earlier index (before.trans within) within before
    rw [valueAt_lengths (before.trans within), valueAt_lengths within]
    exact CodeWord.split_scale shorter longest
  rw [t.map_length_codes, Nat.zero_add, Finset.sum_congr rfl scaled, ← Finset.sum_mul, CodeWord.lower] at begun
  exact Nat.eq_of_mul_eq_mul_right (Nat.two_pow_pos _) begun

theorem isChain_stepsTo (t : CodeTable α) : t.codes.IsChain fun a b => a.2.StepsTo b.2 := by
  have chain := Canonical.isChain_assign t.lengths
  rw [← t.codes_eq, List.isChain_iff_getElem] at chain
  rw [List.isChain_iff_getElem]
  intro index within
  have before := List.pairwise_iff_getElem.1 t.adjoining_codes.pairwise index (index + 1) (by omega) within (by omega)
  have ordered := List.pairwise_iff_getElem.1 t.ordered_codes index (index + 1) (by omega) within (by omega)
  have nonempty := (length_range (t := t) (List.getElem_mem (by omega : index < t.codes.length))).1
  have longest := (length_range (t := t) (List.getElem_mem within)).2
  have room : t.codes[index].2.upper < 2 ^ maximumCodeLength :=
    (before.trans_lt (CodeWord.lower_lt_upper _)).trans_le (upper_le (List.getElem_mem within))
  rw [chain index within]
  exact CodeWord.stepsTo_successor nonempty ordered longest room

theorem pairwise_toBits (t : CodeTable α) : t.codes.Pairwise fun a b => a.2.toBits < b.2.toBits := by
  refine (t.ordered_codes.and t.adjoining_codes.pairwise).imp_of_mem ?_
  intro a b memberA memberB ⟨ordered, before⟩
  exact CodeWord.toBits_lt_of_upper_le ordered (length_range memberB).2 (fits memberA) (fits memberB) before

theorem length_eq_iff_in_run {length index : Nat} {entry : α × CodeWord} (found : t.codes[index]? = some entry) :
    entry.2.length = length ↔ (Canonical.bucket t.codes length).offset ≤ index ∧
      index < (Canonical.bucket t.codes length).offset + (Canonical.bucket t.codes length).count := by
  have split := congrArg (·[index]?) (Canonical.split_codes t.ordered_codes length)
  have offset := t.offset_bucket length
  have count := t.count_bucket length
  rw [wordsOf] at count
  rcases Nat.lt_or_ge index (Canonical.bucket t.codes length).offset with before | above
  · rw [found, List.getElem?_append_left (by omega)] at split
    have shorter := List.mem_of_getElem? split.symm
    simp only [List.mem_filter, decide_eq_true_eq] at shorter
    omega
  · rcases Nat.lt_or_ge (index - (Canonical.bucket t.codes length).offset) (Canonical.bucket t.codes length).count with
      inside | after
    · rw [found, List.getElem?_append_right (by omega), List.getElem?_append_left (by omega)] at split
      have same := List.mem_of_getElem? split.symm
      simp only [List.mem_filter, decide_eq_true_eq] at same
      omega
    · rw [found, List.getElem?_append_right (by omega), List.getElem?_append_right (by omega)] at split
      have longer := List.mem_of_getElem? split.symm
      simp only [List.mem_filter, decide_eq_true_eq] at longer
      omega

theorem describes_bucket (t : CodeTable α) (length : Nat) :
    (Canonical.bucket t.codes length).Describes t.codes length where
  within := by
    have parts := congrArg List.length (Canonical.split_codes t.ordered_codes length)
    rw [List.length_append, List.length_append] at parts
    rw [t.offset_bucket, t.count_bucket, wordsOf]
    omega
  run _ _ := length_eq_iff_in_run
  value index entry found same := by
    obtain ⟨above, below⟩ := (length_eq_iff_in_run found).1 same
    obtain ⟨position, rfl⟩ := Nat.exists_eq_add_of_le above
    have within : position < (t.wordsOf length).length := by
      rw [← t.count_bucket]
      omega
    rw [t.getElem?_offset within, List.getElem?_eq_getElem within] at found
    cases found
    rw [value_wordsOf within, Nat.add_sub_cancel_left]

theorem getElem?_buckets {index : Nat} (within : index < t.longest) :
    t.buckets[index]? = some (Canonical.bucket t.codes (index + 1)) := by
  rw [t.buckets_eq_map, List.getElem?_map, List.getElem?_range' within, Nat.one_mul, Nat.add_comm]
  rfl

theorem getElem?_fill_codes {entry : α × CodeWord} (member : entry ∈ t.codes) :
    (Canonical.fill t.longest t.codes)[entry.2.length]? = t.buckets[entry.2.length - 1]? := by
  have nonempty := (length_range member).1
  have within := length_le_longest member
  rw [Canonical.getElem?_fill t.ordered_codes within, if_pos ⟨entry, member, rfl⟩, getElem?_buckets (by omega),
    Nat.sub_add_cancel nonempty]

theorem index?_fill_codes (t : CodeTable α) (index : Nat) (value : UInt64) :
    (Canonical.fill t.longest t.codes)[index + 1]?.bind (·.index? value) = t.buckets[index]?.bind (·.index? value) := by
  rcases Nat.lt_or_ge index t.longest with within | beyond
  · rw [Canonical.getElem?_fill t.ordered_codes within, getElem?_buckets within]
    split
    · rfl
    · -- The closed form gives a length without a word an offset of its own, which nothing can be found at.
      rename_i none
      have zero : (Canonical.bucket t.codes (index + 1)).count = 0 := by
        rw [Canonical.bucket, List.countP_eq_zero]
        exact fun word member same => none ⟨word, member, of_decide_eq_true same⟩
      exact (Bucket.index?_of_count_eq_zero rfl value).trans (Bucket.index?_of_count_eq_zero zero value).symm
  · have long : (Canonical.fill t.longest t.codes).length ≤ index + 1 := by
      rw [Canonical.length_fill]
      omega
    rw [List.getElem?_eq_none long, List.getElem?_eq_none beyond]

end Words

variable [DecidableEq α]

theorem inClosedForm_of_ofLengths {entries : List (α × Nat)} {escape : Option α} {table : CodeTable α}
    (accepted : ofLengths entries escape = .ok table) : table.InClosedForm entries where
  perm := perm_lengths accepted
  ordered := table.ordered
  stable length := by
    obtain ⟨realisable, -, lengths, -⟩ := ofLengths_eq_ok_iff.1 accepted
    rw [lengths, Canonical.filter_order realisable.range]
  assigned := table.map_codes
  coded _ member := codeOf_eq_some_iff.2 member
  value index entry found := by
    obtain ⟨within, rfl⟩ := List.getElem?_eq_some_iff.1 found
    exact value_eq_closedValue within
  fits _ := fits
  steps := table.isChain_stepsTo
  ascending := table.pairwise_toBits
  bucketed _ member := ⟨(length_range member).1, length_le_longest member⟩
  buckets index bucket found := by
    have within : index < table.longest := (List.getElem?_eq_some_iff.1 found).1
    rw [getElem?_buckets within] at found
    cases found
    exact table.describes_bucket (index + 1)
  filled _ := getElem?_fill_codes
  found := table.index?_fill_codes

/-- Every table has its words in closed form: one of lengths that are given, where they are listed, and one that is built,
where they are ranked. -/
theorem canonical_closed_form :
    (∀ (entries : List (α × Nat)) (escape : Option α) (table : CodeTable α), ofLengths entries escape = .ok table →
      table.InClosedForm entries) ∧
    ∀ (ranking : Ranking α) (maximum : Nat) (table : CodeTable α), build ranking maximum = .ok table →
      (rankedLengths ranking maximum).map (·.1) = ranking.symbols ∧ table.InClosedForm (rankedLengths ranking maximum) := by
  refine ⟨fun entries escape table => inClosedForm_of_ofLengths, fun ranking maximum table built => ?_⟩
  obtain ⟨⟨positive, -⟩, -, room, accepted⟩ := build_eq_ok_iff.1 built
  exact ⟨map_fst_rankedLengths positive room, inClosedForm_of_ofLengths accepted⟩

/-- A full code with words of 64 bits: one word of each length, and a second one of the greatest. -/
def fullLengths : List (Nat × Nat) :=
  (List.range' 1 64).map (fun length => (length, length)) ++ [(0, 64)]

/-- Its last word is all ones, so one step more would wrap around. -/
theorem canonical_closed_form_full :
    (∃ table : CodeTable Nat, ofLengths fullLengths none = .ok table ∧ table.InClosedForm fullLengths ∧
      ∃ entry, table.codes[64]? = some entry ∧ entry.2 = ⟨2 ^ 64 - 1, 64⟩) ∧
    ∃ (ranking : Ranking Char) (table : CodeTable Char),
      Ranking.build [('a', 5), ('b', 2), ('c', 1)] none 2 = .ok ranking ∧ build ranking 3 = .ok table ∧
        table.InClosedForm (rankedLengths ranking 3) := by
  have realisable : Realisable fullLengths := ⟨by decide, by decide, by decide, by decide⟩
  have escape : ∀ symbol ∈ (none : Option Nat), symbol ∈ fullLengths.map (·.1) := by simp
  obtain ⟨table, accepted⟩ := exists_ofLengths realisable escape
  obtain ⟨-, -, lengths, -⟩ := ofLengths_eq_ok_iff.1 accepted
  have last : table.codes[64]? = some (0, ⟨2 ^ 64 - 1, 64⟩) := by
    rw [table.codes_eq, lengths]
    decide +kernel
  have ranked : Ranking.build [('a', 5), ('b', 2), ('c', 1)] none 2 =
      .ok ⟨[⟨'a', 5, 0⟩, ⟨'b', 2, 1⟩, ⟨'c', 1, 2⟩], none, 2⟩ := by cbv
  obtain ⟨letters, built⟩ := exists_build (Ranking.sound_of_build ranked) (by decide : 1 ≤ 3 ∧ 3 ≤ 64) (by decide)
    (by decide)
  exact ⟨⟨table, accepted, canonical_closed_form.1 _ _ _ accepted, _, last, rfl⟩, _, letters, ranked, built,
    (canonical_closed_form.2 _ _ _ built).2⟩

end CodeTable

end HuffmanStrings
