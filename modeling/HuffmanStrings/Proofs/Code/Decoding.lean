import Mathlib
import HuffmanStrings.Proofs.Bits.Store
import HuffmanStrings.Proofs.Code.Canonical

/-!
Reading a word. The decoder compares the bits read with the values of one bucket for each length and never looks
at a word; it nevertheless finds the word that begins the input if there is one, and says so if there is none.
-/

namespace HuffmanStrings

namespace Canonical

variable {α : Type}

theorem split_codes {codes : List (α × CodeWord)} (ordered : codes.Pairwise fun a b => a.2.length ≤ b.2.length)
    (length : Nat) :
    codes = codes.filter (fun entry => entry.2.length < length) ++
      (codes.filter (fun entry => entry.2.length = length) ++ codes.filter (fun entry => length < entry.2.length)) := by
  induction codes with
  | nil => rfl
  | cons head rest ih =>
    rw [List.pairwise_cons] at ordered
    have tail := ih ordered.2
    have noneShorter (from_ : length ≤ head.2.length) : rest.filter (fun entry => entry.2.length < length) = [] := by
      rw [List.filter_eq_nil_iff]
      intro entry member
      have := ordered.1 entry member
      simp only [decide_eq_true_eq]
      omega
    rcases Nat.lt_trichotomy head.2.length length with shorter | same | longer
    · simp only [List.filter_cons, shorter, shorter.ne, shorter.not_gt, decide_true, decide_false, if_true,
        Bool.false_eq_true, if_false, List.cons_append]
      rw [← tail]
    · have none := noneShorter same.ge
      simp only [List.filter_cons, same, Nat.lt_irrefl, decide_true, decide_false, if_true, Bool.false_eq_true,
        if_false, none, List.nil_append, List.cons_append] at tail ⊢
      rw [← tail]
    · have none := noneShorter longer.le
      have noneSame : rest.filter (fun entry => entry.2.length = length) = [] := by
        rw [List.filter_eq_nil_iff]
        intro entry member
        have := ordered.1 entry member
        simp only [decide_eq_true_eq]
        omega
      simp only [List.filter_cons, longer, longer.ne', longer.not_gt, decide_true, decide_false, if_true,
        Bool.false_eq_true, if_false, none, noneSame, List.nil_append] at tail ⊢
      rw [← tail]

end Canonical

namespace CodeTable

variable {α : Type} {t : CodeTable α} {entry : α × CodeWord}

def wordsOf (t : CodeTable α) (length : Nat) : List (α × CodeWord) :=
  t.codes.filter fun entry => entry.2.length = length

theorem mem_wordsOf {length : Nat} : entry ∈ t.wordsOf length ↔ entry ∈ t.codes ∧ entry.2.length = length := by
  simp [wordsOf]

theorem count_bucket (t : CodeTable α) (length : Nat) :
    (Canonical.bucket t.codes length).count = (t.wordsOf length).length := by
  simp only [Canonical.bucket, wordsOf, List.countP_eq_length_filter]

theorem offset_bucket (t : CodeTable α) (length : Nat) :
    (Canonical.bucket t.codes length).offset = (t.codes.filter fun entry => entry.2.length < length).length := by
  simp only [Canonical.bucket, List.countP_eq_length_filter]

theorem first_bucket (t : CodeTable α) (length : Nat) :
    (Canonical.bucket t.codes length).first = ((t.wordsOf length).head?.map (·.2.value)).getD 0 := by
  rw [Canonical.bucket, wordsOf, List.head?_filter]

theorem getElem?_offset (t : CodeTable α) {length index : Nat} (within : index < (t.wordsOf length).length) :
    t.codes[(Canonical.bucket t.codes length).offset + index]? = (t.wordsOf length)[index]? := by
  calc
    _ = (t.codes.filter (fun entry => entry.2.length < length) ++ (t.wordsOf length ++
        t.codes.filter fun entry => length < entry.2.length))[(Canonical.bucket t.codes length).offset + index]? :=
      congrArg (·[(Canonical.bucket t.codes length).offset + index]?) (Canonical.split_codes t.ordered_codes length)
    _ = (t.wordsOf length ++ t.codes.filter fun entry => length < entry.2.length)[index]? := by
      rw [t.offset_bucket, List.getElem?_append_right (Nat.le_add_right ..), Nat.add_sub_cancel_left]
    _ = _ := List.getElem?_append_left within

theorem adjoining_wordsOf (t : CodeTable α) (length : Nat) :
    ∃ position, Canonical.Adjoining position (t.wordsOf length) := by
  have adjoining := t.adjoining_codes
  rw [Canonical.split_codes t.ordered_codes length] at adjoining
  obtain ⟨position, adjoining⟩ := adjoining.append_right
  exact ⟨position, adjoining.append_left⟩

/-- The words of one length have consecutive values from the bucket's first value on. -/
theorem value_wordsOf {length index : Nat} (within : index < (t.wordsOf length).length) :
    (t.wordsOf length)[index].2.value.toNat = (Canonical.bucket t.codes length).first.toNat + index := by
  obtain ⟨position, adjoining⟩ := t.adjoining_wordsOf length
  have same : ∀ entry ∈ t.wordsOf length, entry.2.length = length := fun entry member => (mem_wordsOf.1 member).2
  have nonempty : 0 < (t.wordsOf length).length := Nat.zero_lt_of_lt within
  have first : (Canonical.bucket t.codes length).first = (t.wordsOf length)[0].2.value := by
    rw [first_bucket, List.head?_eq_getElem?, List.getElem?_eq_getElem nonempty]
    rfl
  have here := adjoining.getElem same within
  have start := adjoining.getElem same nonempty
  rw [CodeWord.lower, same _ (List.getElem_mem _)] at here start
  rw [Nat.zero_mul, Nat.add_zero] at start
  rw [← start, ← Nat.add_mul] at here
  rw [first]
  exact Nat.eq_of_mul_eq_mul_right (Nat.two_pow_pos _) here

theorem pick?_eq_some_iff {length : Nat} {value : UInt64} :
    t.pick? (Canonical.bucket t.codes length) value = some entry ↔
      entry ∈ t.codes ∧ entry.2.length = length ∧ entry.2.value = value := by
  rw [← and_assoc, ← mem_wordsOf, List.mem_iff_getElem, pick?, Bucket.index?, t.count_bucket]
  constructor
  · intro picked
    split at picked
    case isFalse => cases picked
    case isTrue inside =>
      obtain ⟨above, below⟩ := inside
      rw [Option.bind_some, t.getElem?_offset below, List.getElem?_eq_getElem below] at picked
      cases picked
      refine ⟨⟨_, below, rfl⟩, ?_⟩
      rw [← UInt64.toNat_inj, value_wordsOf below, UInt64.toNat_sub_of_le _ _ above]
      have := UInt64.le_iff_toNat_le.1 above
      omega
  · rintro ⟨⟨index, within, rfl⟩, rfl⟩
    have value := value_wordsOf within
    have above : (Canonical.bucket t.codes length).first ≤ (t.wordsOf length)[index].2.value := by
      rw [UInt64.le_iff_toNat_le, value]
      exact Nat.le_add_right ..
    have distance : ((t.wordsOf length)[index].2.value - (Canonical.bucket t.codes length).first).toNat = index := by
      rw [UInt64.toNat_sub_of_le _ _ above, value, Nat.add_sub_cancel_left]
    rw [distance, if_pos ⟨above, within⟩, Option.bind_some, t.getElem?_offset within,
      List.getElem?_eq_getElem within]

theorem toBits_eq_iff (member : entry ∈ t.codes) {bits : List Bool} :
    entry.2.toBits = bits ↔ entry.2.length = bits.length ∧ entry.2.value.toNat = Bits.toNat bits := by
  have spelled : Bits.toNat entry.2.toBits = entry.2.value.toNat := by
    rw [CodeWord.toBits, Bits.toNat_ofNat, Nat.mod_eq_of_lt (fits member)]
  constructor
  · rintro rfl
    exact ⟨(CodeWord.length_toBits _).symm, spelled.symm⟩
  · rintro ⟨length, value⟩
    exact Bits.toNat_inj (by rw [CodeWord.length_toBits, length]) (by rw [spelled, value])

theorem pick?_toNat_iff {bits : List Bool} (short : bits.length ≤ maximumCodeLength) :
    t.pick? (Canonical.bucket t.codes bits.length) (UInt64.ofNat (Bits.toNat bits)) = some entry ↔
      entry ∈ t.codes ∧ entry.2.toBits = bits := by
  have exact_ : (UInt64.ofNat (Bits.toNat bits)).toNat = Bits.toNat bits :=
    UInt64.toNat_ofNat_of_lt' ((Bits.toNat_lt bits).trans_le (Nat.pow_le_pow_right (by decide) short))
  rw [pick?_eq_some_iff]
  refine and_congr_right fun member => ?_
  rw [toBits_eq_iff member, ← UInt64.toNat_inj, exact_]

theorem pick?_eq_none {bits : List Bool} (short : bits.length ≤ maximumCodeLength)
    (unmatched : ∀ other ∈ t.codes, other.2.toBits ≠ bits) :
    t.pick? (Canonical.bucket t.codes bits.length) (UInt64.ofNat (Bits.toNat bits)) = none := by
  rw [Option.eq_none_iff_forall_ne_some]
  intro other picked
  obtain ⟨member, whole⟩ := (pick?_toNat_iff short).1 picked
  exact unmatched other member whole

section Longest

theorem getLast_codes (t : CodeTable α) : ∃ init last, t.codes = init ++ [last] := by
  have nonempty : t.codes ≠ [] := by
    intro none
    have := t.map_codes
    rw [none] at this
    exact t.realisable.nonempty this.symm
  exact ⟨_, _, (List.dropLast_append_getLast nonempty).symm⟩

theorem longest_eq {init : List (α × CodeWord)} {last : α × CodeWord} (ends : t.codes = init ++ [last]) :
    t.longest = last.2.length := by
  simp [longest, t.buckets_eq, Canonical.buckets, ends]

theorem length_le_longest (member : entry ∈ t.codes) : entry.2.length ≤ t.longest := by
  obtain ⟨init, last, ends⟩ := t.getLast_codes
  have ordered := t.ordered_codes
  rw [ends, List.pairwise_append] at ordered
  rw [ends, List.mem_append, List.mem_singleton] at member
  rw [longest_eq ends]
  rcases member with before | rfl
  · exact ordered.2.2 entry before last (List.mem_singleton.2 rfl)
  · exact le_refl _

theorem longest_le (t : CodeTable α) : t.longest ≤ maximumCodeLength := by
  obtain ⟨init, last, ends⟩ := t.getLast_codes
  rw [longest_eq ends]
  exact (length_range (t := t) (by rw [ends]; exact List.mem_append_right _ (List.mem_singleton.2 rfl))).2

theorem buckets_eq_map (t : CodeTable α) : t.buckets = (List.range' 1 t.longest).map (Canonical.bucket t.codes) := by
  obtain ⟨init, last, ends⟩ := t.getLast_codes
  rw [longest_eq ends, t.buckets_eq, Canonical.buckets, ends, List.getLast?_concat]
  rfl

end Longest

section Reading

variable {s : BitStore} {start count : Nat} {read : List Bool}

theorem decodeFrom_bit {bit : Bool} {later : List Bool} (next : s.rest = bit :: later) :
    t.decodeFrom start ((List.range' (read.length + 1) (count + 1)).map (Canonical.bucket t.codes))
      (UInt64.ofNat (Bits.toNat read)) s =
      match t.pick? (Canonical.bucket t.codes (read ++ [bit]).length) (UInt64.ofNat (Bits.toNat (read ++ [bit]))) with
      | some entry => .ok entry (s.advance 1)
      | none => t.decodeFrom start
          ((List.range' ((read ++ [bit]).length + 1) count).map (Canonical.bucket t.codes))
          (UInt64.ofNat (Bits.toNat (read ++ [bit]))) (s.advance 1) := by
  have one : BitStore.read 1 s = .ok (UInt64.ofNat (Bits.toNat [bit])) (s.advance 1) := by
    rw [BitStore.read_eq_ok ⟨le_refl 1, by decide⟩ (by simp [next]), next]
    rfl
  have value : 2 * UInt64.ofNat (Bits.toNat read) + UInt64.ofNat (Bits.toNat [bit]) =
      UInt64.ofNat (Bits.toNat (read ++ [bit])) := by
    rw [Bits.toNat_append_singleton, UInt64.ofNat_add, UInt64.ofNat_mul]
    cases bit <;> rfl
  rw [List.range'_succ, List.map_cons, List.length_append, List.length_singleton]
  cases picked : t.pick? (Canonical.bucket t.codes (read.length + 1)) (UInt64.ofNat (Bits.toNat (read ++ [bit]))) with
  | some entry => simp only [decodeFrom, bind, EStateM.bind, BitInput.read, one, value, picked]; rfl
  | none => simp only [decodeFrom, bind, EStateM.bind, BitInput.read, one, value, picked]

theorem decodeFrom_end {bucket : Bucket} {longer : List Bucket} {value : UInt64} (ended : s.rest = []) :
    t.decodeFrom start (bucket :: longer) value s = .error (.outOfBits 1 0) s := by
  have one : BitStore.read 1 s = .error (.outOfBits 1 0) s := by
    rw [BitStore.read_eq_error ⟨le_refl 1, by decide⟩ (by simp [ended]), ended]
    rfl
  simp only [decodeFrom, bind, EStateM.bind, BitInput.read, one]

/-- If a word begins the bits read and those to come, the decoder reads to its end and finds it: no bucket on the
way matches, for its word would begin this one. -/
theorem decodeFrom_eq_ok (member : entry ∈ t.codes) (begins : entry.2.toBits <+: read ++ s.rest)
    (more : read.length < entry.2.length) (enough : entry.2.length ≤ read.length + count) :
    t.decodeFrom start ((List.range' (read.length + 1) count).map (Canonical.bucket t.codes))
      (UInt64.ofNat (Bits.toNat read)) s = .ok entry (s.advance (entry.2.length - read.length)) := by
  induction count generalizing read s with
  | zero => omega
  | succ count ih =>
    have bound := begins.length_le
    rw [List.length_append, CodeWord.length_toBits] at bound
    cases next : s.rest with
    | nil =>
      rw [next, List.length_nil] at bound
      omega
    | cons bit later =>
      have size : (read ++ [bit]).length = read.length + 1 := by rw [List.length_append, List.length_singleton]
      have short : (read ++ [bit]).length ≤ maximumCodeLength := by
        have := (length_range member).2
        omega
      rw [next, List.append_cons] at begins
      rw [decodeFrom_bit next]
      by_cases last : entry.2.length = (read ++ [bit]).length
      · have sizes : entry.2.toBits.length = (read ++ [bit]).length := by rw [CodeWord.length_toBits, last]
        have whole : entry.2.toBits = read ++ [bit] :=
          (List.prefix_of_prefix_length_le begins (List.prefix_append ..) sizes.le).eq_of_length sizes
        rw [(pick?_toNat_iff short).2 ⟨member, whole⟩, last, size, Nat.add_sub_cancel_left]
      · have unmatched : ∀ other ∈ t.codes, other.2.toBits ≠ read ++ [bit] := by
          intro other otherMember whole
          have longer : other.2.toBits.length ≤ entry.2.toBits.length := by
            rw [whole, CodeWord.length_toBits]
            omega
          have inside := List.prefix_of_prefix_length_le (whole ▸ List.prefix_append ..) begins longer
          apply last
          rw [← eq_of_begins otherMember member inside, ← whole, CodeWord.length_toBits]
        have ahead : entry.2.toBits <+: (read ++ [bit]) ++ (s.advance 1).rest := by
          rwa [BitStore.rest_advance, next]
        rw [pick?_eq_none short unmatched]
        refine (ih ahead (by omega) (by omega)).trans ?_
        rw [BitStore.advance_advance, size, Nat.sub_add_eq, Nat.add_sub_cancel' (by omega)]

/-- If no word begins the bits read and those to come, the decoder reads on until it has no bucket or no bit left. -/
theorem decodeFrom_eq_error (none : ∀ entry ∈ t.codes, ¬entry.2.toBits <+: read ++ s.rest)
    (within : read.length + count ≤ maximumCodeLength) :
    t.decodeFrom start ((List.range' (read.length + 1) count).map (Canonical.bucket t.codes))
      (UInt64.ofNat (Bits.toNat read)) s =
      if count ≤ s.rest.length then .error (.unknownCode start) (s.advance count)
      else .error (.outOfBits 1 0) (s.advance s.rest.length) := by
  induction count generalizing read s with
  | zero => rfl
  | succ count ih =>
    cases next : s.rest with
    | nil =>
      rw [List.range'_succ, List.map_cons, decodeFrom_end next]
      rfl
    | cons bit later =>
      have size : (read ++ [bit]).length = read.length + 1 := by rw [List.length_append, List.length_singleton]
      have moved : (s.advance 1).rest = later := by
        rw [BitStore.rest_advance, next]
        rfl
      rw [next, List.append_cons] at none
      have unmatched : ∀ other ∈ t.codes, other.2.toBits ≠ read ++ [bit] := by
        intro other member whole
        exact none other member (whole ▸ List.prefix_append ..)
      have ahead : ∀ entry ∈ t.codes, ¬entry.2.toBits <+: (read ++ [bit]) ++ (s.advance 1).rest := by
        rwa [moved]
      rw [decodeFrom_bit next, pick?_eq_none (by omega) unmatched]
      refine (ih ahead (by omega)).trans ?_
      rw [moved, BitStore.advance_advance, BitStore.advance_advance, List.length_cons]
      simp only [Nat.add_le_add_iff_right, Nat.add_comm 1]

theorem decode_eq_ok (member : entry ∈ t.codes) (begins : entry.2.toBits <+: s.rest) :
    t.decode s = .ok entry (s.advance entry.2.length) := by
  have within := length_le_longest member
  have nonempty := (length_range member).1
  rw [decode, buckets_eq_map]
  have ahead : entry.2.toBits <+: [] ++ s.rest := begins
  exact decodeFrom_eq_ok member ahead nonempty (by simpa using within)

theorem decode_eq_error (none : ∀ entry ∈ t.codes, ¬entry.2.toBits <+: s.rest) :
    t.decode s = if t.longest ≤ s.rest.length then .error (.unknownCode s.cursor) (s.advance t.longest)
      else .error (.outOfBits 1 0) (s.advance s.rest.length) := by
  rw [decode, buckets_eq_map]
  have ahead : ∀ entry ∈ t.codes, ¬entry.2.toBits <+: [] ++ s.rest := none
  exact decodeFrom_eq_error ahead (by simpa using t.longest_le)

end Reading

section Lookup

variable [DecidableEq α]

def Unmatched (t : CodeTable α) (bits : List Bool) : Prop :=
  ∀ symbol word, t.codeOf symbol = some word → ¬word.toBits <+: bits

theorem unmatched_iff {bits : List Bool} : t.Unmatched bits ↔ ∀ entry ∈ t.codes, ¬entry.2.toBits <+: bits := by
  simp only [Unmatched, codeOf_eq_some_iff, Prod.forall]

theorem decode_cases (t : CodeTable α) (s : BitStore) :
    (∃ symbol word, t.codeOf symbol = some word ∧ word.toBits <+: s.rest ∧
      t.decode s = .ok (symbol, word) (s.advance word.length)) ∨
    (t.Unmatched s.rest ∧ t.longest ≤ s.rest.length ∧
      t.decode s = .error (.unknownCode s.cursor) (s.advance t.longest)) ∨
    (t.Unmatched s.rest ∧ s.rest.length < t.longest ∧
      t.decode s = .error (.outOfBits 1 0) (s.advance s.rest.length)) := by
  by_cases unmatched : t.Unmatched s.rest
  · have failed := decode_eq_error (unmatched_iff.1 unmatched)
    by_cases long : t.longest ≤ s.rest.length
    · rw [if_pos long] at failed
      exact .inr (.inl ⟨unmatched, long, failed⟩)
    · rw [if_neg long] at failed
      exact .inr (.inr ⟨unmatched, Nat.lt_of_not_le long, failed⟩)
  · simp only [Unmatched, not_forall, not_not] at unmatched
    obtain ⟨symbol, word, coded, begins⟩ := unmatched
    exact .inl ⟨symbol, word, coded, begins, decode_eq_ok (codeOf_eq_some_iff.1 coded) begins⟩

theorem symbol_unique {bits : List Bool} {symbol other : α} {word otherWord : CodeWord}
    (coded : t.codeOf symbol = some word) (otherCoded : t.codeOf other = some otherWord)
    (begins : word.toBits <+: bits) (otherBegins : otherWord.toBits <+: bits) : other = symbol := by
  rw [codeOf_eq_some_iff] at coded otherCoded
  rcases List.prefix_or_prefix_of_prefix begins otherBegins with inside | inside
  · exact (congrArg Prod.fst (eq_of_begins coded otherCoded inside)).symm
  · exact congrArg Prod.fst (eq_of_begins otherCoded coded inside)

variable {s : BitStore} {symbol : α} {word : CodeWord} {s' : BitStore}

theorem decode_ok_iff : t.decode s = .ok (symbol, word) s' ↔
    t.codeOf symbol = some word ∧ word.toBits <+: s.rest ∧ s' = s.advance word.length := by
  constructor
  · intro done
    rcases t.decode_cases s with ⟨_, _, coded, begins, result⟩ | ⟨_, _, result⟩ | ⟨_, _, result⟩ <;>
      rw [result] at done <;> cases done
    exact ⟨coded, begins, rfl⟩
  · rintro ⟨coded, begins, rfl⟩
    exact decode_eq_ok (codeOf_eq_some_iff.1 coded) begins

theorem decode_unknown_iff :
    (∃ s', t.decode s = .error (.unknownCode s.cursor) s') ↔ t.Unmatched s.rest ∧ t.longest ≤ s.rest.length := by
  rcases t.decode_cases s with ⟨symbol, word, coded, begins, result⟩ | ⟨unmatched, long, result⟩ |
    ⟨unmatched, short, result⟩
  · have matched : ¬t.Unmatched s.rest := fun unmatched => unmatched symbol word coded begins
    simp [result, matched]
  · simp [result, unmatched, long]
  · simp [result, short]

theorem decode_short_iff :
    (∃ s', t.decode s = .error (.outOfBits 1 0) s') ↔ t.Unmatched s.rest ∧ s.rest.length < t.longest := by
  rcases t.decode_cases s with ⟨symbol, word, coded, begins, result⟩ | ⟨unmatched, long, result⟩ |
    ⟨unmatched, short, result⟩
  · have matched : ¬t.Unmatched s.rest := fun unmatched => unmatched symbol word coded begins
    simp [result, matched]
  · simp [result, long]
  · simp [result, unmatched, short]

theorem decode_moves (ended : (∃ entry, t.decode s = .ok entry s') ∨ (∃ failure, t.decode s = .error failure s')) :
    ∃ count, s' = s.advance count := by
  rcases t.decode_cases s with ⟨_, _, _, _, result⟩ | ⟨_, _, result⟩ | ⟨_, _, result⟩ <;>
    rcases ended with ⟨_, same⟩ | ⟨_, same⟩ <;> rw [result] at same <;> cases same <;> exact ⟨_, rfl⟩

/-- Reading a word returns the one symbol whose word begins the bits ahead, and fails exactly if there is none: for
want of bits if they are fewer than the longest word has, else at a code that the table does not know. -/
theorem decode_iff_begins (t : CodeTable α) (s : BitStore) :
    (∀ symbol, (∃ word s', t.decode s = .ok (symbol, word) s') ↔
      ∃ word, t.codeOf symbol = some word ∧ word.toBits <+: s.rest) ∧
    (∀ symbol word s', t.decode s = .ok (symbol, word) s' →
      t.codeOf symbol = some word ∧ s' = s.advance word.length ∧
      ∀ other otherWord, t.codeOf other = some otherWord → otherWord.toBits <+: s.rest → other = symbol) ∧
    ((∃ s', t.decode s = .error (.unknownCode s.cursor) s') ↔
      t.Unmatched s.rest ∧ t.longest ≤ s.rest.length) ∧
    ((∃ s', t.decode s = .error (.outOfBits 1 0) s') ↔ t.Unmatched s.rest ∧ s.rest.length < t.longest) ∧
    (∀ s', (∃ entry, t.decode s = .ok entry s') ∨ (∃ failure, t.decode s = .error failure s') →
      s'.bytes = s.bytes ∧ s'.size = s.size) := by
  refine ⟨fun symbol => ?_, fun symbol word s' done => ?_, decode_unknown_iff, decode_short_iff, fun s' ended => ?_⟩
  · constructor
    · rintro ⟨word, s', done⟩
      obtain ⟨coded, begins, -⟩ := decode_ok_iff.1 done
      exact ⟨word, coded, begins⟩
    · rintro ⟨word, coded, begins⟩
      exact ⟨word, _, decode_ok_iff.2 ⟨coded, begins, rfl⟩⟩
  · obtain ⟨coded, begins, moved⟩ := decode_ok_iff.1 done
    exact ⟨coded, moved, fun other otherWord otherCoded => symbol_unique coded otherCoded begins⟩
  · obtain ⟨count, rfl⟩ := decode_moves ended
    exact ⟨rfl, rfl⟩

end Lookup

end CodeTable

end HuffmanStrings
