import Mathlib
import HuffmanStrings.Bits.Store
import HuffmanStrings.Proofs.Bits.Byte

/-!
A bit store is its list of bits and a position in it. Reading takes from the bits that follow the cursor and
changes none; writing replaces as many bits as it writes and lengthens the list at its end.
-/

namespace HuffmanStrings

namespace BitStore

def rest (s : BitStore) : List Bool :=
  s.toBits.drop s.cursor

def advance (s : BitStore) (count : Nat) : BitStore :=
  { s with cursor := s.cursor + count }

@[simp] theorem length_toBits (s : BitStore) : s.toBits.length = s.size := by
  simp [toBits, slice]

theorem getElem_toBits (s : BitStore) {index : Nat} (within : index < s.toBits.length) :
    s.toBits[index] = s.bitAt index := by
  simp [toBits, slice]

theorem rest_eq_slice (s : BitStore) : s.rest = s.slice s.cursor s.left := by
  simp only [rest, toBits, slice, left, ← List.map_drop, List.drop_range', Nat.zero_add, mul_one]

theorem length_rest (s : BitStore) : s.rest.length = s.left := by
  simp [rest, left]

@[simp] theorem toBits_advance (s : BitStore) (count : Nat) : (s.advance count).toBits = s.toBits := rfl

@[simp] theorem bytes_advance (s : BitStore) (count : Nat) : (s.advance count).bytes = s.bytes := rfl

@[simp] theorem size_advance (s : BitStore) (count : Nat) : (s.advance count).size = s.size := rfl

@[simp] theorem cursor_advance (s : BitStore) (count : Nat) : (s.advance count).cursor = s.cursor + count := rfl

theorem rest_advance (s : BitStore) (count : Nat) : (s.advance count).rest = s.rest.drop count := by
  simp only [rest, toBits_advance, cursor_advance, List.drop_drop]

theorem prefix_rest_advance {s : BitStore} {front back : List Bool} (ahead : front ++ back <+: s.rest) :
    back <+: (s.advance front.length).rest := by
  have dropped := ahead.drop front.length
  rwa [List.drop_left, ← rest_advance] at dropped

theorem advance_advance (s : BitStore) (first second : Nat) :
    (s.advance first).advance second = s.advance (first + second) := by
  simp only [advance, Nat.add_assoc]

section Shares

theorem slice_add (s : BitStore) (start front back : Nat) :
    s.slice start (front + back) = s.slice start front ++ s.slice (start + front) back := by
  simp only [slice, ← List.map_append, List.range'_append_1]

theorem slice_byte (s : BitStore) {start count : Nat} (within : start % 8 + count ≤ 8) :
    s.slice start count = (List.range' (start % 8) count).map (Bits.ofByte (s.bytes.getD (start / 8) 0)) := by
  apply List.ext_getElem
  · simp [slice]
  · intro index inside _
    have low : index < count := by simpa [slice] using inside
    have byte : (start + index) / 8 = start / 8 := by omega
    have place : (start + index) % 8 = start % 8 + index := by omega
    simp only [slice, bitAt, List.getElem_map, List.getElem_range', Nat.one_mul, byte, place]

theorem readFrom_eq_ofNat (s : BitStore) {remaining position : Nat} (before : List Bool) {value : UInt64}
    (room : before.length + remaining ≤ 64) (spelled : value = UInt64.ofNat (Bits.toNat before)) :
    readFrom s.bytes remaining position value =
      UInt64.ofNat (Bits.toNat (before ++ s.slice position remaining)) := by
  fun_induction readFrom s.bytes remaining position value generalizing before with
  | case1 => rw [spelled, slice, List.range'_zero, List.map_nil, List.append_nil]
  | case2 remaining position value more share chunk ih =>
    have few : share ≤ remaining := Nat.min_le_left ..
    have within : position % 8 + share ≤ 8 := by omega
    have size : (s.slice position share).length = share := by simp [slice]
    have joined := Bits.shiftLeft_or_extract (s.bytes.getD (position / 8) 0) (by omega : 0 < share) within
      (by omega : before.length + share ≤ 64)
    rw [← s.slice_byte within, ← spelled] at joined
    have shorter : (before ++ s.slice position share).length + (remaining - share) ≤ 64 := by
      rw [List.length_append, size]
      omega
    rw [ih _ shorter joined, List.append_assoc, ← slice_add, Nat.add_sub_cancel' few]

end Shares

theorem read_eq_ok {s : BitStore} {count : Nat} (valid : ValidCount count) (enough : count ≤ s.rest.length) :
    s.read count = .ok (UInt64.ofNat (Bits.toNat (s.rest.take count))) (s.advance count) := by
  rw [length_rest] at enough
  have field : s.slice s.cursor count = s.rest.take count := by
    rw [rest_eq_slice]
    simp only [slice, ← List.map_take, List.take_range'_of_length_ge enough]
  have number : readFrom s.bytes count s.cursor 0 = UInt64.ofNat (Bits.toNat (s.slice s.cursor count)) :=
    s.readFrom_eq_ofNat [] (by simpa using valid.2) rfl
  simp only [read, if_pos valid, if_neg (Nat.not_lt.2 enough), number, field, advance]

theorem read_eq_error {s : BitStore} {count : Nat} (valid : ValidCount count) (few : s.rest.length < count) :
    s.read count = .error (.outOfBits count s.rest.length) s := by
  rw [length_rest] at few ⊢
  simp only [read, if_pos valid, if_pos few]

section Signed

theorem toInt_shiftRight (value : Int64) {count : Nat} (small : count < 64) :
    (value >>> Int64.ofNat count).toInt = value.toInt / 2 ^ count := by
  have distance : ((Int64.ofNat count).toBitVec.smod 64).toNat = count := by
    have all : ∀ count < 64, ((Int64.ofNat count).toBitVec.smod 64).toNat = count := by decide
    exact all count small
  rw [← Int64.toInt_toBitVec, Int64.toBitVec_shiftRight, BitVec.sshiftRight_eq', BitVec.toInt_sshiftRight, distance,
    Int.shiftRight_eq_div_pow, Int64.toInt_toBitVec, Nat.cast_pow]
  rfl

/-- Shifted to the top of a word, the first bit of a field is the word's sign. -/
theorem toInt_shiftLeft {bits : List Bool} (valid : ValidCount bits.length) :
    (UInt64.ofNat (Bits.toNat bits) <<< UInt64.ofNat (64 - bits.length)).toInt64.toInt =
      Bits.toInt bits * 2 ^ (64 - bits.length) := by
  cases bits with
  | nil => exact absurd valid.1 (by decide)
  | cons sign rest =>
    have fits := Bits.toNat_lt (sign :: rest)
    have number := UInt64.toNat_ofNat_of_lt' (fits.trans_le (Nat.pow_le_pow_right (by decide) valid.2))
    have scale : 2 ^ rest.length * 2 ^ (64 - (sign :: rest).length) = 2 ^ 63 := by
      have short : rest.length < 64 := valid.2
      rw [← pow_add, List.length_cons]
      congr 1
      omega
    have room : Bits.toNat (sign :: rest) * 2 ^ (64 - (sign :: rest).length) < 2 ^ 64 := by
      have whole : 2 ^ (sign :: rest).length * 2 ^ (64 - (sign :: rest).length) = 2 ^ 64 := by
        rw [← pow_add, Nat.add_sub_cancel' valid.2]
      rw [← whole]
      exact Nat.mul_lt_mul_of_pos_right fits (Nat.two_pow_pos _)
    have low : Bits.toNat rest * 2 ^ (64 - (sign :: rest).length) < 2 ^ 63 := by
      rw [← scale]
      exact Nat.mul_lt_mul_of_pos_right (Bits.toNat_lt rest) (Nat.two_pow_pos _)
    have shifted : (UInt64.ofNat (Bits.toNat (sign :: rest)) <<< UInt64.ofNat (64 - (sign :: rest).length)).toNat =
        sign.toNat * 2 ^ 63 + Bits.toNat rest * 2 ^ (64 - (sign :: rest).length) := by
      have positive := valid.1
      rw [Bits.toNat_shiftLeft_ofNat (by omega) (number.symm ▸ room), number, Bits.toNat_cons, Nat.add_mul, Nat.mul_assoc,
        scale]
    have scaleInt : (2 : Int) ^ rest.length * 2 ^ (64 - (sign :: rest).length) = 2 ^ 63 := by exact_mod_cast scale
    rw [← Int64.toInt_toBitVec, UInt64.toBitVec_toInt64, BitVec.toInt_eq_toNat_cond, UInt64.toNat_toBitVec, shifted,
      Bits.toInt]
    -- The sign bit has come to the top of the word, so the word is below 2 ^ 63 just if the sign is not set.
    cases sign with
    | false =>
      rw [Bool.toNat_false, Nat.zero_mul, Nat.zero_add, if_pos (by omega)]
      simp
    | true =>
      rw [Bool.toNat_true, Nat.one_mul, if_neg (by omega), if_pos rfl, sub_mul, scaleInt]
      push_cast
      ring

theorem signed_eq_toInt {bits : List Bool} (valid : ValidCount bits.length) :
    signed bits.length (UInt64.ofNat (Bits.toNat bits)) = Bits.toInt bits := by
  have positive := valid.1
  rw [signed, toInt_shiftRight _ (by omega), toInt_shiftLeft valid, Int.mul_ediv_cancel _ (by positivity)]

end Signed

section Writing

variable {s : BitStore}

theorem Valid.cursor_byte (valid : s.Valid) : s.cursor / 8 ≤ s.bytes.size := by
  have := valid.cursor_le
  have := valid.size_bytes
  unfold byteCount at this
  omega

theorem Valid.bitAt_eq_false (valid : s.Valid) {index : Nat} (past : s.size ≤ index) : s.bitAt index = false := by
  by_cases within : index < 8 * s.bytes.size
  · exact valid.padding index past within
  · have none : s.bytes.size ≤ index / 8 := by omega
    simp [bitAt, Array.getD, Nat.not_lt.2 none, Bits.ofByte_zero]

private theorem getD_grown (bytes : Array UInt8) (position index : Nat) :
    (if position = bytes.size then bytes.push 0 else bytes)[index]?.getD 0 = bytes[index]?.getD 0 := by
  split
  · rw [Array.getElem?_push]
    split
    · simp_all
    · rfl
  · rfl

private theorem lt_size_grown {bytes : Array UInt8} {position : Nat} (within : position ≤ bytes.size) :
    position < (if position = bytes.size then bytes.push 0 else bytes).size := by
  split
  · simp only [Array.size_push]; omega
  · omega

theorem bitAt_put (valid : s.Valid) (bit : Bool) (index : Nat) :
    (s.put bit).bitAt index = if index = s.cursor then bit else s.bitAt index := by
  have position : index = s.cursor ↔ index / 8 = s.cursor / 8 ∧ index % 8 = s.cursor % 8 := by omega
  have grown := getD_grown s.bytes (s.cursor / 8) (index / 8)
  have reached := lt_size_grown valid.cursor_byte
  simp only [bitAt, put, change, Array.getD_eq_getD_getElem?, Array.getElem?_modify]
  by_cases same : s.cursor / 8 = index / 8
  · simp only [← same, position, true_and, if_true] at grown ⊢
    rw [Array.getElem?_eq_getElem reached, Option.getD_some] at grown
    rw [Array.getElem?_eq_getElem reached, Option.map_some, Option.getD_some,
      Bits.ofByte_setBit _ _ (Nat.mod_lt _ (by decide)) (Nat.mod_lt _ (by decide)), grown]
  · rw [if_neg same, grown, if_neg fun equal => same (position.1 equal).1.symm]

theorem Valid.put (valid : s.Valid) (bit : Bool) : (s.put bit).Valid where
  cursor_le := Nat.le_max_right ..
  size_bytes := by
    have := valid.cursor_le
    have := valid.size_bytes
    simp only [BitStore.put, change, byteCount, Array.size_modify] at *
    split
    · simp only [Array.size_push]; omega
    · omega
  padding index past _ := by
    have past : max s.size (s.cursor + 1) ≤ index := past
    rw [bitAt_put valid, if_neg (by omega), valid.bitAt_eq_false (by omega)]

theorem toBits_put (valid : s.Valid) (bit : Bool) :
    (s.put bit).toBits = s.toBits.take s.cursor ++ bit :: s.toBits.drop (s.cursor + 1) := by
  have := valid.cursor_le
  have size : (s.put bit).size = max s.size (s.cursor + 1) := rfl
  apply List.ext_getElem
  · simp only [length_toBits, size, List.length_append, List.length_take, List.length_cons, List.length_drop]
    omega
  · intro index within _
    rw [getElem_toBits, bitAt_put valid]
    rcases Nat.lt_trichotomy index s.cursor with before | same | after
    · rw [if_neg (by omega), List.getElem_append_left (by simp; omega), List.getElem_take, getElem_toBits]
    · subst same
      rw [if_pos rfl, List.getElem_append_right (by simp)]
      simp [Nat.min_eq_left this]
    · rw [length_toBits] at within
      have offset : index - min s.cursor s.size = (index - s.cursor - 1) + 1 := by omega
      rw [if_neg (by omega), List.getElem_append_right (by simp; omega)]
      simp only [List.length_take, length_toBits, offset, List.getElem_cons_succ, List.getElem_drop, getElem_toBits]
      congr 1
      omega

theorem Valid.putAll (valid : s.Valid) (bits : List Bool) : (s.putAll bits).Valid := by
  induction bits generalizing s with
  | nil => exact valid
  | cons bit bits ih => exact ih (valid.put bit)

@[simp] theorem cursor_putAll (s : BitStore) (bits : List Bool) :
    (s.putAll bits).cursor = s.cursor + bits.length := by
  induction bits generalizing s with
  | nil => rfl
  | cons bit bits ih =>
    have : (s.put bit).cursor = s.cursor + 1 := rfl
    rw [putAll, List.foldl_cons, ← putAll, ih, this, List.length_cons]
    omega

theorem putAll_append (s : BitStore) (front back : List Bool) :
    s.putAll (front ++ back) = (s.putAll front).putAll back := by
  simp only [putAll, List.foldl_append]

/-- Writing replaces the bits from the cursor on and leaves all others as they are. -/
theorem toBits_putAll (valid : s.Valid) (bits : List Bool) :
    (s.putAll bits).toBits = s.toBits.take s.cursor ++ bits ++ s.toBits.drop (s.cursor + bits.length) := by
  induction bits generalizing s with
  | nil => simp [putAll]
  | cons bit bits ih =>
    have moved : (s.put bit).cursor = s.cursor + 1 := rfl
    have before : (s.toBits.take s.cursor).length = s.cursor := by
      simpa using valid.cursor_le
    rw [putAll, List.foldl_cons, ← putAll, ih (valid.put bit), moved, toBits_put valid]
    rw [List.take_append, List.drop_append, before]
    simp only [Nat.add_sub_cancel_left, List.take_succ_cons, List.take_zero, List.take_take,
      Nat.min_eq_right (Nat.le_succ _), List.append_assoc, List.cons_append, List.nil_append, List.length_cons]
    congr 3
    have far : s.cursor + 1 + bits.length - s.cursor = bits.length + 1 := by omega
    rw [List.drop_eq_nil_of_le (by rw [before]; omega), far, List.drop_succ_cons, List.drop_drop, List.nil_append]
    congr 1
    omega

/-- Back where the writing began, the bits written come next, and behind them the store is as it was left. -/
theorem seek_putAll (valid : s.Valid) (bits : List Bool) :
    ∃ back, seek s.cursor (s.putAll bits) = .ok () back ∧ bits <+: back.rest ∧
      back.advance bits.length = s.putAll bits := by
  have before : (s.toBits.take s.cursor).length = s.cursor := by
    simpa using valid.cursor_le
  have within : ¬s.cursor > (s.putAll bits).size := by
    have inside := (valid.putAll bits).cursor_le
    rw [cursor_putAll] at inside
    omega
  have same : BitStore.toBits { s.putAll bits with cursor := s.cursor } = (s.putAll bits).toBits := rfl
  refine ⟨_, if_neg within, ?_, ?_⟩
  · rw [rest, same, toBits_putAll valid, List.append_assoc, List.drop_left' before]
    exact List.prefix_append ..
  · simp only [advance, ← s.cursor_putAll bits]

end Writing

theorem valid_empty : empty.Valid where
  cursor_le := Nat.le_refl 0
  size_bytes := rfl
  padding index _ within := absurd within (Nat.not_lt_zero index)

theorem toBits_putAll_empty (bits : List Bool) : (empty.putAll bits).toBits = bits := by
  rw [toBits_putAll valid_empty]
  simp [toBits, slice, empty]

section Shares

theorem change_change (s : BitStore) {first : Nat} (second : Nat) (f g : UInt8 → UInt8)
    (same : (s.cursor + first) / 8 = s.cursor / 8) :
    (s.change first f).change second g = s.change (first + second) (g ∘ f) := by
  have grown : s.cursor / 8 ≠ (if s.cursor / 8 = s.bytes.size then s.bytes.push 0 else s.bytes).size := by
    split
    · simp only [Array.size_push]; omega
    · assumption
  simp only [change, Array.size_modify, same, if_neg grown, Nat.add_assoc]
  congr 1
  · apply Array.ext
    · simp only [Array.size_modify]
    · intro index _ _
      simp only [Array.getElem_modify]
      split <;> rfl
  · omega

theorem putAll_eq_change (s : BitStore) {bits : List Bool} (nonempty : bits ≠ [])
    (within : s.cursor % 8 + bits.length ≤ 8) :
    s.putAll bits = s.change bits.length (Bits.setBits · (s.cursor % 8) bits) := by
  induction bits generalizing s with
  | nil => exact absurd rfl nonempty
  | cons bit rest ih =>
    cases rest with
    | nil => rfl
    | cons next rest =>
      have moved : (s.put bit).cursor = s.cursor + 1 := rfl
      rw [List.length_cons, List.length_cons] at within
      have place : (s.cursor + 1) % 8 = s.cursor % 8 + 1 := by omega
      have byte : (s.cursor + 1) / 8 = s.cursor / 8 := by omega
      have later := ih (s.put bit) (by simp) (by rw [moved, List.length_cons]; omega)
      rw [putAll, List.foldl_cons, ← putAll, later, moved, place, put, change_change _ _ _ _ byte, Nat.add_comm]
      rfl

theorem writeFrom_eq_putAll (value : UInt64) {remaining : Nat} (s : BitStore) (short : remaining ≤ 64) :
    writeFrom value remaining s = s.putAll (Bits.ofNat remaining value.toNat) := by
  fun_induction writeFrom value remaining s with
  | case1 => rfl
  | case2 remaining s more share chunk ih =>
    have positive : 0 < share := by omega
    have within : s.cursor % 8 + share ≤ 8 := by omega
    have split : remaining = share + (remaining - share) := by omega
    have bits : Bits.ofNat remaining value.toNat =
        Bits.ofNat share (value.toNat / 2 ^ (remaining - share)) ++ Bits.ofNat (remaining - share) value.toNat := by
      rw [← Bits.ofNat_add, ← split]
    have number : chunk.toNat = value.toNat / 2 ^ (remaining - share) % 2 ^ share :=
      Bits.toNat_chunk value (by omega) (by omega)
    have spliced : (Bits.splice · (s.cursor % 8) share chunk) =
        (Bits.setBits · (s.cursor % 8) (Bits.ofNat share (value.toNat / 2 ^ (remaining - share)))) := by
      funext byte
      rw [Bits.splice_eq_setBits byte chunk positive within (number ▸ Nat.mod_lt _ (Nat.two_pow_pos _)), number,
        Bits.ofNat_mod]
    have size := Bits.length_ofNat share (value.toNat / 2 ^ (remaining - share))
    rw [ih (by omega), bits, putAll_append, putAll_eq_change s _ (by rwa [size]), size, spliced]
    rw [← List.length_pos_iff, size]
    exact positive

end Shares

theorem write_eq_ok {s : BitStore} {value : UInt64} {count : Nat} (valid : ValidCount count) :
    write value count s = .ok () (s.putAll (Bits.ofNat count value.toNat)) := by
  simp only [write, if_pos valid, writeFrom_eq_putAll value s valid.2]

end BitStore

end HuffmanStrings
