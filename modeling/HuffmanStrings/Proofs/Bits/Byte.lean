import Mathlib
import HuffmanStrings.Bits.Basic
import HuffmanStrings.Proofs.Bits.Field

/-!
Bytes are their eight bits. Masks and shifts that read or replace several bits of a byte at once read or replace just
these bits.
-/

namespace HuffmanStrings.Bits

theorem ofByte_eq_getLsbD (byte : UInt8) (index : Nat) : ofByte byte index = byte.toBitVec.getLsbD (7 - index) := by
  rw [ofByte, ← UInt8.toNat_toBitVec, BitVec.testBit_toNat]

theorem ofByte_zero (index : Nat) : ofByte 0 index = false := by
  simp [ofByte]

theorem ofByte_or (byte other : UInt8) (index : Nat) :
    ofByte (byte ||| other) index = (ofByte byte index || ofByte other index) := by
  rw [ofByte_eq_getLsbD, UInt8.toBitVec_or, BitVec.getLsbD_or, ofByte_eq_getLsbD, ofByte_eq_getLsbD]

theorem byte_ext {byte other : UInt8} (same : ∀ index < 8, ofByte byte index = ofByte other index) : byte = other := by
  apply UInt8.eq_of_toBitVec_eq
  apply BitVec.eq_of_getLsbD_eq
  intro place within
  have here := same (7 - place) (by omega)
  rwa [ofByte_eq_getLsbD, ofByte_eq_getLsbD, Nat.sub_sub_self (Nat.le_of_lt_succ within)] at here

theorem ofByte_mask {index other : Nat} (low : index < 8) (otherLow : other < 8) :
    ofByte (mask index) other = decide (other = index) := by
  have all : ∀ index < 8, ∀ other < 8, ofByte (mask index) other = decide (other = index) := by decide
  exact all index low other otherLow

theorem ofByte_setBit (byte : UInt8) {index other : Nat} (bit : Bool) (low : index < 8) (otherLow : other < 8) :
    ofByte (setBit byte index bit) other = if other = index then bit else ofByte byte other := by
  have masked := ofByte_mask low otherLow
  rw [ofByte_eq_getLsbD] at masked
  cases bit with
  | true =>
    simp only [ofByte_eq_getLsbD, setBit, if_true, UInt8.toBitVec_or, BitVec.getLsbD_or, masked]
    by_cases same : other = index <;> simp [same]
  | false =>
    have within : 7 - other < 8 := by omega
    simp only [ofByte_eq_getLsbD, setBit, Bool.false_eq_true, if_false, UInt8.toBitVec_and, UInt8.toBitVec_not,
      BitVec.getLsbD_and, BitVec.getLsbD_not, masked, within]
    by_cases same : other = index <;> simp [same]

def setBits (byte : UInt8) : Nat → List Bool → UInt8
  | _, [] => byte
  | index, bit :: bits => setBits (setBit byte index bit) (index + 1) bits

theorem ofByte_setBits (byte : UInt8) {bits : List Bool} {index other : Nat} (within : index + bits.length ≤ 8)
    (low : other < 8) :
    ofByte (setBits byte index bits) other =
      if index ≤ other then bits.getD (other - index) (ofByte byte other) else ofByte byte other := by
  induction bits generalizing byte index with
  | nil => simp [setBits]
  | cons bit bits ih =>
    rw [List.length_cons] at within
    rw [setBits, ih _ (by omega), ofByte_setBit byte bit (by omega) low]
    rcases Nat.lt_trichotomy other index with before | same | after
    · rw [if_neg (by omega), if_neg (by omega), if_neg (by omega)]
    · subst same
      rw [if_neg (by omega), if_pos rfl, if_pos (le_refl _), Nat.sub_self, List.getD_cons_zero]
    · obtain ⟨distance, rfl⟩ := Nat.exists_eq_add_of_lt after
      rw [if_pos (by omega), if_neg (by omega), if_pos (by omega),
        show index + distance + 1 - (index + 1) = distance by omega,
        show index + distance + 1 - index = distance + 1 by omega, List.getD_cons_succ]

theorem ofByte_keep (byte : UInt8) {count index : Nat} (low : index < 8) (within : count < 8) :
    ofByte (keep byte count) index = (decide (index < count) && ofByte byte index) := by
  have masked : ∀ count < 8, ∀ index < 8, ofByte (~~~(0xFF >>> UInt8.ofNat count)) index = decide (index < count) := by
    decide
  have here := masked count within index low
  rw [ofByte_eq_getLsbD] at here
  rw [keep, ofByte_eq_getLsbD, UInt8.toBitVec_and, BitVec.getLsbD_and, here, ofByte_eq_getLsbD, Bool.and_comm]

section Several

variable {index count : Nat}

theorem toNat_lowMask (small : count < 64) : (lowMask count).toNat = 2 ^ count - 1 := by
  have scale : (1 <<< UInt64.ofNat count : UInt64).toNat = 2 ^ count := by
    have room : (1 : UInt64).toNat * 2 ^ count < 2 ^ 64 := by
      simpa using Nat.pow_lt_pow_right (by decide : 1 < 2) small
    rw [toNat_shiftLeft_ofNat small room, UInt64.toNat_one, Nat.one_mul]
  have positive := Nat.two_pow_pos count
  rw [lowMask, if_neg (Nat.not_le.2 small), UInt64.toNat_sub_of_le, scale, UInt64.toNat_one]
  rw [UInt64.le_iff_toNat_le, scale, UInt64.toNat_one]
  exact positive

theorem toNat_and_lowMask (word : UInt64) (small : count < 64) :
    (word &&& lowMask count).toNat = word.toNat % 2 ^ count := by
  rw [UInt64.toNat_and, toNat_lowMask small, Nat.and_two_pow_sub_one_eq_mod]

/-- The share of a word that goes into one byte, `later` bits of the word being left for the bytes behind it. -/
theorem toNat_chunk (word : UInt64) {later : Nat} (small : count ≤ 8) (low : later < 64) :
    ((word >>> UInt64.ofNat later) &&& lowMask count).toUInt8.toNat = word.toNat / 2 ^ later % 2 ^ count := by
  have room : 2 ^ count ≤ 2 ^ 8 := Nat.pow_le_pow_right (by decide) small
  have fits := Nat.mod_lt (word.toNat / 2 ^ later) (Nat.two_pow_pos count)
  rw [UInt64.toNat_toUInt8, toNat_and_lowMask _ (by omega), toNat_shiftRight_ofNat _ low,
    Nat.mod_eq_of_lt (fits.trans_le room)]

theorem toNat_extract (byte : UInt8) (positive : 0 < count) (within : index + count ≤ 8) :
    (extract byte index count).toNat = toNat ((List.range' index count).map (ofByte byte)) := by
  have bits : (List.range' index count).map (ofByte byte) = ofNat count (byte.toNat / 2 ^ (8 - index - count)) := by
    apply List.ext_getElem
    · simp [length_ofNat]
    · intro place inside _
      rw [List.length_map, List.length_range'] at inside
      have same : 7 - (index + place) = 8 - index - count + (count - 1 - place) := by omega
      simp only [List.getElem_map, List.getElem_range', Nat.one_mul, ofByte, getElem_ofNat, Nat.testBit_div_two_pow,
        same, Nat.add_comm]
  rw [bits, toNat_ofNat, extract, toNat_and_lowMask _ (by omega), toNat_shiftRight_ofNat _ (by omega),
    UInt8.toNat_toUInt64]

theorem getLsbD_lowMask (small : count < 64) {place : Nat} (low : place < 8) :
    (lowMask count).toUInt8.toBitVec.getLsbD place = decide (place < count) := by
  rw [← BitVec.testBit_toNat, UInt8.toNat_toBitVec, UInt64.toNat_toUInt8, toNat_lowMask small,
    Nat.testBit_mod_two_pow, Nat.testBit_two_pow_sub_one, decide_eq_true low, Bool.true_and]

theorem ofByte_splice (byte chunk : UInt8) {other : Nat} (positive : 0 < count) (within : index + count ≤ 8)
    (low : other < 8) (fits : chunk.toNat < 2 ^ count) :
    ofByte (splice byte index count chunk) other =
      if index ≤ other ∧ other < index + count then chunk.toNat.testBit (index + count - 1 - other) else ofByte byte other := by
  have shift : (UInt8.ofNat (8 - index - count)).toBitVec.toNat % BitVec.toNat (8 : BitVec 8) = 8 - index - count := by
    rw [UInt8.toNat_toBitVec, UInt8.toNat_ofNat_of_lt' (by simp only [UInt8.size]; omega)]
    exact Nat.mod_eq_of_lt (by simp; omega)
  have inside : 7 - other < 8 := by omega
  rw [ofByte_eq_getLsbD, ofByte_eq_getLsbD, splice]
  simp only [UInt8.toBitVec_or, UInt8.toBitVec_and, UInt8.toBitVec_not, UInt8.toBitVec_shiftLeft, BitVec.getLsbD_or,
    BitVec.getLsbD_and, BitVec.getLsbD_not, BitVec.shiftLeft_eq', BitVec.getLsbD_shiftLeft, BitVec.toNat_umod, shift,
    inside, decide_true, Bool.true_and]
  by_cases behind : index + count ≤ other
  · have under : 7 - other < 8 - index - count := by omega
    rw [if_neg (by omega)]
    simp [under]
  · have offset : ¬7 - other < 8 - index - count := by omega
    have place : 7 - other - (8 - index - count) = index + count - 1 - other := by omega
    have here : chunk.toBitVec.getLsbD (index + count - 1 - other) = chunk.toNat.testBit (index + count - 1 - other) := by
      rw [← BitVec.testBit_toNat, UInt8.toNat_toBitVec]
    rw [place, getLsbD_lowMask (by omega) (by omega), here]
    -- Before the field the shifted chunk has no bits: the chunk is too short for them.
    by_cases before : other < index
    · have above : count ≤ index + count - 1 - other := by omega
      have clear : chunk.toNat.testBit (index + count - 1 - other) = false :=
        Nat.testBit_lt_two_pow (fits.trans_le (Nat.pow_le_pow_right (by decide) above))
      rw [if_neg (by omega)]
      simp [offset, Nat.not_lt.2 above, clear]
    · have below : index + count - 1 - other < count := by omega
      rw [if_pos (by omega)]
      simp [offset, below]

theorem splice_eq_setBits (byte chunk : UInt8) (positive : 0 < count) (within : index + count ≤ 8)
    (fits : chunk.toNat < 2 ^ count) : splice byte index count chunk = setBits byte index (ofNat count chunk.toNat) := by
  have size := length_ofNat count chunk.toNat
  apply byte_ext
  intro other low
  rw [ofByte_splice byte chunk positive within low fits, ofByte_setBits _ (by rwa [size]) low]
  by_cases after : index ≤ other
  · rw [if_pos after]
    by_cases inside : other < index + count
    · have listed : other - index < (ofNat count chunk.toNat).length := by omega
      have place : count - 1 - (other - index) = index + count - 1 - other := by omega
      rw [if_pos ⟨after, inside⟩, List.getD_eq_getElem _ _ listed, getElem_ofNat, place]
    · rw [if_neg (fun both => inside both.2), List.getD_eq_default _ _ (by omega)]
  · rw [if_neg after, if_neg (fun both => after both.1)]

theorem or_shiftLeft_eq_setBits {byte chunk : UInt8} (positive : 0 < count) (within : index + count ≤ 8)
    (fits : chunk.toNat < 2 ^ count) (clear : ∀ other, index ≤ other → other < 8 → ofByte byte other = false) :
    byte ||| (chunk <<< UInt8.ofNat (8 - index - count)) = setBits byte index (ofNat count chunk.toNat) := by
  have shifted : chunk <<< UInt8.ofNat (8 - index - count) = splice 0 index count chunk := by
    simp [splice]
  rw [← splice_eq_setBits byte chunk positive within fits]
  apply byte_ext
  intro other low
  rw [shifted, ofByte_or, ofByte_splice _ _ positive within low fits, ofByte_splice _ _ positive within low fits,
    ofByte_zero]
  by_cases inside : index ≤ other ∧ other < index + count
  · rw [if_pos inside, if_pos inside, clear other inside.1 low, Bool.false_or]
  · rw [if_neg inside, if_neg inside, Bool.or_false]

end Several

section Whole

theorem ofNat_eight (byte : UInt8) : ofNat 8 byte.toNat = (List.range' 0 8).map (ofByte byte) :=
  rfl

theorem take_drop_ofNat_eight (byte : UInt8) {index count : Nat} (within : index + count ≤ 8) :
    ((ofNat 8 byte.toNat).drop index).take count = (List.range' index count).map (ofByte byte) := by
  rw [ofNat_eight, ← List.map_drop, ← List.map_take, List.drop_range', List.take_range'_of_length_ge (by omega)]
  simp

theorem take_setBits (byte : UInt8) {bits : List Bool} {index : Nat} (within : index + bits.length ≤ 8) :
    (ofNat 8 (setBits byte index bits).toNat).take (index + bits.length) =
      (ofNat 8 byte.toNat).take index ++ bits := by
  apply List.ext_getElem
  · simp only [List.length_take, List.length_append, length_ofNat]
    omega
  · intro other inside _
    simp only [List.length_take, length_ofNat] at inside
    have low : other < 8 := by omega
    simp only [ofNat_eight, List.getElem_take, List.getElem_map, List.getElem_range', Nat.one_mul, Nat.zero_add]
    rw [ofByte_setBits byte within low, List.getElem_append]
    simp only [List.length_take, List.length_map, List.length_range', List.getElem_take, List.getElem_map,
      List.getElem_range', Nat.one_mul, Nat.zero_add, Nat.min_eq_left (by omega : index ≤ 8)]
    by_cases before : other < index
    · rw [if_neg (by omega), dif_pos before]
    · rw [if_pos (by omega), dif_neg before, List.getD_eq_getElem]

theorem shiftLeft_or_extract {before : List Bool} (byte : UInt8) {index count : Nat} (positive : 0 < count)
    (within : index + count ≤ 8) (room : before.length + count ≤ 64) :
    (UInt64.ofNat (toNat before) <<< UInt64.ofNat count) ||| extract byte index count =
      UInt64.ofNat (toNat (before ++ (List.range' index count).map (ofByte byte))) := by
  have spelled := toNat_extract byte positive within
  have size : ((List.range' index count).map (ofByte byte)).length = count := by simp
  have low := toNat_lt ((List.range' index count).map (ofByte byte))
  have high := toNat_lt before
  have all := toNat_lt (before ++ (List.range' index count).map (ofByte byte))
  rw [List.length_append, size] at all
  rw [size] at low
  have bound : 2 ^ (before.length + count) ≤ 2 ^ 64 := Nat.pow_le_pow_right (by decide) room
  have number : (UInt64.ofNat (toNat before)).toNat = toNat before :=
    UInt64.toNat_ofNat_of_lt' (high.trans_le (Nat.pow_le_pow_right (by decide) (by omega : before.length ≤ 64)))
  have fits : ((UInt64.ofNat (toNat before)).toNat + 1) * 2 ^ count ≤ 2 ^ 64 := by
    rw [number]
    exact (Nat.mul_le_mul_right _ high).trans (by rwa [← pow_add])
  apply UInt64.toNat_inj.1
  rw [toNat_shiftLeft_or (by omega) fits (spelled ▸ low), spelled, number, UInt64.toNat_ofNat_of_lt' (all.trans_le bound),
    toNat_append, size]

theorem drop_ofNat_eight {byte : UInt8} {index : Nat}
    (clear : ∀ other, index ≤ other → other < 8 → ofByte byte other = false) :
    (ofNat 8 byte.toNat).drop index = List.replicate (8 - index) false := by
  apply List.ext_getElem
  · simp [length_ofNat]
  · intro other inside _
    rw [List.length_drop, length_ofNat] at inside
    simp only [ofNat_eight, List.getElem_drop, List.getElem_map, List.getElem_range', Nat.one_mul, Nat.zero_add,
      List.getElem_replicate]
    exact clear _ (Nat.le_add_right ..) (by omega)

end Whole

section Lists

def ofBytes (bytes : List UInt8) : List Bool :=
  bytes.flatMap fun byte => ofNat 8 byte.toNat

theorem length_ofBytes (bytes : List UInt8) : (ofBytes bytes).length = 8 * bytes.length := by
  induction bytes with
  | nil => rfl
  | cons byte bytes ih =>
    rw [ofBytes] at ih
    rw [ofBytes, List.flatMap_cons, List.length_append, length_ofNat, ih, List.length_cons]
    ring

theorem ofBytes_append (bytes others : List UInt8) : ofBytes (bytes ++ others) = ofBytes bytes ++ ofBytes others :=
  List.flatMap_append

theorem ofNat_eight_injective {byte other : UInt8} (same : ofNat 8 byte.toNat = ofNat 8 other.toNat) : byte = other := by
  rw [ofNat_eight, ofNat_eight] at same
  apply byte_ext
  intro index low
  have member : index ∈ List.range' 0 8 := by simpa [List.mem_range'_1] using low
  exact List.map_inj_left.1 same index member

theorem ofBytes_injective {bytes others : List UInt8} (same : ofBytes bytes = ofBytes others) : bytes = others := by
  have length := congrArg List.length same
  rw [length_ofBytes, length_ofBytes] at length
  induction bytes generalizing others with
  | nil =>
    cases others with
    | nil => rfl
    | cons other others => simp at length
  | cons byte bytes ih =>
    cases others with
    | nil => simp at length
    | cons other others =>
      have sizes : (ofNat 8 byte.toNat).length = (ofNat 8 other.toNat).length := by
        rw [length_ofNat, length_ofNat]
      obtain ⟨first, rest⟩ := List.append_inj (same : ofNat 8 byte.toNat ++ ofBytes bytes = ofNat 8 other.toNat ++ _) sizes
      rw [ofNat_eight_injective first, ih rest (by simpa using length)]

theorem getElem_ofBytes {bytes : List UInt8} {index : Nat} (within : index < (ofBytes bytes).length) :
    (ofBytes bytes)[index] = ofByte (bytes.getD (index / 8) 0) (index % 8) := by
  induction bytes generalizing index with
  | nil => exact absurd within (Nat.not_lt_zero index)
  | cons byte bytes ih =>
    have split : ofBytes (byte :: bytes) = ofNat 8 byte.toNat ++ ofBytes bytes := List.flatMap_cons ..
    have size := length_ofNat 8 byte.toNat
    simp only [split] at within ⊢
    by_cases first : index < 8
    · rw [List.getElem_append_left (by rwa [size]), getElem_ofNat, Nat.div_eq_of_lt first, Nat.mod_eq_of_lt first]
      rfl
    · have later : index / 8 = (index - 8) / 8 + 1 := by omega
      have place : index % 8 = (index - 8) % 8 := by omega
      rw [List.getElem_append_right (by rwa [size, ← Nat.not_lt])]
      simp only [size]
      rw [ih, later, place, List.getD_cons_succ]

end Lists

end HuffmanStrings.Bits
