import Mathlib
import HuffmanStrings.Bits.Store
import HuffmanStrings.Proofs.Bits.Store

/-!
Stores made of bytes: of all their bits, of the first so many, or of a frame that says how many. A store of the first
bits drops all others, also those in its last byte.
-/

namespace HuffmanStrings

namespace BitStore

section Making

variable {bytes : List UInt8} {size : Nat}

theorem toBits_eq_take {s : BitStore} (fits : s.size ≤ 8 * bytes.length)
    (same : ∀ index < s.size, s.bitAt index = Bits.ofByte (bytes.getD (index / 8) 0) (index % 8)) :
    s.toBits = (Bits.ofBytes bytes).take s.size := by
  apply List.ext_getElem
  · rw [length_toBits, List.length_take, Bits.length_ofBytes, Nat.min_eq_left fits]
  · intro index within _
    rw [getElem_toBits, List.getElem_take, Bits.getElem_ofBytes]
    rw [length_toBits] at within
    exact same index within

theorem valid_ofBytes (bytes : List UInt8) : (ofBytes bytes).Valid where
  cursor_le := Nat.zero_le _
  size_bytes := by
    simp only [ofBytes, byteCount, List.size_toArray]
    omega
  padding index past within := by
    simp only [ofBytes, List.size_toArray] at past within
    omega

theorem toBits_ofBytes (bytes : List UInt8) : (ofBytes bytes).toBits = Bits.ofBytes bytes := by
  have all : (Bits.ofBytes bytes).take (ofBytes bytes).size = Bits.ofBytes bytes :=
    List.take_of_length_le (Bits.length_ofBytes bytes).le
  have fits : (ofBytes bytes).size ≤ 8 * bytes.length := le_refl _
  rw [toBits_eq_take fits, all]
  intro index _
  simp [bitAt, ofBytes]

theorem length_packed (fits : size ≤ 8 * bytes.length) : (packed bytes size).length = byteCount size := by
  rw [packed, List.length_append, List.length_take, byteCount]
  split
  · simp only [List.length_nil]
    omega
  · simp only [List.length_map, List.length_take, List.length_drop]
    omega

theorem getD_packed (fits : size ≤ 8 * bytes.length) {index : Nat} (within : index < byteCount size) :
    (packed bytes size).getD index 0 =
      if index < size / 8 then bytes.getD index 0 else Bits.keep (bytes.getD index 0) (size % 8) := by
  unfold byteCount at within
  have front : (bytes.take (size / 8)).length = size / 8 := by
    rw [List.length_take]
    omega
  split
  case isTrue whole =>
    rw [packed, List.getD_append _ _ _ _ (by rwa [front])]
    simp [whole]
  case isFalse partial_ =>
    obtain rfl : index = size / 8 := by omega
    have odd : size % 8 ≠ 0 := by omega
    have inside : size / 8 < bytes.length := by omega
    rw [packed, List.getD_append_right _ _ _ _ (by rw [front]), front, Nat.sub_self, if_neg odd,
      List.drop_eq_getElem_cons inside, List.take_succ_cons, List.take_zero, List.map_cons, List.getD_cons_zero,
      List.getD_eq_getElem _ _ inside]

theorem bitAt_packed (fits : size ≤ 8 * bytes.length) {index : Nat} (within : index < 8 * byteCount size) :
    bitAt { bytes := (packed bytes size).toArray, size } index =
      (decide (index < size) && Bits.ofByte (bytes.getD (index / 8) 0) (index % 8)) := by
  have byte : index / 8 < byteCount size := by omega
  have get : (packed bytes size).toArray.getD (index / 8) 0 = (packed bytes size).getD (index / 8) 0 := by
    simp
  rw [bitAt, get, getD_packed fits byte]
  unfold byteCount at byte
  split
  case isTrue whole =>
    have inside : index < size := by omega
    simp [inside]
  case isFalse partial_ =>
    have place : index % 8 < size % 8 ↔ index < size := by omega
    rw [Bits.ofByte_keep _ (Nat.mod_lt _ (by decide)) (Nat.mod_lt _ (by decide)), decide_eq_decide.2 place]

theorem ofBytes?_eq_ok {s : BitStore} (made : ofBytes? bytes size = .ok s) :
    s.Valid ∧ s.cursor = 0 ∧ s.toBits = (Bits.ofBytes bytes).take size := by
  unfold ofBytes? at made
  split at made
  case isTrue => cases made
  case isFalse fits =>
    have fits : size ≤ 8 * bytes.length := Nat.le_of_not_lt fits
    have room : size ≤ 8 * byteCount size := by
      unfold byteCount
      omega
    cases made
    refine ⟨⟨Nat.zero_le _, length_packed fits, fun index past within => ?_⟩, rfl, toBits_eq_take fits ?_⟩
    · have total : (packed bytes size).toArray.size = byteCount size := length_packed fits
      rw [bitAt_packed fits (by rwa [total] at within)]
      simp only [Bool.and_eq_false_imp, decide_eq_true_eq]
      exact fun inside => absurd inside (Nat.not_lt.2 past)
    · intro index within
      have within : index < size := within
      rw [bitAt_packed fits (by omega), decide_eq_true within, Bool.true_and]

/-- The bytes of a store hold its bits, and zeros up to the next whole byte. -/
theorem Valid.ofBytes_toBytes {s : BitStore} (valid : s.Valid) :
    Bits.ofBytes s.toBytes = s.toBits ++ List.replicate ((8 - s.size % 8) % 8) false := by
  have bytes := valid.size_bytes
  unfold byteCount at bytes
  apply List.ext_getElem
  · rw [Bits.length_ofBytes, List.length_append, length_toBits, List.length_replicate, toBytes, Array.length_toList]
    omega
  · intro index within _
    have bit : (Bits.ofBytes s.toBytes)[index] = s.bitAt index := by
      rw [Bits.getElem_ofBytes]
      simp [bitAt, toBytes]
    rw [Bits.length_ofBytes, toBytes, Array.length_toList] at within
    rw [bit]
    by_cases inside : index < s.size
    · rw [List.getElem_append_left (by rwa [length_toBits]), getElem_toBits]
    · rw [List.getElem_append_right (by rw [length_toBits]; omega), List.getElem_replicate]
      exact valid.padding index (Nat.le_of_not_lt inside) within

theorem ofBytes?_toBytes {s : BitStore} (valid : s.Valid) (within : size ≤ s.size) :
    ∃ cut, ofBytes? s.toBytes size = .ok cut ∧ cut.cursor = 0 ∧ cut.toBits = s.toBits.take size := by
  have fits : s.size ≤ 8 * s.toBytes.length := by
    have bytes := valid.size_bytes
    unfold byteCount at bytes
    rw [toBytes, Array.length_toList]
    omega
  obtain ⟨cut, made⟩ : ∃ cut, ofBytes? s.toBytes size = .ok cut :=
    ⟨_, if_neg (Nat.not_lt.2 (within.trans fits))⟩
  obtain ⟨-, start, held⟩ := ofBytes?_eq_ok made
  have all : s.toBits = (Bits.ofBytes s.toBytes).take s.size := by
    rw [valid.ofBytes_toBytes, List.take_left' s.length_toBits]
  refine ⟨cut, made, start, ?_⟩
  rw [held, all, List.take_take, Nat.min_eq_left within]

end Making

/-- The bits of a valid store determine its bytes. -/
theorem Valid.toBytes_eq {s s' : BitStore} (valid : s.Valid) (valid' : s'.Valid) (bits : s.toBits = s'.toBits) :
    s.size = s'.size ∧ s.toBytes = s'.toBytes := by
  have size : s.size = s'.size := by rw [← length_toBits, bits, length_toBits]
  refine ⟨size, Bits.ofBytes_injective ?_⟩
  rw [valid.ofBytes_toBytes, valid'.ofBytes_toBytes, bits, size]

theorem Valid.ext {s s' : BitStore} (valid : s.Valid) (valid' : s'.Valid) (bits : s.toBits = s'.toBits)
    (cursor : s.cursor = s'.cursor) : s = s' := by
  obtain ⟨size, bytes⟩ := valid.toBytes_eq valid' bits
  obtain ⟨⟨bytes⟩, size, cursor⟩ := s
  obtain ⟨⟨bytes'⟩, size', cursor'⟩ := s'
  simp_all [toBytes]

section Framing

theorem length_bigEndian (count value : Nat) : (bigEndian count value).length = count := by
  induction count with
  | zero => rfl
  | succ count ih => rw [bigEndian, List.length_cons, ih]

theorem foldl_bigEndian (count value front : Nat) :
    (bigEndian count value).foldl (fun value byte => 256 * value + byte.toNat) front =
      front * 256 ^ count + value % 256 ^ count := by
  induction count generalizing front with
  | zero => simp [bigEndian, Nat.mod_one]
  | succ count ih =>
    have byte : (UInt8.ofNat (value >>> (8 * count))).toNat = value / 256 ^ count % 256 := by
      rw [UInt8.toNat_ofNat', Nat.shiftRight_eq_div_pow, Nat.pow_mul]
    rw [bigEndian, List.foldl_cons, ih, byte, Nat.mod_pow_succ]
    ring

theorem ofBigEndian_bigEndian (count value : Nat) : ofBigEndian (bigEndian count value) = value % 256 ^ count := by
  rw [ofBigEndian, foldl_bigEndian, Nat.zero_mul, Nat.zero_add]

theorem ofBigEndian_size {s : BitStore} (fits : s.size < 2 ^ 64) : ofBigEndian (s.frame.take 8) = s.size := by
  rw [frame, List.take_left' (length_bigEndian 8 s.size), ofBigEndian_bigEndian]
  exact Nat.mod_eq_of_lt fits

theorem Valid.length_frame {s : BitStore} (valid : s.Valid) : s.frame.length = 8 + byteCount s.size := by
  rw [frame, List.length_append, length_bigEndian, toBytes, Array.length_toList, valid.size_bytes]

theorem drop_frame (s : BitStore) : s.frame.drop 8 = s.toBytes :=
  List.drop_left' (length_bigEndian 8 s.size)

theorem Valid.ofFrame?_frame {s : BitStore} (valid : s.Valid) (fits : s.size < 2 ^ 64) :
    ofFrame? s.frame = .ok s.rewound := by
  have whole : ¬s.frame.length < 8 := by
    rw [valid.length_frame]
    omega
  obtain ⟨s', made, start, bits⟩ := ofBytes?_toBytes valid (le_refl s.size)
  have all : s.toBits.take s.size = s.toBits := List.take_of_length_le s.length_toBits.le
  have rewound : s.rewound.Valid := ⟨Nat.zero_le _, valid.size_bytes, valid.padding⟩
  rw [ofFrame?, if_neg whole, ofBigEndian_size fits, drop_frame, made,
    (ofBytes?_eq_ok made).1.ext rewound (bits.trans all) start]

theorem Valid.frame_eq_iff {s s' : BitStore} (valid : s.Valid) (valid' : s'.Valid) :
    s.frame = s'.frame ↔ s.toBits = s'.toBits := by
  constructor
  · intro same
    have length := congrArg List.length same
    rw [valid.length_frame, valid'.length_frame, byteCount, byteCount] at length
    have count := congrArg (fun framed => ofBigEndian (framed.take 8)) same
    simp only [frame, List.take_left' (length_bigEndian 8 _), ofBigEndian_bigEndian] at count
    have size : s.size = s'.size := by omega
    have bytes : s.toBytes = s'.toBytes := by rw [← drop_frame, same, drop_frame]
    have bits := valid.ofBytes_toBytes
    rw [bytes, valid'.ofBytes_toBytes, size] at bits
    exact (List.append_cancel_right bits).symm
  · intro same
    obtain ⟨size, bytes⟩ := valid.toBytes_eq valid' same
    rw [frame, frame, size, bytes]

end Framing

end BitStore

end HuffmanStrings
