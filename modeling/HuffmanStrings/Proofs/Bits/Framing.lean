import Mathlib
import HuffmanStrings.Proofs.Bits.Tape

/-!
Frames as an exact code for bit stores. A frame is accepted if and only if its bytes hold as many bits as it announces,
and only these bits count: bytes behind them, and the rest of the last byte, are dropped. So of all frames that make one
store one is the shortest, and it is the frame of that store.
-/

namespace HuffmanStrings

section BigEndian

open BitStore (ofBigEndian_bigEndian)

theorem bigEndian_succ (count value : Nat) :
    bigEndian (count + 1) value = bigEndian count (value / 256) ++ [UInt8.ofNat value] := by
  induction count with
  | zero => simp [bigEndian]
  | succ count ih =>
    have shift : value >>> (8 * (count + 1)) = (value / 256) >>> (8 * count) := by
      rw [Nat.shiftRight_eq_div_pow, Nat.shiftRight_eq_div_pow, Nat.div_div_eq_div_mul, Nat.mul_succ, Nat.pow_add,
        Nat.mul_comm]
    rw [bigEndian, ih, shift, bigEndian, List.cons_append]

theorem ofBigEndian_concat (bytes : List UInt8) (byte : UInt8) :
    ofBigEndian (bytes ++ [byte]) = 256 * ofBigEndian bytes + byte.toNat := by
  rw [ofBigEndian, List.foldl_append]
  rfl

theorem bigEndian_ofBigEndian (bytes : List UInt8) : bigEndian bytes.length (ofBigEndian bytes) = bytes := by
  induction bytes using List.reverseRecOn with
  | nil => rfl
  | append_singleton bytes byte ih =>
    have small := byte.toNat_lt
    have front : (256 * ofBigEndian bytes + byte.toNat) / 256 = ofBigEndian bytes := by omega
    have last : UInt8.ofNat (256 * ofBigEndian bytes + byte.toNat) = byte := by
      apply UInt8.toNat_inj.1
      rw [UInt8.toNat_ofNat']
      omega
    rw [List.length_append, List.length_singleton, bigEndian_succ, ofBigEndian_concat, front, last, ih]

theorem ofBigEndian_lt (bytes : List UInt8) : ofBigEndian bytes < 256 ^ bytes.length := by
  have reduced := ofBigEndian_bigEndian bytes.length (ofBigEndian bytes)
  rw [bigEndian_ofBigEndian] at reduced
  exact reduced ▸ Nat.mod_lt _ (by positivity)

end BigEndian

namespace BitStore

def announced (framed : List UInt8) : Nat :=
  ofBigEndian (framed.take 8)

def payload (framed : List UInt8) : List Bool :=
  Bits.ofBytes (framed.drop 8)

/-- Stores as they come about: made in one of the ways to make one, and acted on, with success or without. -/
inductive Reachable : BitStore → Prop
  | made {s : BitStore} {bits : List Bool} : Made s bits → Reachable s
  | done {s s' : BitStore} {action : StoreAction} {reply : StoreReply} :
      Reachable s → action.onStore s = .ok reply s' → Reachable s'
  | failed {s s' : BitStore} {action : StoreAction} {failure : Failure} :
      Reachable s → action.onStore s = .error failure s' → Reachable s'

variable {s : BitStore} {framed other : List UInt8}

theorem Reachable.exists_represents (reachable : s.Reachable) : ∃ t, s.Represents t := by
  induction reachable with
  | made made => exact ⟨_, represents_of_made made⟩
  | @done s s' action reply _ acted ih =>
    obtain ⟨t, represents⟩ := ih
    have agree := represents.perform action
    rw [acted] at agree
    generalize t.perform action = performed at agree
    cases agree with
    | succeed kept => exact ⟨_, kept⟩
  | @failed s s' action failure _ acted ih =>
    obtain ⟨t, represents⟩ := ih
    have agree := represents.perform action
    rw [acted] at agree
    generalize t.perform action = performed at agree
    cases agree with
    | fail => exact ⟨t, represents⟩

theorem Reachable.valid (reachable : s.Reachable) : s.Valid := by
  obtain ⟨_, represents⟩ := reachable.exists_represents
  exact represents.valid

theorem length_payload (framed : List UInt8) : (payload framed).length = 8 * (framed.length - 8) := by
  rw [payload, Bits.length_ofBytes, List.length_drop]

theorem ofFrame?_eq (whole : 8 ≤ framed.length) : ofFrame? framed = ofBytes? (framed.drop 8) (announced framed) :=
  if_neg (Nat.not_lt.2 whole)

theorem exists_ofFrame?_iff :
    (∃ s, ofFrame? framed = .ok s) ↔ 8 ≤ framed.length ∧ announced framed ≤ 8 * (framed.length - 8) := by
  constructor
  · rintro ⟨s, made⟩
    unfold ofFrame? at made
    split at made
    case isTrue => cases made
    case isFalse whole =>
      unfold ofBytes? at made
      split at made
      case isTrue => cases made
      case isFalse fits =>
        rw [List.length_drop] at fits
        exact ⟨Nat.le_of_not_lt whole, Nat.le_of_not_lt fits⟩
  · rintro ⟨whole, fits⟩
    rw [← List.length_drop] at fits
    exact ⟨_, (ofFrame?_eq whole).trans (if_neg (Nat.not_lt.2 fits))⟩

theorem ofFrame?_eq_ok (made : ofFrame? framed = .ok s) :
    s.Valid ∧ s.cursor = 0 ∧ s.size = announced framed ∧ s.toBits = (payload framed).take (announced framed) := by
  obtain ⟨whole, fits⟩ := exists_ofFrame?_iff.1 ⟨s, made⟩
  rw [ofFrame?_eq whole] at made
  obtain ⟨valid, start, bits⟩ := ofBytes?_eq_ok made
  refine ⟨valid, start, ?_, bits⟩
  rw [← s.length_toBits, bits, List.length_take]
  exact Nat.min_eq_left (fits.trans_eq (length_payload framed).symm)

/-- Only the announced bits count: the frames of one store differ in what follows them. -/
theorem ofFrame?_eq_ok_iff (valid : s.Valid) (start : s.cursor = 0) :
    ofFrame? framed = .ok s ↔ 8 ≤ framed.length ∧ announced framed = s.size ∧ s.toBits <+: payload framed := by
  constructor
  · intro made
    obtain ⟨-, -, size, bits⟩ := ofFrame?_eq_ok made
    exact ⟨(exists_ofFrame?_iff.1 ⟨s, made⟩).1, size.symm, bits ▸ List.take_prefix ..⟩
  · rintro ⟨whole, size, begins⟩
    have fits := begins.length_le
    rw [length_toBits, length_payload, ← size] at fits
    obtain ⟨made, accepted⟩ := exists_ofFrame?_iff.2 ⟨whole, fits⟩
    obtain ⟨madeValid, madeStart, -, madeBits⟩ := ofFrame?_eq_ok accepted
    have bits : made.toBits = s.toBits := by
      rw [madeBits, size, List.prefix_iff_eq_take.1 begins, length_toBits]
    rw [accepted, madeValid.ext valid bits (madeStart.trans start.symm)]

theorem Valid.payload_frame (valid : s.Valid) :
    payload s.frame = s.toBits ++ List.replicate ((8 - s.size % 8) % 8) false := by
  rw [payload, drop_frame, valid.ofBytes_toBytes]

theorem announced_lt (framed : List UInt8) : announced framed < 2 ^ 64 := by
  have few : (framed.take 8).length ≤ 8 := List.length_take_le ..
  calc
    announced framed < 256 ^ (framed.take 8).length := ofBigEndian_lt _
    _ ≤ 256 ^ 8 := Nat.pow_le_pow_right (by decide) few
    _ = 2 ^ 64 := by decide

theorem take_frame (made : ofFrame? framed = .ok s) : s.frame.take 8 = framed.take 8 := by
  obtain ⟨whole, -⟩ := exists_ofFrame?_iff.1 ⟨s, made⟩
  obtain ⟨-, -, size, -⟩ := ofFrame?_eq_ok made
  have spelled := bigEndian_ofBigEndian (framed.take 8)
  rw [List.length_take_of_le whole] at spelled
  rw [frame, List.take_left' (length_bigEndian 8 s.size), size, announced, spelled]

theorem Valid.exists_ofFrame?_frame (valid : s.Valid) (fits : s.size < 2 ^ 64) :
    ∃ s', ofFrame? s.frame = .ok s' ∧ s'.bytes = s.bytes ∧ s'.size = s.size ∧ s'.cursor = 0 :=
  ⟨s.rewound, valid.ofFrame?_frame fits, rfl, rfl, rfl⟩

theorem Valid.length_frame_le (valid : s.Valid) (accepted : ∃ s', ofFrame? other = .ok s')
    (same : announced other = s.size) : s.frame.length ≤ other.length := by
  obtain ⟨whole, fits⟩ := exists_ofFrame?_iff.1 accepted
  rw [valid.length_frame, byteCount]
  omega

/-- Framing is exact. Every store, of a size that 64 bits can hold, comes back from its frame with its bytes and its
size, at its first bit. Any bytes are accepted exactly if they announce no more bits than they hold; the store that they
make is well formed and holds the announced bits only, so bytes with other bits behind these make the same store. Its own
frame has the same number, then the bits, and zeros up to the next whole byte; no frame with that number is shorter, and
it makes the same store again. -/
theorem framing_exact :
    (∀ s : BitStore, s.Reachable → s.size < 2 ^ 64 →
      ∃ s', ofFrame? s.frame = .ok s' ∧ s'.bytes = s.bytes ∧ s'.size = s.size ∧ s'.cursor = 0) ∧
    ∀ framed : List UInt8,
      ((∃ s, ofFrame? framed = .ok s) ↔ 8 ≤ framed.length ∧ announced framed ≤ 8 * (framed.length - 8)) ∧
      ∀ s, ofFrame? framed = .ok s →
        (s.Valid ∧ s.cursor = 0 ∧ s.size = announced framed ∧
          s.toBits = (payload framed).take (announced framed)) ∧
        (∀ other, ofFrame? other = .ok s ↔
          8 ≤ other.length ∧ announced other = announced framed ∧ s.toBits <+: payload other) ∧
        s.frame.take 8 = framed.take 8 ∧
        payload s.frame = s.toBits ++ List.replicate ((8 - s.size % 8) % 8) false ∧
        (∀ other, (∃ s', ofFrame? other = .ok s') → announced other = announced framed →
          s.frame.length ≤ other.length) ∧
        ofFrame? s.frame = .ok s := by
  refine ⟨fun s reachable fits => reachable.valid.exists_ofFrame?_frame fits, fun framed =>
    ⟨exists_ofFrame?_iff, fun s made => ?_⟩⟩
  obtain ⟨valid, start, size, bits⟩ := ofFrame?_eq_ok made
  refine ⟨⟨valid, start, size, bits⟩, fun other => ?_, take_frame made, valid.payload_frame,
    fun other accepted same => valid.length_frame_le accepted (same.trans size.symm), ?_⟩
  · rw [ofFrame?_eq_ok_iff valid start, size]
  · have rewound : s.rewound = s := congrArg (fun cursor => { s with cursor }) start.symm
    exact rewound ▸ valid.ofFrame?_frame (size ▸ announced_lt framed)

/-- Nine bits written into an empty store, and twelve bits announced by a frame that is too long and not clean. -/
theorem framing_exact_dirty :
    ∃ s : BitStore, s.Reachable ∧ s.size = 9 ∧
      (∃ s', ofFrame? s.frame = .ok s' ∧ s'.bytes = s.bytes ∧ s'.size = s.size ∧ s'.cursor = 0) ∧
      ∃ cut, ofFrame? [0, 0, 0, 0, 0, 0, 0, 12, 0xA5, 0x3F, 0xFF] = .ok cut ∧
        cut.frame = [0, 0, 0, 0, 0, 0, 0, 12, 0xA5, 0x30] ∧ ofFrame? cut.frame = .ok cut := by
  obtain ⟨back, normal⟩ := framing_exact
  have written : (StoreAction.write 0x155 9).onStore .empty =
      .ok .done { bytes := #[0xAA, 0x80], size := 9, cursor := 9 } := by cbv
  have reachable := Reachable.done (.made .empty) written
  have made : ofFrame? [0, 0, 0, 0, 0, 0, 0, 12, 0xA5, 0x3F, 0xFF] = .ok { bytes := #[0xA5, 0x30], size := 12 } := by
    rfl
  obtain ⟨-, exact_⟩ := normal [0, 0, 0, 0, 0, 0, 0, 12, 0xA5, 0x3F, 0xFF]
  obtain ⟨-, -, -, -, -, again⟩ := exact_ _ made
  exact ⟨_, reachable, rfl, back _ reachable (by decide), _, made, rfl, again⟩

end BitStore

end HuffmanStrings
