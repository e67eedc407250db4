import Mathlib
import HuffmanStrings.Proofs.Bits.Frame

/-!
A bit store behaves as a tape: a list of bits with a position in it. On a tape a write replaces the bits from the
position on, a read spells the bits that come next, and what fails changes nothing. Bytes, masks and shifts do not
show, however a store was made and whatever is done with it.
-/

namespace HuffmanStrings

inductive StoreAction
  | write (value : UInt64) (count : Nat)
  | writeBit (bit : Bool)
  | read (count : Nat)
  | readBit
  | readSigned (count : Nat)
  | seek (position : Nat)
  | rewind
  deriving DecidableEq, Repr

inductive StoreReply
  | done
  | bit (value : Bool)
  | number (value : Nat)
  | signed (value : Int)
  deriving DecidableEq, Repr

namespace StoreAction

def onStore : StoreAction → EStateM Failure BitStore StoreReply
  | write value count => (fun _ => .done) <$> BitOutput.write value count
  | writeBit bit => (fun _ => .done) <$> BitOutput.writeBit bit
  | read count => (fun value => .number value.toNat) <$> BitInput.read count
  | readBit => .bit <$> BitInput.readBit
  | readSigned count => .signed <$> BitStore.readSigned count
  | seek position => (fun _ => .done) <$> BitStore.seek position
  | rewind => (fun _ => .done) <$> BitInput.rewind

end StoreAction

structure Tape where
  bits : List Bool
  position : Nat := 0
  deriving DecidableEq, Repr

namespace Tape

/-- The tape with new bits at its position instead of as many old ones; it grows where those end. -/
def overwrite (t : Tape) (bits : List Bool) : Tape where
  bits := t.bits.take t.position ++ bits ++ t.bits.drop (t.position + bits.length)
  position := t.position + bits.length

def next (t : Tape) (count : Nat) (reply : List Bool → StoreReply) : Except Failure (StoreReply × Tape) :=
  if ValidCount count then
    if t.position + count ≤ t.bits.length then
      .ok (reply ((t.bits.drop t.position).take count), { t with position := t.position + count })
    else
      .error (.outOfBits count (t.bits.length - t.position))
  else
    .error (.invalidBitCount count)

def perform (t : Tape) : StoreAction → Except Failure (StoreReply × Tape)
  | .write value count =>
    if ValidCount count then
      .ok (.done, t.overwrite (Bits.ofNat count value.toNat))
    else
      .error (.invalidBitCount count)
  | .writeBit bit => .ok (.done, t.overwrite [bit])
  | .read count => t.next count fun bits => .number (Bits.toNat bits)
  | .readBit => t.next 1 fun bits => .bit (bits.headD false)
  | .readSigned count => t.next count fun bits => .signed (Bits.toInt bits)
  | .seek position =>
    if position ≤ t.bits.length then
      .ok (.done, { t with position })
    else
      .error (.seekPastEnd position t.bits.length)
  | .rewind => .ok (.done, { t with position := 0 })

end Tape

namespace BitStore

structure Represents (s : BitStore) (t : Tape) : Prop where
  valid : s.Valid
  bits : s.toBits = t.bits
  text : Bits.text s.toBits = Bits.text t.bits
  cursor : s.cursor = t.position

/-- An action has succeeded on store and tape with the same reply, or failed on both for the same reason and left the
store `s` as it was. -/
inductive Agree (s : BitStore) : EStateM.Result Failure BitStore StoreReply → Except Failure (StoreReply × Tape) → Prop
  | succeed {reply : StoreReply} {s' : BitStore} {t' : Tape} :
      s'.Represents t' → Agree s (.ok reply s') (.ok (reply, t'))
  | fail (failure : Failure) : Agree s (.error failure s) (.error failure)

/-- Store and tape go through the actions in step: where an action succeeds on the one it does on the other, with the
same reply; where it fails it does so on both, for the same reason, and changes nothing. -/
inductive InStep : BitStore → Tape → List StoreAction → Prop
  | stop {s : BitStore} {t : Tape} : s.Represents t → InStep s t []
  | succeed {s s' : BitStore} {t t' : Tape} {action : StoreAction} {reply : StoreReply} {later : List StoreAction} :
      s.Represents t → action.onStore s = .ok reply s' → t.perform action = .ok (reply, t') → InStep s' t' later →
      InStep s t (action :: later)
  | fail {s : BitStore} {t : Tape} {action : StoreAction} {failure : Failure} {later : List StoreAction} :
      s.Represents t → action.onStore s = .error failure s → t.perform action = .error failure → InStep s t later →
      InStep s t (action :: later)

/-- The ways to make a store, each with the bits that the store is to hold. -/
inductive Made : BitStore → List Bool → Prop
  | empty : Made .empty []
  | bytes (bytes : List UInt8) : Made (.ofBytes bytes) (Bits.ofBytes bytes)
  | part {bytes : List UInt8} {size : Nat} {s : BitStore} : ofBytes? bytes size = .ok s →
      Made s ((Bits.ofBytes bytes).take size)
  | frame {framed : List UInt8} {s : BitStore} : ofFrame? framed = .ok s →
      Made s ((Bits.ofBytes (framed.drop 8)).take (ofBigEndian (framed.take 8)))

variable {s : BitStore} {t : Tape} {bits : List Bool}

theorem represents_of_bits (valid : s.Valid) (same : s.toBits = t.bits) (cursor : s.cursor = t.position) :
    s.Represents t :=
  ⟨valid, same, congrArg Bits.text same, cursor⟩

theorem represents_of_made (made : Made s bits) : s.Represents ⟨bits, 0⟩ := by
  cases made with
  | empty => exact represents_of_bits valid_empty rfl rfl
  | bytes bytes => exact represents_of_bits (valid_ofBytes bytes) (toBits_ofBytes bytes) rfl
  | part made =>
    obtain ⟨valid, cursor, same⟩ := ofBytes?_eq_ok made
    exact represents_of_bits valid same cursor
  | frame made =>
    unfold ofFrame? at made
    split at made
    · cases made
    · obtain ⟨valid, cursor, same⟩ := ofBytes?_eq_ok made
      exact represents_of_bits valid same cursor

section Steps

variable (represents : s.Represents t)

include represents

theorem Represents.putAll (bits : List Bool) : (s.putAll bits).Represents (t.overwrite bits) := by
  apply represents_of_bits (represents.valid.putAll bits)
  · rw [toBits_putAll represents.valid, represents.bits, represents.cursor, Tape.overwrite]
  · rw [cursor_putAll, represents.cursor, Tape.overwrite]

theorem Represents.size : s.size = t.bits.length := by
  rw [← represents.bits, length_toBits]

theorem Represents.moved {position : Nat} (within : position ≤ t.bits.length) :
    BitStore.Represents { s with cursor := position } { t with position } := by
  refine represents_of_bits ⟨?_, represents.valid.size_bytes, represents.valid.padding⟩ represents.bits rfl
  exact within.trans_eq represents.size.symm

theorem Represents.read {count : Nat} {answer : UInt64 → StoreReply} {reply : List Bool → StoreReply}
    (same : ∀ bits : List Bool, bits.length = count → ValidCount count →
      answer (UInt64.ofNat (Bits.toNat bits)) = reply bits) :
    Agree s ((answer <$> BitStore.read count) s) (t.next count reply) := by
  have rest : s.rest = t.bits.drop t.position := by rw [rest, represents.bits, represents.cursor]
  have left : s.rest.length = t.bits.length - t.position := by rw [rest, List.length_drop]
  have inside : t.position ≤ t.bits.length := by
    rw [← represents.cursor, ← represents.size]
    exact represents.valid.cursor_le
  by_cases valid : ValidCount count
  · by_cases enough : t.position + count ≤ t.bits.length
    · have read := read_eq_ok (s := s) valid (by omega)
      have size : ((t.bits.drop t.position).take count).length = count := by
        rw [List.length_take, List.length_drop]
        omega
      simp only [Functor.map, EStateM.map, read, rest, same _ size valid, Tape.next, if_pos valid, if_pos enough]
      rw [advance, represents.cursor]
      exact .succeed (represents.moved enough)
    · have read := read_eq_error (s := s) valid (by omega)
      simp only [Functor.map, EStateM.map, read, left, Tape.next, if_pos valid, if_neg enough]
      exact .fail _
  · simp only [Functor.map, EStateM.map, BitStore.read, Tape.next, if_neg valid]
    exact .fail _

theorem Represents.perform (action : StoreAction) : Agree s (action.onStore s) (t.perform action) := by
  cases action with
  | write value count =>
    by_cases valid : ValidCount count
    · simp only [StoreAction.onStore, Functor.map, EStateM.map, BitOutput.write, write_eq_ok valid, Tape.perform,
        if_pos valid]
      exact .succeed (represents.putAll _)
    · simp only [StoreAction.onStore, Functor.map, EStateM.map, BitOutput.write, BitStore.write, Tape.perform,
        if_neg valid]
      exact .fail _
  | writeBit bit =>
    have valid : ValidCount 1 := by decide
    have single : Bits.ofNat 1 bit.toUInt64.toNat = [bit] := by cases bit <;> rfl
    simp only [StoreAction.onStore, Functor.map, EStateM.map, BitOutput.writeBit, BitOutput.write, write_eq_ok valid,
      single]
    exact .succeed (represents.putAll [bit])
  | read count =>
    change Agree s (((fun value => StoreReply.number value.toNat) <$> BitStore.read count) s)
      (t.next count fun bits => .number (Bits.toNat bits))
    refine represents.read fun bits size valid => ?_
    have small : Bits.toNat bits < 2 ^ 64 :=
      (Bits.toNat_lt bits).trans_le (Nat.pow_le_pow_right (by decide) (size.trans_le valid.2))
    rw [UInt64.toNat_ofNat_of_lt' small]
  | readBit =>
    rw [StoreAction.onStore, BitInput.readBit, ← comp_map]
    change Agree s (((fun value => StoreReply.bit (value == 1)) <$> BitStore.read 1) s)
      (t.next 1 fun bits => .bit (bits.headD false))
    refine represents.read fun bits size _ => ?_
    obtain ⟨bit, rfl⟩ := List.length_eq_one_iff.1 size
    cases bit <;> rfl
  | readSigned count =>
    rw [StoreAction.onStore, readSigned, ← comp_map]
    change Agree s (((fun value => StoreReply.signed (signed count value)) <$> BitStore.read count) s)
      (t.next count fun bits => .signed (Bits.toInt bits))
    refine represents.read fun bits size valid => ?_
    subst size
    rw [signed_eq_toInt valid]
  | seek position =>
    by_cases within : position ≤ t.bits.length
    · have allowed : ¬position > s.size := by rwa [represents.size, gt_iff_lt, Nat.not_lt]
      simp only [StoreAction.onStore, Functor.map, EStateM.map, BitStore.seek, if_neg allowed, Tape.perform,
        if_pos within]
      exact .succeed (represents.moved within)
    · have refused : position > s.size := by rwa [represents.size, gt_iff_lt, ← Nat.not_le]
      simp only [StoreAction.onStore, Functor.map, EStateM.map, BitStore.seek, if_pos refused, Tape.perform,
        if_neg within]
      rw [represents.size]
      exact .fail _
  | rewind => exact .succeed (represents.moved (Nat.zero_le _))

theorem Represents.inStep (actions : List StoreAction) : InStep s t actions := by
  induction actions generalizing s t with
  | nil => exact .stop represents
  | cons action later ih =>
    have agree := represents.perform action
    cases acted : action.onStore s <;> cases performed : t.perform action <;> rw [acted, performed] at agree <;>
      cases agree
    case ok.ok.succeed kept => exact .succeed represents acted performed (ih kept)
    -- A failure leaves the store as it was, so it still represents the tape.
    case error.error.fail => exact .fail represents acted performed (ih represents)

end Steps

end BitStore

end HuffmanStrings
