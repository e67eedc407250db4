import HuffmanStrings.Failure

/-!
Bits, and what takes and gives them. A bit field is a number as the list of its low bits, the most significant first, a
list of bits as a number, or the eight bits of a byte, one by one or several at a time.
-/

namespace HuffmanStrings

namespace Bits

/-- The low `count` bits of `value`, the most significant first. -/
def ofNat : Nat → Nat → List Bool
  | 0, _ => []
  | count + 1, value => value.testBit count :: ofNat count value

def toNat (bits : List Bool) : Nat :=
  bits.foldl (fun value bit => 2 * value + bit.toNat) 0

theorem length_ofNat (count value : Nat) : (ofNat count value).length = count := by
  induction count with
  | zero => rfl
  | succ count ih => simp [ofNat, ih]

def text (bits : List Bool) : String :=
  String.ofList (bits.map fun bit => if bit then '1' else '0')

/-- The bit of a byte at `index`, 0 being the most significant. -/
def ofByte (byte : UInt8) (index : Nat) : Bool :=
  byte.toNat.testBit (7 - index)

def mask (index : Nat) : UInt8 :=
  UInt8.ofNat (1 <<< (7 - index))

def setBit (byte : UInt8) (index : Nat) (bit : Bool) : UInt8 :=
  if bit then byte ||| mask index else byte &&& ~~~mask index

def lowMask (count : Nat) : UInt64 :=
  if 64 ≤ count then UInt64.ofNat (UInt64.size - 1) else (1 <<< UInt64.ofNat count) - 1

def extract (byte : UInt8) (index count : Nat) : UInt64 :=
  (byte.toUInt64 >>> UInt64.ofNat (8 - index - count)) &&& lowMask count

/-- The byte with its `count` bits from `index` on replaced by the number `chunk`. -/
def splice (byte : UInt8) (index count : Nat) (chunk : UInt8) : UInt8 :=
  let place := UInt8.ofNat (8 - index - count)
  (byte &&& ~~~((lowMask count).toUInt8 <<< place)) ||| (chunk <<< place)

def keep (byte : UInt8) (count : Nat) : UInt8 :=
  byte &&& ~~~(0xFF >>> UInt8.ofNat count)

end Bits

/-!
What a coder needs of the two ends of a bit stream. An operation leaves a state behind also when it fails,
so both ends are described by actions that carry their state through a failure.
-/

section Steps

variable {σ α β : Type} {s s' : σ}

theorem bind_eq_ok_iff {act : EStateM Failure σ α} {next : α → EStateM Failure σ β} {result : β} :
    (act >>= next) s = .ok result s' ↔ ∃ value s₁, act s = .ok value s₁ ∧ next value s₁ = .ok result s' := by
  simp only [bind, EStateM.bind]
  cases act s with
  | ok => simp [and_assoc]
  | error => simp

theorem map_eq_ok_iff {act : EStateM Failure σ α} {f : α → β} {result : β} :
    (f <$> act) s = .ok result s' ↔ ∃ value, act s = .ok value s' ∧ f value = result := by
  simp only [Functor.map, EStateM.map]
  cases act s with
  | ok => simp [and_assoc, and_comm]
  | error => simp

end Steps

def ValidCount (count : Nat) : Prop :=
  1 ≤ count ∧ count ≤ 64

instance (count : Nat) : Decidable (ValidCount count) :=
  inferInstanceAs (Decidable (_ ∧ _))

class BitOutput (σ : Type) where
  write (value : UInt64) (count : Nat) : EStateM Failure σ Unit

/-- An origin of bits. Each successful read brings its end nearer, which is what makes decoding end. -/
class BitInput (σ : Type) where
  read (count : Nat) : EStateM Failure σ UInt64
  position : σ → Nat
  exhausted : EStateM Failure σ Bool
  rewind : EStateM Failure σ Unit
  remaining : σ → Nat
  remaining_read {count s value s'} : read count s = .ok value s' → remaining s' < remaining s
  remaining_exhausted {s answer s'} : exhausted s = .ok answer s' → remaining s' ≤ remaining s

def BitOutput.writeBit {σ : Type} [BitOutput σ] (bit : Bool) : EStateM Failure σ Unit :=
  write bit.toUInt64 1

def BitInput.readBit {σ : Type} [BitInput σ] : EStateM Failure σ Bool :=
  (· == 1) <$> read 1

end HuffmanStrings
