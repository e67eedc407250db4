import HuffmanStrings.Bits.Basic

/-!
A growable sequence of bits, packed into bytes, with a cursor at which it is read and overwritten.
`BitStore.toBits` is the sequence; a valid store has as many bytes as its bits fill, and zeros after the last bit.
-/

namespace HuffmanStrings

structure BitStore where
  bytes : Array UInt8 := #[]
  size : Nat := 0
  cursor : Nat := 0
  deriving DecidableEq, Repr

namespace BitStore

def empty : BitStore := {}

def ofBytes (bytes : List UInt8) : BitStore where
  bytes := bytes.toArray
  size := 8 * bytes.length

def byteCount (size : Nat) : Nat :=
  (size + 7) / 8

/-- The bytes up to the first `size` bits, the rest of the last byte cleared. -/
def packed (bytes : List UInt8) (size : Nat) : List UInt8 :=
  bytes.take (size / 8) ++
    (if size % 8 = 0 then [] else (bytes.drop (size / 8)).take 1 |>.map (Bits.keep · (size % 8)))

def ofBytes? (bytes : List UInt8) (size : Nat) : Except Failure BitStore :=
  if size > 8 * bytes.length then
    .error (.seekPastEnd size (8 * bytes.length))
  else
    .ok { bytes := (packed bytes size).toArray, size }

def toBytes (s : BitStore) : List UInt8 :=
  s.bytes.toList

def bitAt (s : BitStore) (index : Nat) : Bool :=
  Bits.ofByte (s.bytes.getD (index / 8) 0) (index % 8)

def slice (s : BitStore) (start count : Nat) : List Bool :=
  (List.range' start count).map s.bitAt

def toBits (s : BitStore) : List Bool :=
  s.slice 0 s.size

structure Valid (s : BitStore) : Prop where
  cursor_le : s.cursor ≤ s.size
  size_bytes : s.bytes.size = byteCount s.size
  padding : ∀ index, s.size ≤ index → index < 8 * s.bytes.size → s.bitAt index = false

def isEmpty (s : BitStore) : Bool :=
  s.size = 0

def left (s : BitStore) : Nat :=
  s.size - s.cursor

def seek (position : Nat) : EStateM Failure BitStore Unit := fun s =>
  if position > s.size then
    .error (.seekPastEnd position s.size) s
  else
    .ok () { s with cursor := position }

def rewound (s : BitStore) : BitStore :=
  { s with cursor := 0 }

/-- Changes the byte at the cursor, which is new at the end of a store that fills its bytes, and moves past
`count` of its bits. -/
def change (s : BitStore) (count : Nat) (update : UInt8 → UInt8) : BitStore :=
  let bytes := if s.cursor / 8 = s.bytes.size then s.bytes.push 0 else s.bytes
  { bytes := bytes.modify (s.cursor / 8) update
    size := max s.size (s.cursor + count)
    cursor := s.cursor + count }

def writeFrom (value : UInt64) (remaining : Nat) (s : BitStore) : BitStore :=
  if remaining = 0 then s
  else
    let share := min remaining (8 - s.cursor % 8)
    let chunk := ((value >>> UInt64.ofNat (remaining - share)) &&& Bits.lowMask share).toUInt8
    writeFrom value (remaining - share) (s.change share (Bits.splice · (s.cursor % 8) share chunk))
termination_by remaining
decreasing_by omega

/-- Writes the low `count` bits of `value` over those at the cursor, or at the end. -/
def write (value : UInt64) (count : Nat) : EStateM Failure BitStore Unit := fun s =>
  if ValidCount count then
    .ok () (writeFrom value count s)
  else
    .error (.invalidBitCount count) s

def readFrom (bytes : Array UInt8) (remaining position : Nat) (value : UInt64) : UInt64 :=
  if remaining = 0 then value
  else
    let share := min remaining (8 - position % 8)
    let chunk := Bits.extract (bytes.getD (position / 8) 0) (position % 8) share
    readFrom bytes (remaining - share) (position + share) ((value <<< UInt64.ofNat share) ||| chunk)
termination_by remaining
decreasing_by omega

def read (count : Nat) : EStateM Failure BitStore UInt64 := fun s =>
  if ValidCount count then
    if count > s.left then
      .error (.outOfBits count s.left) s
    else
      .ok (readFrom s.bytes count s.cursor 0) { s with cursor := s.cursor + count }
  else
    .error (.invalidBitCount count) s

/-- Replaces the bit at the cursor, or appends one at the end, and moves past it. -/
def put (s : BitStore) (bit : Bool) : BitStore :=
  s.change 1 (Bits.setBit · (s.cursor % 8) bit)

def putAll (s : BitStore) (bits : List Bool) : BitStore :=
  bits.foldl put s

def signed (count : Nat) (value : UInt64) : Int :=
  ((value <<< UInt64.ofNat (64 - count)).toInt64 >>> Int64.ofNat (64 - count)).toInt

def readSigned (count : Nat) : EStateM Failure BitStore Int :=
  signed count <$> read count

theorem left_read {count : Nat} {s s' : BitStore} {value : UInt64} (done : read count s = .ok value s') :
    s'.left + count = s.left ∧ 1 ≤ count := by
  unfold read at done
  split at done
  case isFalse => cases done
  case isTrue valid =>
    split at done
    case isTrue => cases done
    case isFalse fits =>
      cases done
      exact ⟨by unfold left at *; dsimp only; omega, valid.1⟩

instance : BitOutput BitStore where
  write := write

instance : BitInput BitStore where
  read := read
  position := cursor
  exhausted := fun s => .ok (decide (s.size ≤ s.cursor)) s
  rewind := fun s => .ok () s.rewound
  remaining := left
  remaining_read done := by have := left_read done; omega
  remaining_exhausted done := by cases done; exact Nat.le_refl _

end BitStore

/-! The framed form of a bit store: its size in bits as eight bytes, the most significant first, and then its bytes. -/

def bigEndian : Nat → Nat → List UInt8
  | 0, _ => []
  | count + 1, value => UInt8.ofNat (value >>> (8 * count)) :: bigEndian count value

def ofBigEndian (bytes : List UInt8) : Nat :=
  bytes.foldl (fun value byte => 256 * value + byte.toNat) 0

namespace BitStore

def frame (s : BitStore) : List UInt8 :=
  bigEndian 8 s.size ++ s.toBytes

def ofFrame? (framed : List UInt8) : Except Failure BitStore :=
  if framed.length < 8 then
    .error (.outOfBits 64 (8 * framed.length))
  else
    ofBytes? (framed.drop 8) (ofBigEndian (framed.take 8))

end BitStore

end HuffmanStrings
