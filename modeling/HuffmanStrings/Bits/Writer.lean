import HuffmanStrings.Bits.Basic

/-!
Writing bits to an output of bytes, one byte at a time. A byte that the output refuses stays pending and is offered
again by the next write, so that no bit is lost.
-/

namespace HuffmanStrings

inductive OfferReply
  | accepted
  | refused (fault : IoFault)
  | nothing
  | interrupted
  deriving DecidableEq, Repr

/-- An output of bytes that answers its next offers by `replies`, and accepts all after them. -/
structure ByteOutput where
  accepted : Array UInt8 := #[]
  replies : List OfferReply := []
  flushFault : Option IoFault := none
  deriving DecidableEq, Repr

namespace ByteOutput

/-- Offers a byte until the output has answered it; an interruption is no answer. -/
def offer (byte : UInt8) (accepted : Array UInt8) : List OfferReply →
    Except IoFault Unit × Array UInt8 × List OfferReply
  | [] => (.ok (), accepted.push byte, [])
  | .accepted :: replies => (.ok (), accepted.push byte, replies)
  | .refused fault :: replies => (.error fault, accepted, replies)
  | .nothing :: replies => (.error .nothingWritten, accepted, replies)
  | .interrupted :: replies => offer byte accepted replies

def put (byte : UInt8) : EStateM Failure ByteOutput Unit := fun output =>
  match offer byte output.accepted output.replies with
  | (.ok (), accepted, replies) => .ok () { output with accepted, replies }
  | (.error fault, accepted, replies) => .error (.io fault) { output with accepted, replies }

end ByteOutput

/-- Bits on their way to an output of bytes. The first `fill` bits of `pending` are waiting; they are 8 only after a
refusal. -/
structure BitWriter where
  output : ByteOutput
  pending : UInt8 := 0
  fill : Nat := 0
  written : Nat := 0
  fill_le : fill ≤ 8 := by decide
  deriving DecidableEq, Repr

namespace BitWriter

def flush : EStateM Failure BitWriter Unit := fun w =>
  match ByteOutput.put w.pending w.output with
  | .ok () output => .ok () { w with output, pending := 0, fill := 0, fill_le := Nat.zero_le 8 }
  | .error failure output => .error failure { w with output }

def flushIfFull : EStateM Failure BitWriter Unit := fun w =>
  if w.fill = 8 then flush w else .ok () w

theorem fill_flush {w w' : BitWriter} (done : flush w = .ok () w') : w'.fill = 0 := by
  unfold flush at done
  split at done
  · cases done; rfl
  · cases done

theorem fill_flushIfFull {w w' : BitWriter} (done : flushIfFull w = .ok () w') : w'.fill < 8 := by
  unfold flushIfFull at done
  split at done
  case isTrue => rw [fill_flush done]; decide
  case isFalse partly => cases done; exact Nat.lt_of_le_of_ne w.fill_le partly

def share (w : BitWriter) (remaining : Nat) : Nat :=
  min remaining (8 - w.fill)

def accept (value : UInt64) (remaining : Nat) (w : BitWriter) : BitWriter :=
  let share := w.share remaining
  let chunk := ((value >>> UInt64.ofNat (remaining - share)) &&& Bits.lowMask share).toUInt8
  { w with
    pending := w.pending ||| (chunk <<< UInt8.ofNat (8 - w.fill - share))
    fill := w.fill + share
    written := w.written + share
    fill_le := by have := w.fill_le; simp only [share, BitWriter.share]; omega }

def writeFrom (value : UInt64) (remaining : Nat) (w : BitWriter) : EStateM.Result Failure BitWriter Unit :=
  if remaining = 0 then flushIfFull w
  else match _flushed : flushIfFull w with
    | .error failure w' => .error failure w'
    | .ok () w' => writeFrom value (remaining - w'.share remaining) (w'.accept value remaining)
termination_by remaining
decreasing_by
  have := fill_flushIfFull _flushed
  unfold share
  omega

def write (value : UInt64) (count : Nat) : EStateM Failure BitWriter Unit := fun w =>
  if ValidCount count then writeFrom value count w else .error (.invalidBitCount count) w

/-- Completes the pending byte with zeros and hands it on; the answer is the number of zeros. -/
def pad : EStateM Failure BitWriter Nat := fun w =>
  if w.fill = 0 then .ok 0 w else ((fun _ => 8 - w.fill) <$> flush) w

def close (w : BitWriter) : Except Failure ByteOutput :=
  if w.fill ≠ 0 then
    .error (.unflushedBits w.fill)
  else match w.output.flushFault with
    | some fault => .error (.io fault)
    | none => .ok w.output

instance : BitOutput BitWriter where
  write := write

end BitWriter

end HuffmanStrings
