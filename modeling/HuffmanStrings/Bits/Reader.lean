import HuffmanStrings.Bits.Basic

/-!
Reading bits from an input of bytes, one byte at a time. A fault of the input loses no byte, and asking for
the end moves nothing: a byte fetched for it is kept for the next read.
-/

namespace HuffmanStrings

inductive RequestReply
  | ready
  | refused (fault : IoFault)
  | interrupted
  deriving DecidableEq, Repr

/-- An input of bytes that answers its next requests by `replies`, and is ready after them. -/
structure ByteInput where
  bytes : List UInt8
  replies : List RequestReply := []
  deriving DecidableEq, Repr

namespace ByteInput

/-- Asks until the input has answered; an interruption is no answer. -/
def request : List RequestReply → Except IoFault Unit × List RequestReply
  | [] => (.ok (), [])
  | .ready :: replies => (.ok (), replies)
  | .refused fault :: replies => (.error fault, replies)
  | .interrupted :: replies => request replies

def take : EStateM Failure ByteInput (Option UInt8) := fun input =>
  match request input.replies, input.bytes with
  | (.error fault, replies), _ => .error (.io fault) { input with replies }
  | (.ok (), replies), [] => .ok none { input with replies }
  | (.ok (), replies), byte :: bytes => .ok (some byte) { bytes, replies }

end ByteInput

/-- Bits on their way from an input of bytes. `fill` bits of `pending` are yet to be read. -/
structure BitReader where
  input : ByteInput
  pending : UInt8 := 0
  fill : Nat := 0
  position : Nat := 0
  deriving DecidableEq, Repr

namespace BitReader

def left (r : BitReader) : Nat :=
  r.fill + 8 * r.input.bytes.length

/-- Makes sure that a bit is held; the answer is whether one is. -/
def fetch : EStateM Failure BitReader Bool := fun r =>
  if r.fill ≠ 0 then .ok true r
  else match ByteInput.take r.input with
    | .ok (some byte) input => .ok true { r with input, pending := byte, fill := 8 }
    | .ok none input => .ok false { r with input }
    | .error failure input => .error failure { r with input }

theorem left_fetch {r r' : BitReader} {answer : Bool} (done : fetch r = .ok answer r') :
    r'.left = r.left ∧ (answer = true → r'.fill ≠ 0) := by
  unfold fetch ByteInput.take at done
  split at done
  case isTrue held => cases done; exact ⟨rfl, fun _ => held⟩
  case isFalse unheld =>
    cases bytes : r.input.bytes <;> rcases answers : ByteInput.request r.input.replies with ⟨⟨⟩ | ⟨⟩, _⟩ <;>
      simp only [bytes, answers] at done <;> cases done <;> simp_all [left]
    omega

def pass (count : Nat) (r : BitReader) : BitReader :=
  { r with fill := r.fill - count, position := r.position + count }

def readFrom (requested remaining : Nat) (value : UInt64) (r : BitReader) : EStateM.Result Failure BitReader UInt64 :=
  if remaining = 0 then .ok value r
  else match _fetched : fetch r with
    | .error failure r' => .error failure r'
    | .ok false r' => .error (.outOfBits requested (requested - remaining)) r'
    | .ok true r' =>
      let share := min remaining r'.fill
      let chunk := Bits.extract r'.pending (8 - r'.fill) share
      readFrom requested (remaining - share) ((value <<< UInt64.ofNat share) ||| chunk) (r'.pass share)
termination_by remaining
decreasing_by
  have := (left_fetch _fetched).2 rfl
  omega

def read (count : Nat) : EStateM Failure BitReader UInt64 := fun r =>
  if ValidCount count then readFrom count count 0 r else .error (.invalidBitCount count) r

def exhausted : EStateM Failure BitReader Bool :=
  (! ·) <$> fetch

theorem left_readFrom {requested remaining : Nat} {value value' : UInt64} {r r' : BitReader}
    (done : readFrom requested remaining value r = .ok value' r') : r'.left + remaining = r.left := by
  fun_induction readFrom requested remaining value r with
  | case1 => cases done; rfl
  | case2 => cases done
  | case3 => cases done
  | case4 remaining value r _ r₁ fetched share chunk ih =>
    have kept := (left_fetch fetched).1
    have later := ih done
    simp only [left, pass] at *
    omega

instance : BitInput BitReader where
  read := read
  position := position
  exhausted := exhausted
  rewind := fun r => .error .unseekable r
  remaining := left
  remaining_read {count r value r'} done := by
    unfold read at done
    split at done
    case isTrue valid => have := left_readFrom done; have := valid.1; omega
    case isFalse => cases done
  remaining_exhausted {r answer r'} done := by
    obtain ⟨found, fetched, _⟩ := map_eq_ok_iff.1 done
    exact Nat.le_of_eq (left_fetch fetched).1

end BitReader

end HuffmanStrings
