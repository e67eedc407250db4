import Mathlib
import HuffmanStrings.Bits.Writer
import HuffmanStrings.Proofs.Bits.Answers
import HuffmanStrings.Proofs.Bits.Byte
import HuffmanStrings.Proofs.Bits.Calls

/-!
Writing to an output that may refuse. The bytes that were accepted and the bits that are waiting are together the
stream, and a refusal takes nothing from it: a call adds as many of its first bits as it counts, so that the missing
ones can be written later.
-/

namespace HuffmanStrings

inductive WriterAction
  | write (value : UInt64) (count : Nat)
  | writeBit (bit : Bool)
  | pad
  deriving DecidableEq, Repr

inductive WriterReply
  | done
  | zeros (count : Nat)
  deriving DecidableEq, Repr

namespace WriterAction

def onWriter : WriterAction → EStateM Failure BitWriter WriterReply
  | write value count => (fun _ => .done) <$> BitOutput.write value count
  | writeBit bit => (fun _ => .done) <$> BitOutput.writeBit bit
  | pad => .zeros <$> BitWriter.pad

def extend (stream : List Bool) : WriterAction → List Bool
  | write value count => if ValidCount count then stream ++ Bits.ofNat count value.toNat else stream
  | writeBit bit => stream ++ [bit]
  | pad => stream ++ List.replicate ((8 - stream.length % 8) % 8) false

end WriterAction

theorem ByteOutput.offer_cases (byte : UInt8) (accepted : Array UInt8) (replies : List OfferReply) :
    (∃ later, offer byte accepted replies = (.ok (), accepted.push byte, later)) ∨
    ∃ fault later, offer byte accepted replies = (.error fault, accepted, later) := by
  fun_induction offer byte accepted replies with
  | case1 => exact .inl ⟨_, rfl⟩
  | case2 => exact .inl ⟨_, rfl⟩
  | case3 => exact .inr ⟨_, _, rfl⟩
  | case4 => exact .inr ⟨_, _, rfl⟩
  | case5 replies ih => exact ih

namespace BitWriter

def held (w : BitWriter) : List Bool :=
  (Bits.ofNat 8 w.pending.toNat).take w.fill

/-- All bits so far: those of the bytes that were accepted, and those that are waiting. -/
def stream (w : BitWriter) : List Bool :=
  Bits.ofBytes w.output.accepted.toList ++ w.held

def Clear (w : BitWriter) : Prop :=
  ∀ index, w.fill ≤ index → index < 8 → Bits.ofByte w.pending index = false

def withReplies (w : BitWriter) (replies : List OfferReply) : BitWriter :=
  { w with output := { w.output with replies } }

def handedOn (w : BitWriter) (replies : List OfferReply) : BitWriter where
  output := { w.output with accepted := w.output.accepted.push w.pending, replies }
  written := w.written
  fill_le := (Nat.zero_le w.fill).trans w.fill_le

structure Took (w : BitWriter) (bits : List Bool) (w' : BitWriter) : Prop where
  clear : w'.Clear
  stream : w'.stream = w.stream ++ bits
  written : w'.written = w.written + bits.length

variable {w w' w'' : BitWriter} {bits others : List Bool} {replies : List OfferReply}

section Stream

theorem length_held (w : BitWriter) : w.held.length = w.fill := by
  rw [held, List.length_take, Bits.length_ofNat, Nat.min_eq_left w.fill_le]

theorem length_stream (w : BitWriter) : w.stream.length = 8 * w.output.accepted.size + w.fill := by
  rw [stream, List.length_append, Bits.length_ofBytes, length_held, Array.length_toList]

theorem clear_new (output : ByteOutput) : Clear { output } :=
  fun index _ _ => Bits.ofByte_zero index

theorem clear_handedOn (w : BitWriter) (replies : List OfferReply) : (w.handedOn replies).Clear :=
  fun index _ _ => Bits.ofByte_zero index

theorem stream_handedOn (clear : w.Clear) (replies : List OfferReply) :
    (w.handedOn replies).stream = w.stream ++ List.replicate (8 - w.fill) false := by
  have byte : w.held ++ List.replicate (8 - w.fill) false = Bits.ofNat 8 w.pending.toNat := by
    rw [← Bits.drop_ofNat_eight clear, held, List.take_append_drop]
  have empty : (w.handedOn replies).held = [] := rfl
  have accepted : Bits.ofBytes (w.handedOn replies).output.accepted.toList =
      Bits.ofBytes w.output.accepted.toList ++ Bits.ofNat 8 w.pending.toNat := by
    simp [handedOn, Bits.ofBytes]
  rw [stream, empty, accepted, List.append_nil, stream, List.append_assoc, byte]

theorem Took.nil (clear : w.Clear) : w.Took [] w :=
  ⟨clear, (List.append_nil _).symm, rfl⟩

theorem Took.trans (first : w.Took bits w') (second : w'.Took others w'') : w.Took (bits ++ others) w'' where
  clear := second.clear
  stream := by rw [second.stream, first.stream, List.append_assoc]
  written := by rw [second.written, first.written, List.length_append, Nat.add_assoc]

theorem took_withReplies (clear : w.Clear) (replies : List OfferReply) : w.Took [] (w.withReplies replies) :=
  ⟨clear, (List.append_nil _).symm, rfl⟩

theorem took_handedOn (clear : w.Clear) (full : w.fill = 8) (replies : List OfferReply) :
    w.Took [] (w.handedOn replies) where
  clear := w.clear_handedOn replies
  stream := by rw [stream_handedOn clear, full]; rfl
  written := rfl

theorem took_accept (clear : w.Clear) (partly : w.fill < 8) (value : UInt64) {remaining : Nat} (more : remaining ≠ 0)
    (short : remaining ≤ 64) :
    w.Took (Bits.ofNat (w.share remaining) (value.toNat / 2 ^ (remaining - w.share remaining)))
      (w.accept value remaining) := by
  have share : w.share remaining = min remaining (8 - w.fill) := rfl
  have positive : 0 < w.share remaining := by omega
  have within : w.fill + w.share remaining ≤ 8 := by omega
  have number := Bits.toNat_chunk value (by omega : w.share remaining ≤ 8)
    (by omega : remaining - w.share remaining < 64)
  have put := Bits.or_shiftLeft_eq_setBits positive within (number ▸ Nat.mod_lt _ (Nat.two_pow_pos _)) clear
  rw [number, Bits.ofNat_mod] at put
  have size := Bits.length_ofNat (w.share remaining) (value.toNat / 2 ^ (remaining - w.share remaining))
  refine ⟨fun index behind low => ?_, ?_, ?_⟩
  · have past : w.fill + w.share remaining ≤ index := behind
    change Bits.ofByte (_ ||| _) index = false
    rw [put, Bits.ofByte_setBits _ (by rwa [size]) low, if_pos (by omega), List.getD_eq_default _ _ (by omega)]
    exact clear index (by omega) low
  · have grown := Bits.take_setBits w.pending (by rwa [size] : w.fill + (Bits.ofNat (w.share remaining)
      (value.toNat / 2 ^ (remaining - w.share remaining))).length ≤ 8)
    rw [size, ← put] at grown
    change Bits.ofBytes w.output.accepted.toList ++ List.take (w.fill + w.share remaining) _ = _
    rw [stream, held, List.append_assoc, ← grown]
    rfl
  · rw [size]
    rfl

end Stream

section Steps

theorem flush_cases (w : BitWriter) :
    (∃ replies, flush w = .ok () (w.handedOn replies)) ∨
    ∃ fault replies, flush w = .error (.io fault) (w.withReplies replies) := by
  rcases ByteOutput.offer_cases w.pending w.output.accepted w.output.replies with
    ⟨replies, answered⟩ | ⟨fault, replies, answered⟩
  · exact .inl ⟨replies, by simp only [flush, ByteOutput.put, answered]; rfl⟩
  · exact .inr ⟨fault, replies, by simp only [flush, ByteOutput.put, answered]; rfl⟩

theorem flushIfFull_eq_ok (flushed : flushIfFull w = .ok () w') (clear : w.Clear) : w.Took [] w' := by
  unfold flushIfFull at flushed
  split at flushed
  case isTrue full =>
    rcases w.flush_cases with ⟨replies, same⟩ | ⟨_, _, refused⟩
    · rw [flushed] at same
      cases same
      exact took_handedOn clear full replies
    · rw [flushed] at refused; cases refused
  case isFalse =>
    cases flushed
    exact .nil clear

theorem flushIfFull_eq_error {failure : Failure} (refused : flushIfFull w = .error failure w') :
    ∃ fault replies, failure = .io fault ∧ w' = w.withReplies replies ∧ w.fill = 8 := by
  unfold flushIfFull at refused
  split at refused
  case isTrue full =>
    rcases w.flush_cases with ⟨_, flushed⟩ | ⟨fault, replies, same⟩
    · rw [refused] at flushed; cases flushed
    · rw [refused] at same
      cases same
      exact ⟨fault, replies, rfl, rfl, full⟩
  case isFalse => cases refused

/-- A value is taken whole, and fewer than eight bits are left waiting; or a refusal breaks it off, the first of its bits
being taken and a whole byte waiting. -/
theorem writeFrom_cases (value : UInt64) {remaining : Nat} (clear : w.Clear) (short : remaining ≤ 64) :
    (∃ w', writeFrom value remaining w = .ok () w' ∧ w'.fill < 8 ∧ w.Took (Bits.ofNat remaining value.toNat) w') ∨
    ∃ fault w' count, writeFrom value remaining w = .error (.io fault) w' ∧ w'.fill = 8 ∧ count ≤ remaining ∧
      w.Took ((Bits.ofNat remaining value.toNat).take count) w' := by
  fun_induction writeFrom value remaining w with
  | case1 w =>
    cases flushed : flushIfFull w with
    | ok _ w' => exact .inl ⟨w', rfl, fill_flushIfFull flushed, flushIfFull_eq_ok flushed clear⟩
    | error failure w' =>
      obtain ⟨fault, replies, rfl, rfl, full⟩ := flushIfFull_eq_error flushed
      exact .inr ⟨fault, _, 0, rfl, full, Nat.le_refl 0, took_withReplies clear replies⟩
  | case2 remaining w more failure w' refused =>
    obtain ⟨fault, replies, rfl, rfl, full⟩ := flushIfFull_eq_error refused
    exact .inr ⟨fault, _, 0, rfl, full, Nat.zero_le _, took_withReplies clear replies⟩
  | case3 remaining w more w' flushed ih =>
    -- The pending byte takes its share, the leading bits; the others follow by induction.
    have first := flushIfFull_eq_ok flushed clear
    have second := first.trans (took_accept first.clear (fill_flushIfFull flushed) value more short)
    have within : w'.share remaining ≤ remaining := Nat.min_le_left ..
    have size := Bits.length_ofNat (w'.share remaining) (value.toNat / 2 ^ (remaining - w'.share remaining))
    have split : Bits.ofNat remaining value.toNat =
        Bits.ofNat (w'.share remaining) (value.toNat / 2 ^ (remaining - w'.share remaining)) ++
          Bits.ofNat (remaining - w'.share remaining) value.toNat := by
      rw [← Bits.ofNat_add, Nat.add_sub_cancel' within]
    rw [List.nil_append] at second
    rw [split]
    rcases ih second.clear (by omega) with ⟨w'', written, partly, later⟩ | ⟨fault, w'', count, refused, full, few, later⟩
    · exact .inl ⟨w'', written, partly, second.trans later⟩
    · have taken (front back : List Bool) (length : front.length = w'.share remaining) :
          (front ++ back).take (w'.share remaining + count) = front ++ back.take count := by
        rw [← length, List.take_length_add_append]
      refine .inr ⟨fault, w'', w'.share remaining + count, refused, full, by omega, ?_⟩
      rw [taken _ _ size]
      exact second.trans later

theorem pad_cases (w : BitWriter) :
    (∃ w', pad w = .ok (if w.fill = 0 then 0 else 8 - w.fill) w' ∧ w'.fill = 0 ∧ w'.written = w.written ∧
      (w.Clear → w'.Clear ∧
        w'.stream = w.stream ++ List.replicate (if w.fill = 0 then 0 else 8 - w.fill) false)) ∨
    ∃ fault replies, pad w = .error (.io fault) (w.withReplies replies) := by
  by_cases none : w.fill = 0
  · simp only [pad, if_pos none]
    exact .inl ⟨w, rfl, none, rfl, fun clear => ⟨clear, (List.append_nil _).symm⟩⟩
  · simp only [pad, if_neg none]
    rcases w.flush_cases with ⟨replies, flushed⟩ | ⟨fault, replies, refused⟩
    · refine .inl ⟨w.handedOn replies, ?_, rfl, rfl, fun clear => ⟨w.clear_handedOn replies, ?_⟩⟩
      · simp only [Functor.map, EStateM.map, flushed]
      · exact stream_handedOn clear replies
    · refine .inr ⟨fault, replies, ?_⟩
      simp only [Functor.map, EStateM.map, refused]

end Steps

section Calls

/-- What a call adds to the stream: of its value as many of the first bits as it counted, or the zeros it reports. -/
def added (call : Call WriterAction BitWriter WriterReply) : List Bool :=
  match call.action, call.result with
  | .write value count, _ => (Bits.ofNat count value.toNat).take (call.after.written - call.before.written)
  | .writeBit bit, _ => [bit].take (call.after.written - call.before.written)
  | .pad, .ok (.zeros count) _ => List.replicate count false
  | .pad, _ => []

/-- The ways in which a call ends. A success is complete and leaves no whole byte waiting; a value that is broken off
leaves a whole byte waiting; any other failure leaves the writer as it was. -/
inductive Ended : Call WriterAction BitWriter WriterReply → Prop
  | written {w w' : BitWriter} {value : UInt64} {count : Nat} : ValidCount count →
      w'.written = w.written + count → w'.fill < 8 → Ended ⟨.write value count, w, .ok .done w'⟩
  | brokenOff {w w' : BitWriter} {value : UInt64} {count : Nat} {fault : IoFault} : ValidCount count →
      w.written ≤ w'.written → w'.written ≤ w.written + count → w'.fill = 8 →
      Ended ⟨.write value count, w, .error (.io fault) w'⟩
  | rejected {w : BitWriter} {value : UInt64} {count : Nat} : ¬ValidCount count →
      Ended ⟨.write value count, w, .error (.invalidBitCount count) w⟩
  | bit {w : BitWriter} {bit : Bool} {result : EStateM.Result Failure BitWriter WriterReply} :
      Ended ⟨.write bit.toUInt64 1, w, result⟩ → Ended ⟨.writeBit bit, w, result⟩
  | padded {w w' : BitWriter} : w'.written = w.written → w'.fill = 0 →
      Ended ⟨.pad, w, .ok (.zeros (if w.fill = 0 then 0 else 8 - w.fill)) w'⟩
  | unpadded {w : BitWriter} {fault : IoFault} {replies : List OfferReply} :
      Ended ⟨.pad, w, .error (.io fault) (w.withReplies replies)⟩

/-- What is still to be asked for after a refusal: the low bits of a value that were not taken, if any. -/
def missing (call : Call WriterAction BitWriter WriterReply) : Option WriterAction :=
  match call.action, call.result with
  | .write value count, .error (.io _) w' =>
    if w'.written = call.before.written + count then none
    else some (.write value (call.before.written + count - w'.written))
  | .writeBit bit, .error (.io _) w' => if w'.written = call.before.written + 1 then none else some (.writeBit bit)
  | .pad, .error (.io _) _ => some .pad
  | _, _ => none

variable {action : WriterAction}

theorem write_cases (value : UInt64) {count : Nat} (valid : ValidCount count) (clear : w.Clear) :
    (∃ w', WriterAction.onWriter (.write value count) w = .ok .done w' ∧ w'.fill < 8 ∧
      w.Took (Bits.ofNat count value.toNat) w') ∨
    ∃ fault w' taken, WriterAction.onWriter (.write value count) w = .error (.io fault) w' ∧ w'.fill = 8 ∧
      taken ≤ count ∧ w.Took ((Bits.ofNat count value.toNat).take taken) w' := by
  rcases writeFrom_cases value clear valid.2 with ⟨w', written, partly, took⟩ | ⟨fault, w', taken, refused, full, few, took⟩
  · refine .inl ⟨w', ?_, partly, took⟩
    simp only [WriterAction.onWriter, BitOutput.write, write, if_pos valid, Functor.map, EStateM.map, written]
  · refine .inr ⟨fault, w', taken, ?_, full, few, took⟩
    simp only [WriterAction.onWriter, BitOutput.write, write, if_pos valid, Functor.map, EStateM.map, refused]

theorem write_eq_error (value : UInt64) {count : Nat} (invalid : ¬ValidCount count) (w : BitWriter) :
    WriterAction.onWriter (.write value count) w = .error (.invalidBitCount count) w := by
  simp only [WriterAction.onWriter, BitOutput.write, write, if_neg invalid, Functor.map, EStateM.map]

theorem ofNat_bit (bit : Bool) : Bits.ofNat 1 bit.toUInt64.toNat = [bit] := by
  cases bit <;> rfl

theorem Took.counted {bits : List Bool} {taken : Nat} (few : taken ≤ bits.length) (took : w.Took (bits.take taken) w') :
    w'.written = w.written + taken := by
  rw [took.written, List.length_take, Nat.min_eq_left few]

def Accounted (call : Call WriterAction BitWriter WriterReply) : Prop :=
  Ended call ∧ call.after.Clear ∧ call.after.stream = call.before.stream ++ added call

theorem accounted_write (value : UInt64) (count : Nat) (clear : w.Clear) :
    Accounted (.make WriterAction.onWriter w (.write value count)) := by
  have size := Bits.length_ofNat count value.toNat
  simp only [Accounted, Call.make, added, Call.after]
  by_cases valid : ValidCount count
  · rcases write_cases value valid clear with ⟨w', written, partly, took⟩ | ⟨fault, w', taken, refused, full, few, took⟩
    · have total := took.written
      rw [size] at total
      rw [written]
      refine ⟨.written valid total partly, took.clear, took.stream.trans ?_⟩
      rw [total, Nat.add_sub_cancel_left, List.take_of_length_le size.le]
    · have total := took.counted (size.symm ▸ few)
      rw [refused]
      refine ⟨.brokenOff valid (by omega) (by omega) full, took.clear, took.stream.trans ?_⟩
      rw [total, Nat.add_sub_cancel_left]
  · rw [write_eq_error value valid w]
    refine ⟨.rejected valid, clear, ?_⟩
    rw [Nat.sub_self, List.take_zero, List.append_nil]

theorem accounted_writeBit (bit : Bool) (clear : w.Clear) :
    Accounted (.make WriterAction.onWriter w (.writeBit bit)) := by
  obtain ⟨ended, cleared, adds⟩ := accounted_write bit.toUInt64 1 clear
  refine ⟨.bit ended, cleared, ?_⟩
  cases bit <;> exact adds

theorem accounted_pad (clear : w.Clear) : Accounted (.make WriterAction.onWriter w .pad) := by
  simp only [Accounted, Call.make, added, Call.after, WriterAction.onWriter, Functor.map, EStateM.map]
  rcases w.pad_cases with ⟨w', padded, none, same, adds⟩ | ⟨fault, replies, refused⟩
  · rw [padded]
    exact ⟨.padded same none, (adds clear).1, (adds clear).2⟩
  · rw [refused]
    exact ⟨.unpadded, clear, (List.append_nil _).symm⟩

theorem accounted_make (action : WriterAction) (clear : w.Clear) :
    Accounted (.make WriterAction.onWriter w action) := by
  cases action with
  | write value count => exact accounted_write value count clear
  | writeBit bit => exact accounted_writeBit bit clear
  | pad => exact accounted_pad clear

def UsesUp (call : Call WriterAction BitWriter WriterReply) : Prop :=
  call.after.output.replies.length ≤ call.before.output.replies.length ∧
  ∀ fault w', call.result = .error (.io fault) w' → w'.output.replies.length < call.before.output.replies.length

theorem usesUp_of_answered {result : EStateM.Result Failure BitWriter WriterReply}
    (answered : ByteOutput.Answered output w.output result) : UsesUp ⟨action, w, result⟩ := by
  cases result with
  | ok reply w' => exact ⟨answered.length_le, nofun⟩
  | error failure w' =>
    refine ⟨answered.length_lt.le, fun fault w'' same => ?_⟩
    cases same
    exact answered.length_lt

theorem usesUp_write (value : UInt64) (count : Nat) (w : BitWriter) :
    UsesUp (.make WriterAction.onWriter w (.write value count)) := by
  by_cases valid : ValidCount count
  · exact usesUp_of_answered ((answered_write value valid w).map fun _ => WriterReply.done)
  · simp only [UsesUp, Call.make, Call.after, write_eq_error value valid w]
    exact ⟨Nat.le_refl _, nofun⟩

theorem usesUp_pad (w : BitWriter) : UsesUp (.make WriterAction.onWriter w .pad) :=
  usesUp_of_answered (w.answered_pad.map WriterReply.zeros)

theorem usesUp_make (action : WriterAction) (w : BitWriter) : UsesUp (.make WriterAction.onWriter w action) := by
  cases action with
  | write value count => exact usesUp_write value count w
  | writeBit bit => exact usesUp_write bit.toUInt64 1 w
  | pad => exact usesUp_pad w

theorem replies_missing {rest : WriterAction} (more : missing (.make WriterAction.onWriter w action) = some rest) :
    (Call.make WriterAction.onWriter w action).after.output.replies.length < w.output.replies.length := by
  have fewer := (usesUp_make action w).2
  simp only [Call.make, Call.after, missing] at more fewer ⊢
  cases ended : action.onWriter w with
  | ok reply w' => cases action <;> simp [ended] at more
  | error failure w' =>
    cases failure with
    | io fault => exact fewer fault w' ended
    | _ => cases action <;> simp [ended] at more

/-- Asks again for what is missing until nothing is. -/
def persist (w : BitWriter) (action : WriterAction) : BitWriter :=
  match _more : missing (.make WriterAction.onWriter w action) with
  | none => (Call.make WriterAction.onWriter w action).after
  | some rest => persist (Call.make WriterAction.onWriter w action).after rest
termination_by w.output.replies.length
decreasing_by exact replies_missing _more

def persistAll (actions : List WriterAction) (w : BitWriter) : BitWriter :=
  actions.foldl persist w

/-- What a call has added and what is missing after it are together all that was asked for. -/
def Completes (call : Call WriterAction BitWriter WriterReply) : Prop :=
  (missing call).elim call.after.stream (WriterAction.extend call.after.stream) = call.action.extend call.before.stream

theorem completes_write (value : UInt64) (count : Nat) (clear : w.Clear) :
    Completes (.make WriterAction.onWriter w (.write value count)) := by
  have size := Bits.length_ofNat count value.toNat
  by_cases valid : ValidCount count
  · simp only [Completes, missing, Call.make, Call.after, WriterAction.extend, if_pos valid]
    rcases write_cases value valid clear with ⟨w', written, -, took⟩ | ⟨fault, w', taken, refused, -, few, took⟩
    · rw [written]
      exact took.stream
    · have total := took.counted (size.symm ▸ few)
      simp only [refused, total]
      -- Behind the last bit a refusal leaves nothing to ask for: the full byte is offered again by the next write.
      by_cases whole : taken = count
      · rw [if_pos (congrArg _ whole), Option.elim_none, took.stream, List.take_of_length_le (by omega)]
      · have rest : w.written + count - (w.written + taken) = count - taken := by omega
        have validRest : ValidCount (count - taken) := ⟨by omega, (Nat.sub_le ..).trans valid.2⟩
        rw [if_neg (by omega), Option.elim_some, rest, WriterAction.extend, if_pos validRest, took.stream,
          ← Bits.drop_ofNat _ few, List.append_assoc, List.take_append_drop]
  · simp only [Completes, missing, Call.make, Call.after, write_eq_error value valid w, WriterAction.extend, if_neg valid]
    rfl

theorem completes_writeBit (bit : Bool) (clear : w.Clear) :
    Completes (.make WriterAction.onWriter w (.writeBit bit)) := by
  have short : ValidCount 1 := by decide
  have single := ofNat_bit bit
  have same : (WriterAction.writeBit bit).onWriter w = WriterAction.onWriter (.write bit.toUInt64 1) w := rfl
  simp only [Completes, missing, Call.make, Call.after, WriterAction.extend, same]
  rcases write_cases bit.toUInt64 short clear with ⟨w', written, -, took⟩ | ⟨fault, w', taken, refused, -, few, took⟩
  · rw [written, ← single]
    exact took.stream
  · rw [single] at took
    have total := took.counted few
    simp only [refused, total]
    obtain rfl | rfl : taken = 0 ∨ taken = 1 := by omega
    · rw [if_neg (by omega), Option.elim_some, WriterAction.extend, took.stream, List.take_zero, List.append_nil]
    · rw [if_pos rfl, Option.elim_none, took.stream]
      rfl

theorem completes_pad (clear : w.Clear) : Completes (.make WriterAction.onWriter w .pad) := by
  simp only [Completes, missing, Call.make, Call.after, WriterAction.onWriter, Functor.map, EStateM.map]
  rcases w.pad_cases with ⟨w', padded, -, -, adds⟩ | ⟨fault, replies, refused⟩
  · have zeros : (if w.fill = 0 then 0 else 8 - w.fill) = (8 - w.stream.length % 8) % 8 := by
      have := w.fill_le
      rw [length_stream]
      split <;> omega
    rw [padded, WriterAction.extend, ← zeros]
    exact (adds clear).2
  · rw [refused]
    rfl

theorem completes_make (action : WriterAction) (clear : w.Clear) :
    Completes (.make WriterAction.onWriter w action) := by
  cases action with
  | write value count => exact completes_write value count clear
  | writeBit bit => exact completes_writeBit bit clear
  | pad => exact completes_pad clear

theorem persist_extend (clear : w.Clear) (action : WriterAction) :
    (w.persist action).Clear ∧ (w.persist action).stream = action.extend w.stream := by
  fun_induction persist w action with
  | case1 w action none =>
    have whole := completes_make action clear
    rw [Completes, none] at whole
    exact ⟨(accounted_make action clear).2.1, whole⟩
  | case2 w action rest more ih =>
    have whole := completes_make action clear
    rw [Completes, more] at whole
    obtain ⟨cleared, stream⟩ := ih (accounted_make action clear).2.1
    exact ⟨cleared, stream.trans whole⟩

theorem stream_persistAll (clear : w.Clear) (actions : List WriterAction) :
    (persistAll actions w).stream = actions.foldl WriterAction.extend w.stream := by
  induction actions generalizing w with
  | nil => rfl
  | cons action later ih =>
    obtain ⟨cleared, stream⟩ := persist_extend clear action
    rw [List.foldl_cons, ← stream]
    exact ih cleared

theorem finish_eq_persistAll (ready : w.output.replies = []) (actions : List WriterAction) :
    Call.finish WriterAction.onWriter actions w = persistAll actions w := by
  induction actions generalizing w with
  | nil => rfl
  | cons action later ih =>
    have none : missing (.make WriterAction.onWriter w action) = none := by
      refine Option.eq_none_iff_forall_ne_some.2 fun rest more => ?_
      have fewer := replies_missing more
      rw [ready] at fewer
      exact Nat.not_lt_zero _ fewer
    have still : (Call.make WriterAction.onWriter w action).after.output.replies = [] := by
      have fewer : _ ≤ w.output.replies.length := (usesUp_make action w).1
      rw [ready] at fewer
      exact List.eq_nil_of_length_eq_zero (Nat.le_zero.1 fewer)
    have once : w.persist action = (Call.make WriterAction.onWriter w action).after := by
      rw [persist]
      split
      · rfl
      · rename_i more
        rw [none] at more
        cases more
    rw [Call.finish, ih still, persistAll, persistAll, List.foldl_cons, once]

/-- Whatever an output accepts, refuses or interrupts: after any calls the bytes it has accepted and the bits that are
waiting are what the calls have added, no bit being lost or doubled; each call adds all of its bits or fails in one of
the ways of `Ended`; to ask again for what is missing gives in the end the stream of an output that refuses nothing, in
which everything asked for stands in a row; and the output is returned only when nothing is waiting. -/
theorem nothing_lost (output : ByteOutput) (actions : List WriterAction) :
    let w := Call.finish WriterAction.onWriter actions { output }
    w.stream = Bits.ofBytes output.accepted.toList ++
      (Call.makeAll WriterAction.onWriter actions { output }).flatMap added ∧
    (∀ call ∈ Call.makeAll WriterAction.onWriter actions { output }, Ended call) ∧
    (persistAll actions { output }).stream =
      (Call.finish WriterAction.onWriter actions { output := { output with replies := [] } }).stream ∧
    (persistAll actions { output }).stream =
      actions.foldl WriterAction.extend (Bits.ofBytes output.accepted.toList) ∧
    ∀ returned, w.close = .ok returned → w.fill = 0 ∧ returned = w.output := by
  have fresh (output : ByteOutput) : stream { output } = Bits.ofBytes output.accepted.toList := List.append_nil _
  have step (w : BitWriter) (action : WriterAction) (clear : w.Clear) := (accounted_make action clear).2.1
  have persistent := stream_persistAll (clear_new output) actions
  rw [fresh] at persistent
  refine ⟨?_, ?_, ?_, persistent, ?_⟩
  · have adds := Call.view_finish stream step (fun w action clear => (accounted_make action clear).2.2) actions (clear_new output)
    rwa [fresh] at adds
  · exact Call.forall_makeAll step (fun w action clear => (accounted_make action clear).1) actions (clear_new output)
  · rw [finish_eq_persistAll rfl, persistent, stream_persistAll (clear_new _), fresh]
  · intro returned closed
    unfold close at closed
    split at closed
    · cases closed
    · rename_i none
      split at closed
      · cases closed
      · cases closed
        exact ⟨not_not.1 none, rfl⟩

end Calls

end BitWriter

end HuffmanStrings
