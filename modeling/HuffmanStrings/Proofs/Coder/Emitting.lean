import HuffmanStrings.Proofs.Bits.Answers
import HuffmanStrings.Proofs.Bits.Frame
import HuffmanStrings.Proofs.Bits.Writer
import HuffmanStrings.Proofs.Coder.Text

/-!
Encoding to an output of bytes, and into a store. The output gets the bits that the store holds, up to the first offer
of a byte that fails; where none fails it gets the very bytes of the store, once the last of them is completed.
-/

namespace HuffmanStrings

namespace Session

variable {ω : Type} {w w' w'' : BitWriter} {bits others : List Bool}
  {result : EStateM.Result Failure (Session BitWriter ω) Unit}

inductive Sent (w : BitWriter) (bits : List Bool) : EStateM.Result Failure (Session BitWriter ω) Unit → Prop
  | whole {w' : BitWriter} {observer : ω} : w.Took bits w' → w'.fill < 8 → Sent w bits (.ok () ⟨w', observer⟩)
  | broken {w' : BitWriter} {observer : ω} {failure : Failure} {count : Nat} : count ≤ bits.length →
      w.Took (bits.take count) w' → Sent w bits (.error failure ⟨w', observer⟩)

theorem Sent.behind (second : Sent w' others result) (first : w.Took bits w') : Sent w (bits ++ others) result := by
  cases second with
  | whole later partly => exact .whole (first.trans later) partly
  | @broken _ _ _ count few later =>
    have fewer : bits.length + count ≤ (bits ++ others).length := by
      rw [List.length_append]
      exact Nat.add_le_add_left few _
    refine .broken fewer ?_
    rw [List.take_length_add_append]
    exact first.trans later

/-- From any writer that has room the action sends these bits to the output, and fails just if the output does. -/
def Sends (act : EStateM Failure (Session BitWriter ω) Unit) (bits : List Bool) : Prop :=
  ∀ w observer, w.Clear → w.fill < 8 →
    Sent w bits (act ⟨w, observer⟩) ∧ w.output.Answered (·.medium.output) (act ⟨w, observer⟩)

theorem sends_field {value : UInt64} {count : Nat} (valid : ValidCount count) :
    Sends (onMedium (BitOutput.write value count) : EStateM Failure (Session BitWriter ω) Unit)
      (Bits.ofNat count value.toNat) := by
  intro w observer clear _
  have answered := BitWriter.answered_write value valid w
  have sent := BitWriter.writeFrom_cases value clear valid.2
  have written : BitOutput.write value count w = BitWriter.writeFrom value count w := if_pos valid
  rw [written] at answered
  simp only [onMedium, written]
  rcases sent with ⟨w', done, partly, took⟩ | ⟨fault, w', taken, refused, -, few, took⟩
  · rw [done] at answered ⊢
    cases answered with
    | ok first all => exact ⟨.whole took partly, .ok first all⟩
  · rw [refused] at answered ⊢
    rw [← Bits.length_ofNat count value.toNat] at few
    cases answered with
    | error first failed => exact ⟨.broken few took, .error first failed⟩

theorem Sends.bind {act : EStateM Failure (Session BitWriter ω) Unit}
    {next : Unit → EStateM Failure (Session BitWriter ω) Unit} (first : Sends act bits) (second : Sends (next ()) others) :
    Sends (act >>= next) (bits ++ others) := by
  intro w observer clear partly
  obtain ⟨sent, answered⟩ := first w observer clear partly
  simp only [Bind.bind, EStateM.bind]
  generalize act ⟨w, observer⟩ = result at sent answered
  cases sent with
  | @whole w' observer' took partly' =>
    obtain ⟨sentToo, answeredToo⟩ := second w' observer' took.clear partly'
    cases answered with
    | ok given all => exact ⟨sentToo.behind took, answeredToo.after given all⟩
  | broken few took =>
    rw [← List.take_append_of_le_length few] at took
    have fewer : _ ≤ (bits ++ others).length := few.trans (List.length_append ▸ Nat.le_add_right _ _)
    cases answered with
    | error given failed => exact ⟨.broken fewer took, .error given failed⟩

variable [Observer ω]

theorem emission_sends : Emission (ω := ω) fun act bits _ => Sends act bits where
  pure := fun w _ clear partly => ⟨.whole (.nil clear) partly, .ok (.none w.output) (by simp)⟩
  bind := .bind
  note _ := fun w _ clear partly => ⟨.whole (.nil clear) partly, .ok (.none w.output) (by simp)⟩
  field := sends_field

end Session

namespace BitWriter

variable {w : BitWriter} {output : ByteOutput} {store : BitStore}

/-- Completing the last byte of a stream that holds the bits of a store. The zeros are as many as are missing to a whole
byte, and the output has got the bytes of the store and is returned, unless it fails to flush; or the byte is not taken,
and nothing has changed. -/
inductive Padded (output : ByteOutput) (store : BitStore) : EStateM.Result Failure BitWriter Nat → Prop
  | whole {w : BitWriter} : w.written = store.size →
      w.output.accepted.toList = output.accepted.toList ++ store.toBytes →
      w.close = (match output.flushFault with
        | none => .ok w.output
        | some fault => .error (.io fault)) →
      Padded output store (.ok ((8 - store.size % 8) % 8) w)
  | broken {w : BitWriter} {failure : Failure} : w.written = store.size →
      w.stream = Bits.ofBytes output.accepted.toList ++ store.toBits → Padded output store (.error failure w)

theorem padded_pad (valid : store.Valid) (clear : w.Clear) (partly : w.fill < 8) (written : w.written = store.size)
    (stream : w.stream = Bits.ofBytes output.accepted.toList ++ store.toBits)
    (flushFault : w.output.flushFault = output.flushFault) : Padded output store (pad w) := by
  have zeros : (if w.fill = 0 then 0 else 8 - w.fill) = (8 - store.size % 8) % 8 := by
    have length := congrArg List.length stream
    rw [length_stream, List.length_append, Bits.length_ofBytes, BitStore.length_toBits] at length
    split <;> omega
  have answered := answered_pad w
  rcases w.pad_cases with ⟨w', padded, empty, same, adds⟩ | ⟨fault, replies, refused⟩
  · obtain ⟨-, stream'⟩ := adds clear
    rw [padded, zeros] at answered ⊢
    have bytes : Bits.ofBytes w'.output.accepted.toList = Bits.ofBytes (output.accepted.toList ++ store.toBytes) :=
      calc
        Bits.ofBytes w'.output.accepted.toList = w'.stream := by
          rw [BitWriter.stream, held, empty, List.take_zero, List.append_nil]
        _ = Bits.ofBytes output.accepted.toList ++ store.toBits ++
            List.replicate ((8 - store.size % 8) % 8) false := by rw [stream', stream, zeros]
        _ = Bits.ofBytes (output.accepted.toList ++ store.toBytes) := by
          rw [Bits.ofBytes_append, valid.ofBytes_toBytes, List.append_assoc]
    cases answered with
    | ok given =>
      refine .whole (same.trans written) (Bits.ofBytes_injective bytes) ?_
      rw [close, if_neg (not_not.2 empty), given.flushFault, flushFault]
      cases output.flushFault <;> rfl
  · rw [refused]
    exact .broken written stream

end BitWriter

namespace Session

variable {ω : Type} {store : BitStore}

/-- What an encoding to an output comes to whose bits are in a store. Either all of them are on their way, and can be
completed to the bytes of the store; or the first of them are, as many as are counted. -/
inductive Streamed (output : ByteOutput) (store : BitStore) : EStateM.Result Failure (Session BitWriter ω) Unit → Prop
  | whole {w : BitWriter} {observer : ω} : w.written = store.size →
      w.stream = Bits.ofBytes output.accepted.toList ++ store.toBits →
      w.output.Answered BitWriter.output (BitWriter.pad w) → BitWriter.Padded output store (BitWriter.pad w) →
      Streamed output store (.ok () ⟨w, observer⟩)
  | broken {w : BitWriter} {observer : ω} {failure : Failure} : w.written ≤ store.size →
      w.stream = Bits.ofBytes output.accepted.toList ++ store.toBits.take w.written →
      Streamed output store (.error failure ⟨w, observer⟩)

theorem Sends.streamed {act : EStateM Failure (Session BitWriter ω) Unit} {bits : List Bool} (sends : Sends act bits)
    (valid : store.Valid) (held : store.toBits = bits) (output : ByteOutput) (observer : ω) :
    output.Answered (·.medium.output) (act ⟨{ output }, observer⟩) ∧ Streamed output store (act ⟨{ output }, observer⟩) := by
  have fresh : BitWriter.stream { output } = Bits.ofBytes output.accepted.toList := List.append_nil _
  have size : bits.length = store.size := held ▸ store.length_toBits
  obtain ⟨sent, answered⟩ := sends { output } observer (BitWriter.clear_new output) (Nat.zero_lt_succ 7)
  refine ⟨answered, ?_⟩
  generalize act ⟨{ output }, observer⟩ = result at sent answered
  cases sent with
  | @whole w _ took partly =>
    have written : w.written = store.size := took.written.trans ((Nat.zero_add _).trans size)
    have stream := took.stream
    rw [fresh, ← held] at stream
    cases answered with
    | ok given =>
      exact .whole written stream (BitWriter.answered_pad w)
        (BitWriter.padded_pad valid took.clear partly written stream given.flushFault)
  | @broken w _ _ count few took =>
    have written : w.written = count := (took.counted few).trans (Nat.zero_add _)
    have stream := took.stream
    rw [fresh, ← held, ← written] at stream
    exact .broken (written.trans_le (few.trans_eq size)) stream

end Session

/-- A list, or a text, is encoded to an output as it is encoded into a store. If the output fails, so does the encoding,
and the first bits of the store are on their way, as many as the writer has counted. If not, all of them are; their
number is that of the store, and once the last byte is completed the output has got the bytes of the store. -/
theorem encode_streamed {ω υ : Type} [Observer ω] [Observer υ] (chars : CharCoder) (texts : TextCoder)
    (output : ByteOutput) (observer : ω) (listener : υ) :
    let fresh : Session BitWriter υ := ⟨{ output }, listener⟩
    (∀ items, ∃ store heard, ListCoder.encodeList ⟨texts⟩ items observer = .ok store heard ∧
      output.Answered (·.medium.output) (texts.encodeTexts items fresh) ∧
      Session.Streamed output store (texts.encodeTexts items fresh)) ∧
    ∀ text, ∃ store heard, encodeFresh (chars.encodeText text) observer = .ok store heard ∧
      output.Answered (·.medium.output) (chars.encodeText text fresh) ∧
      Session.Streamed output store (chars.encodeText text fresh) := by
  intro fresh
  refine ⟨fun items => ?_, fun text => ?_⟩
  · obtain ⟨store, encoded, valid, held⟩ := exists_encodeFresh (texts.writes_encodeTexts (ω := ω) items)
    have sends := texts.emits_encodeTexts (Session.emission_sends (ω := υ)) items
    exact ⟨store, _, encoded observer, sends.streamed valid held output listener⟩
  · obtain ⟨store, encoded, valid, held⟩ := exists_encodeFresh (chars.writes_encodeText (ω := ω) text)
    have sends := chars.emits_encodeText (Session.emission_sends (ω := υ)) text
    exact ⟨store, _, encoded observer, sends.streamed valid held output listener⟩

end HuffmanStrings
