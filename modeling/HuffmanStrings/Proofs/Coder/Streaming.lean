import Mathlib
import HuffmanStrings.Proofs.Bits.Frame
import HuffmanStrings.Proofs.Bits.Reader
import HuffmanStrings.Proofs.Coder.Alike

/-!
Decoding from a store of bytes, and from an input of the same bytes. The reader keeps step with the store: both stand at
one position before the same bits. A read that fails leaves them apart, for only the reader passes the bits that did not
suffice; but both fail alike, and decoding ends there.
-/

namespace HuffmanStrings

/-- The reader stands where the store does, before the same bits, and nothing to come will be refused. -/
structure BitStore.Tracked (s : BitStore) (r : BitReader) : Prop where
  fill_le : r.fill ≤ 8
  rest : r.rest = s.rest
  position : r.position = s.cursor
  calm : ∀ fault, .refused fault ∉ r.input.replies

namespace BitStore

variable {s : BitStore} {r r' : BitReader} {count : Nat}

theorem Tracked.advance (tracked : s.Tracked r) (passed : r.Passed count r') : (s.advance count).Tracked r' where
  fill_le := passed.fill_le
  rest := by rw [passed.rest, rest_advance, tracked.rest]
  position := by rw [passed.position, cursor_advance, tracked.position]
  calm fault member := tracked.calm fault (passed.replies.mem member)

theorem tracked_ofBytes (bytes : List UInt8) : (ofBytes bytes).Tracked { input := { bytes } } where
  fill_le := Nat.zero_le 8
  rest := (toBits_ofBytes bytes).symm
  position := rfl
  calm _ := List.not_mem_nil

/-- Of a store and a reader no more is asked behind a failure than that it was the same. -/
theorem alike_read (valid : ValidCount count) :
    Alike Tracked (fun _ _ => True) (BitInput.read count : EStateM Failure BitStore UInt64)
      (BitInput.read count : EStateM Failure BitReader UInt64) := by
  intro s r tracked
  simp only [BitInput.read]
  rcases BitReader.read_cases tracked.fill_le valid with ⟨r', read, enough, passed⟩ | ⟨r', short, few, -⟩ |
    ⟨fault, _, _, -, member, -⟩
  · rw [tracked.rest] at read enough
    rw [read, read_eq_ok valid enough]
    exact .ok (tracked.advance passed)
  · rw [tracked.rest] at short few
    rw [short, read_eq_error valid few]
    exact .error trivial
  · exact absurd member (tracked.calm fault)

theorem alike_exhausted :
    Alike Tracked (fun _ _ => True) (BitInput.exhausted : EStateM Failure BitStore Bool)
      (BitInput.exhausted : EStateM Failure BitReader Bool) := by
  intro s r tracked
  simp only [BitInput.exhausted]
  rcases BitReader.exhausted_cases tracked.fill_le with ⟨r', answered, passed⟩ | ⟨fault, _, -, member, -⟩
  · have ended : decide (r.rest = []) = decide (s.size ≤ s.cursor) := by
      rw [decide_eq_decide, tracked.rest, ← List.length_eq_zero_iff, length_rest, left, Nat.sub_eq_zero_iff_le]
    rw [answered, ended]
    exact .ok (tracked.advance passed)
  · exact absurd member (tracked.calm fault)

end BitStore

namespace Session

variable {ω α : Type}

def Tracked (s : Session BitStore ω) (r : Session BitReader ω) : Prop :=
  s.medium.Tracked r.medium ∧ s.observer = r.observer

def Heard (s : Session BitStore ω) (r : Session BitReader ω) : Prop :=
  s.observer = r.observer

theorem alike_onMedium {act : EStateM Failure BitStore α} {act' : EStateM Failure BitReader α}
    (alike : Alike BitStore.Tracked (fun _ _ => True) act act') :
    Alike Tracked Heard (onMedium act : EStateM Failure (Session BitStore ω) α) (onMedium act') := by
  intro s r tracked
  simp only [onMedium]
  cases acted : act s.medium with
  | ok value medium =>
    obtain ⟨medium', acted', later⟩ := alike.ok tracked.1 acted
    rw [acted']
    exact .ok ⟨later, tracked.2⟩
  | error failure medium =>
    obtain ⟨medium', failed', -⟩ := alike.error tracked.1 acted
    rw [failed']
    exact .error tracked.2

variable [Observer ω]

theorem inStep_tracked : InStep (Tracked (ω := ω)) Heard where
  read valid := alike_onMedium (BitStore.alike_read valid)
  exhausted := alike_onMedium BitStore.alike_exhausted
  position tracked := tracked.1.position.symm
  note event _ _ tracked := .ok ⟨tracked.1, congrArg (Observer.note event) tracked.2⟩
  stop tracked := tracked.2

end Session

open Session (Tracked Heard inStep_tracked)

/-- Any bytes are decoded from an input as they are from a store, be they an encoding or not: what is delivered, what is
returned, each failure with its numbers and what the observer hears are the same, and both end at the same position
unless they fail. -/
theorem decode_streamed {ω : Type} [Observer ω] (chars : CharCoder) (texts : TextCoder) (bytes : List UInt8)
    (observer : ω) :
    let stored : Session BitStore ω := ⟨.ofBytes bytes, observer⟩
    let streamed : Session BitReader ω := ⟨{ input := { bytes } }, observer⟩
    Agree Tracked Heard (chars.decodeText stored) (chars.decodeText streamed) ∧
    Agree Tracked Heard (texts.decodeText stored) (texts.decodeText streamed) ∧
    Decoder.DeliversAlike Tracked Heard chars.chars chars.chars stored streamed ∧
    Decoder.DeliversAlike Tracked Heard texts.texts texts.texts stored streamed := by
  have start : Tracked (ω := ω) ⟨.ofBytes bytes, observer⟩ ⟨{ input := { bytes } }, observer⟩ :=
    ⟨BitStore.tracked_ofBytes bytes, rfl⟩
  exact ⟨chars.alike_decodeText inStep_tracked _ _ start, texts.alike_decodeText inStep_tracked _ _ start,
    Decoder.deliversAlike (chars.alike_chars inStep_tracked) start,
    Decoder.deliversAlike (texts.alike_texts inStep_tracked) start⟩

end HuffmanStrings
