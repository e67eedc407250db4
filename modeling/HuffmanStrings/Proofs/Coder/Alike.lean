import HuffmanStrings.Coder.Text
import HuffmanStrings.Proofs.Coder.Delivery

/-!
Decoding in two places at once. Two sessions keep step when their media answer each question alike and no event parts
their observers. Then whatever is decoded comes out alike in both: the same values, the same failures, and states that
still keep step unless decoding failed.
-/

namespace HuffmanStrings

inductive Agree {τ υ α : Type} (Step Stop : τ → υ → Prop) :
    EStateM.Result Failure τ α → EStateM.Result Failure υ α → Prop
  | ok {value : α} {s : τ} {r : υ} : Step s r → Agree Step Stop (.ok value s) (.ok value r)
  | error {failure : Failure} {s : τ} {r : υ} : Stop s r → Agree Step Stop (.error failure s) (.error failure r)

def Alike {τ υ α : Type} (Step Stop : τ → υ → Prop) (act : EStateM Failure τ α) (act' : EStateM Failure υ α) : Prop :=
  ∀ s r, Step s r → Agree Step Stop (act s) (act' r)

section Actions

variable {τ υ α β : Type} {Step Stop : τ → υ → Prop} {act : EStateM Failure τ α} {act' : EStateM Failure υ α}

theorem Alike.pure (value : α) :
    Alike Step Stop (pure value : EStateM Failure τ α) (pure value : EStateM Failure υ α) :=
  fun _ _ step => .ok step

theorem Alike.throw (stop : ∀ s r, Step s r → Stop s r) (failure : Failure) :
    Alike Step Stop (throw failure : EStateM Failure τ α) (throw failure : EStateM Failure υ α) :=
  fun s r step => .error (stop s r step)

theorem Alike.ok (alike : Alike Step Stop act act') {s s' : τ} {r : υ} {value : α} (step : Step s r)
    (done : act s = .ok value s') : ∃ r', act' r = .ok value r' ∧ Step s' r' := by
  have both := alike s r step
  rw [done] at both
  generalize act' r = result at both
  cases both with
  | ok later => exact ⟨_, rfl, later⟩

theorem Alike.error (alike : Alike Step Stop act act') {s s' : τ} {r : υ} {failure : Failure} (step : Step s r)
    (failed : act s = .error failure s') : ∃ r', act' r = .error failure r' ∧ Stop s' r' := by
  have both := alike s r step
  rw [failed] at both
  generalize act' r = result at both
  cases both with
  | error stop => exact ⟨_, rfl, stop⟩

theorem Alike.bind {next : α → EStateM Failure τ β} {next' : α → EStateM Failure υ β} (first : Alike Step Stop act act')
    (second : ∀ value, Alike Step Stop (next value) (next' value)) :
    Alike Step Stop (act >>= next) (act' >>= next') := by
  intro s r step
  simp only [Bind.bind, EStateM.bind]
  cases acted : act s with
  | ok value s' =>
    obtain ⟨r', acted', later⟩ := first.ok step acted
    rw [acted']
    exact second value s' r' later
  | error failure s' =>
    obtain ⟨r', failed', stop⟩ := first.error step acted
    rw [failed']
    exact .error stop

theorem Alike.map (first : Alike Step Stop act act') (f : α → β) : Alike Step Stop (f <$> act) (f <$> act') :=
  first.bind fun value => .pure (f value)

end Actions

namespace Decoder

variable {τ υ κ α : Type} {Step Stop : τ → υ → Prop} {d : Decoder τ α} {d' : Decoder υ α}

/-- A delivery goes alike from both: whoever is the consumer, it is handed the same symbols, with the same numbers, and
the results agree. -/
def DeliversAlike (Step Stop : τ → υ → Prop) (d : Decoder τ α) (d' : Decoder υ α) (s : τ) (r : υ) : Prop :=
  ∀ {κ : Type} (consumer : Consumer κ α) (kept : κ), ∃ symbols,
    d.Delivers consumer 0 kept s symbols (d.deliver consumer (s, kept)) ∧
    d'.Delivers consumer 0 kept r symbols (d'.deliver consumer (r, kept)) ∧
    Agree (fun final final' => Step final.1 final'.1 ∧ final.2 = final'.2)
      (fun final final' => Stop final.1 final'.1 ∧ final.2 = final'.2)
      (d.deliver consumer (s, kept)) (d'.deliver consumer (r, kept))

theorem Delivers.alike (next : Alike Step Stop d.next d'.next) {consumer : Consumer κ α} {index : Nat} {kept : κ}
    {symbols : List α} {result : EStateM.Result Failure (τ × κ) Nat} {s : τ} {r : υ}
    (delivers : d.Delivers consumer index kept s symbols result) (step : Step s r) :
    ∃ result', d'.Delivers consumer index kept r symbols result' ∧
      Agree (fun final final' => Step final.1 final'.1 ∧ final.2 = final'.2)
        (fun final final' => Stop final.1 final'.1 ∧ final.2 = final'.2) result result' := by
  -- The consumer sees only symbols and numbers, so it answers both alike and the states still keep step.
  induction delivers generalizing r with
  | failed failed =>
    obtain ⟨r', failed', stop⟩ := next.error step failed
    exact ⟨_, .failed failed', .error ⟨stop, rfl⟩⟩
  | ended ended =>
    obtain ⟨r', ended', later⟩ := next.ok step ended
    exact ⟨_, .ended ended', .ok ⟨later, rfl⟩⟩
  | stopped given enough =>
    obtain ⟨r', given', later⟩ := next.ok step given
    exact ⟨_, .stopped given' enough, .ok ⟨later, rfl⟩⟩
  | wentOn given more _ ih =>
    obtain ⟨r', given', later⟩ := next.ok step given
    obtain ⟨result', delivers, agree⟩ := ih later
    exact ⟨result', .wentOn given' more delivers, agree⟩

theorem deliversAlike (next : Alike Step Stop d.next d'.next) {s : τ} {r : υ} (step : Step s r) :
    DeliversAlike Step Stop d d' s r := by
  intro κ consumer kept
  obtain ⟨symbols, delivers⟩ := exists_delivers d consumer 0 kept s
  obtain ⟨result', delivers', agree⟩ := delivers.alike next step
  obtain rfl := delivers'.deliverFrom_eq
  exact ⟨symbols, delivers, delivers', agree⟩

theorem alike_run (next : Alike Step Stop d.next d'.next) (consumer : Consumer κ α) (kept : κ) :
    Alike Step Stop (d.run consumer kept) (d'.run consumer kept) := by
  intro s r step
  obtain ⟨_, -, -, agree⟩ := deliversAlike next step consumer kept
  simp only [run]
  generalize d.deliver consumer (s, kept) = result at agree
  generalize d'.deliver consumer (r, kept) = result' at agree
  cases agree with
  | ok both =>
    obtain ⟨later, same⟩ := both
    simp only [same]
    exact .ok later
  | error both => exact .error both.1

theorem alike_collect (next : Alike Step Stop d.next d'.next) (limit : Option Nat) :
    Alike Step Stop (d.collect limit) (d'.collect limit) := by
  unfold collect
  split
  · exact .pure []
  · exact (alike_run next Collected.consumer { limit }).map _

end Decoder

namespace Session

variable {σ ρ ω υ α β : Type}

theorem onMedium_bind (act : EStateM Failure σ α) (next : α → EStateM Failure σ β) :
    (onMedium (act >>= next) : EStateM Failure (Session σ ω) β) = onMedium act >>= fun value => onMedium (next value) := by
  funext s
  simp only [onMedium, Bind.bind, EStateM.bind]
  cases act s.medium with
  | ok value medium => rfl
  | error failure medium => rfl

/-- Sessions that keep step: all that decoding asks of a medium, or tells an observer, goes alike in both. -/
structure InStep [BitInput σ] [BitInput ρ] [Observer ω] [Observer υ]
    (Step Stop : Session σ ω → Session ρ υ → Prop) : Prop where
  read {count : Nat} : ValidCount count →
    Alike Step Stop (onMedium (BitInput.read count)) (onMedium (BitInput.read count))
  exhausted : Alike Step Stop exhausted exhausted
  position {s : Session σ ω} {r : Session ρ υ} : Step s r → BitInput.position s.medium = BitInput.position r.medium
  note (event : CodeEvent) : Alike Step Stop (note event) (note event)
  stop {s : Session σ ω} {r : Session ρ υ} : Step s r → Stop s r

end Session

section Decoding

open Session (InStep onMedium)

variable {σ ρ ω υ : Type} [BitInput σ] [BitInput ρ] [Observer ω] [Observer υ]
  {Step Stop : Session σ ω → Session ρ υ → Prop} (inStep : InStep Step Stop)
include inStep

namespace CodeTable

variable {α : Type} (t : CodeTable α)

theorem alike_decodeFrom (start : Nat) (buckets : List Bucket) (value : UInt64) :
    Alike Step Stop (onMedium (t.decodeFrom start buckets value)) (onMedium (t.decodeFrom start buckets value)) := by
  induction buckets generalizing value with
  | nil => exact .throw (fun _ _ => inStep.stop) _
  | cons bucket longer ih =>
    simp only [decodeFrom, Session.onMedium_bind]
    refine .bind (inStep.read (by decide)) fun bit => ?_
    cases t.pick? bucket (2 * value + bit) with
    | some entry => exact .pure entry
    | none => exact ih _

theorem alike_decode : Alike Step Stop (onMedium t.decode) (onMedium t.decode) := by
  intro s r step
  have position := inStep.position step
  show Agree Step Stop (onMedium (t.decodeFrom (BitInput.position s.medium) t.buckets 0) s)
    (onMedium (t.decodeFrom (BitInput.position r.medium) t.buckets 0) r)
  rw [position]
  exact t.alike_decodeFrom inStep _ _ _ s r step

end CodeTable

theorem Decoder.alike_untilExhausted {α : Type} {next : EStateM Failure (Session σ ω) (Option α)}
    {next' : EStateM Failure (Session ρ υ) (Option α)} {consumes : Consumes Session.remaining next}
    {consumes' : Consumes Session.remaining next'} (alike : Alike Step Stop next next') :
    Alike Step Stop (untilExhausted next consumes).next (untilExhausted next' consumes').next := by
  refine .bind inStep.exhausted fun ended => ?_
  cases ended with
  | true => exact .pure none
  | false => exact alike

namespace CharCoder

variable (coder : CharCoder)

theorem alike_decodeLiteral (word : CodeWord) : Alike Step Stop (decodeLiteral word) (decodeLiteral word) := by
  refine .bind (inStep.read (by decide)) fun value => ?_
  cases literal? value with
  | some c => exact .bind (inStep.note _) fun _ => .pure c
  | none => exact .throw (fun _ _ => inStep.stop) _

theorem alike_finish (entry : Letter × CodeWord) : Alike Step Stop (finish entry) (finish entry) := by
  obtain ⟨letter, word⟩ := entry
  cases letter with
  | char c => exact .bind (inStep.note _) fun _ => .pure (some c)
  | endOfString => exact .bind (inStep.note _) fun _ => .pure none
  | escape => exact (alike_decodeLiteral inStep word).map some

theorem alike_decodeChar : Alike Step Stop coder.decodeChar coder.decodeChar :=
  .bind (coder.table.alike_decode inStep) (alike_finish inStep)

theorem alike_decodeText : Alike Step Stop coder.decodeText coder.decodeText :=
  Decoder.alike_run (coder.alike_decodeChar inStep) writer ""

theorem alike_chars : Alike Step Stop coder.chars.next coder.chars.next :=
  Decoder.alike_untilExhausted inStep (coder.alike_decodeChar inStep)

end CharCoder

namespace TextCoder

variable (coder : TextCoder)

theorem alike_finish (entry : Phrase × CodeWord) : Alike Step Stop (coder.finish entry) (coder.finish entry) := by
  obtain ⟨phrase, word⟩ := entry
  cases phrase with
  | text text => exact .bind (inStep.note _) fun _ => .pure text
  | escape => exact .bind (inStep.note _) fun _ => coder.chars.alike_decodeText inStep

theorem alike_decodeText : Alike Step Stop coder.decodeText coder.decodeText :=
  .bind (coder.table.alike_decode inStep) (coder.alike_finish inStep)

theorem alike_texts : Alike Step Stop coder.texts.next coder.texts.next :=
  Decoder.alike_untilExhausted inStep ((coder.alike_decodeText inStep).map some)

end TextCoder

end Decoding

end HuffmanStrings
