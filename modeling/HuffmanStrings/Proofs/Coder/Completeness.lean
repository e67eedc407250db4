import Mathlib
import HuffmanStrings.Coder.Text
import HuffmanStrings.Proofs.Code.Completeness
import HuffmanStrings.Proofs.Coder.Delivery
import HuffmanStrings.Proofs.Coder.Training

/-!
Decoding with complete codes. Coders that were trained without a minimum have complete tables, so whatever they are
given to decode they know every code in it; they fail only where the bits do not suffice or a literal is no character.
-/

namespace HuffmanStrings

def FailsOnly {τ α : Type} (Causes : Failure → Prop) (act : EStateM Failure τ α) : Prop :=
  ∀ s failure s', act s = .error failure s' → Causes failure

namespace FailsOnly

variable {τ α β : Type} {Causes : Failure → Prop} {act : EStateM Failure τ α}

theorem pure (value : α) : FailsOnly Causes (pure value : EStateM Failure τ α) := by
  intro s failure s' failed
  cases failed

theorem throw {failure : Failure} (cause : Causes failure) :
    FailsOnly Causes (throw failure : EStateM Failure τ α) := by
  intro s other s' failed
  cases failed
  exact cause

theorem bind {next : α → EStateM Failure τ β} (first : FailsOnly Causes act)
    (second : ∀ value, FailsOnly Causes (next value)) : FailsOnly Causes (act >>= next) := by
  intro s failure s' failed
  simp only [Bind.bind, EStateM.bind] at failed
  cases acted : act s with
  | ok value middle =>
    rw [acted] at failed
    exact second value middle failure s' failed
  | error other middle =>
    rw [acted] at failed
    cases failed
    exact first s failure s' acted

theorem map (only : FailsOnly Causes act) (f : α → β) : FailsOnly Causes (f <$> act) :=
  only.bind fun value => .pure (f value)

end FailsOnly

namespace Decoder

variable {τ κ α : Type} {Causes : Failure → Prop} {d : Decoder τ α} {consumer : Consumer κ α}

theorem Delivers.causes (only : FailsOnly Causes d.next) {index : Nat} {kept : κ} {s : τ} {symbols : List α}
    {result : EStateM.Result Failure (τ × κ) Nat} (delivers : d.Delivers consumer index kept s symbols result)
    {failure : Failure} {final : τ × κ} (failed : result = .error failure final) : Causes failure := by
  induction delivers with
  | failed step =>
    cases failed
    exact only _ _ _ step
  | ended => cases failed
  | stopped => cases failed
  | wentOn _ _ _ ih => exact ih failed

theorem failsOnly_deliver (only : FailsOnly Causes d.next) (consumer : Consumer κ α) :
    FailsOnly Causes (d.deliver consumer) := by
  intro s failure final failed
  obtain ⟨symbols, delivers⟩ := exists_delivers d consumer 0 s.2 s.1
  exact delivers.causes only failed

theorem failsOnly_run (only : FailsOnly Causes d.next) (consumer : Consumer κ α) (kept : κ) :
    FailsOnly Causes (d.run consumer kept) := by
  intro s failure s' failed
  unfold run at failed
  split at failed
  case h_1 => cases failed
  case h_2 stopped =>
    cases failed
    exact failsOnly_deliver only consumer _ _ _ stopped

theorem failsOnly_collect (only : FailsOnly Causes d.next) (limit : Option Nat) :
    FailsOnly Causes (d.collect limit) := by
  unfold collect
  split
  · exact .pure []
  · exact (failsOnly_run only Collected.consumer { limit }).map _

end Decoder

/-- The causes that are left where every code is known: the bits do not suffice, or a literal is no character. -/
inductive Failure.ShortOrLiteral : Failure → Prop
  | outOfBits (requested available : Nat) : ShortOrLiteral (.outOfBits requested available)
  | invalidLiteral (value : Nat) : ShortOrLiteral (.invalidLiteral value)

open Failure (ShortOrLiteral)

namespace Session

variable {ω α : Type}

theorem failsOnly_onMedium {Causes : Failure → Prop} {act : EStateM Failure BitStore α} (only : FailsOnly Causes act) :
    FailsOnly Causes (onMedium act : EStateM Failure (Session BitStore ω) α) := by
  intro s failure s' failed
  unfold onMedium at failed
  split at failed
  case h_1 => cases failed
  case h_2 acted =>
    cases failed
    exact only _ _ _ acted

theorem failsOnly_note [Observer ω] {Causes : Failure → Prop} (event : CodeEvent) :
    FailsOnly Causes (note event : EStateM Failure (Session BitStore ω) Unit) := by
  intro s failure s' failed
  cases failed

theorem failsOnly_exhausted {Causes : Failure → Prop} :
    FailsOnly Causes (exhausted : EStateM Failure (Session BitStore ω) Bool) := by
  intro s failure s' failed
  cases failed

theorem failsOnly_read {count : Nat} (valid : ValidCount count) :
    FailsOnly ShortOrLiteral (onMedium (BitInput.read count) : EStateM Failure (Session BitStore ω) UInt64) := by
  apply failsOnly_onMedium
  intro s failure s' failed
  simp only [BitInput.read] at failed
  rcases Nat.lt_or_ge s.rest.length count with few | enough
  · rw [BitStore.read_eq_error valid few] at failed
    cases failed
    exact .outOfBits ..
  · rw [BitStore.read_eq_ok valid enough] at failed
    cases failed

theorem failsOnly_decode [DecidableEq α] {t : CodeTable α} (complete : t.Complete) :
    FailsOnly ShortOrLiteral (onMedium t.decode : EStateM Failure (Session BitStore ω) (α × CodeWord)) := by
  apply failsOnly_onMedium
  intro s failure s' failed
  rcases t.decode_cases s with ⟨_, _, _, _, result⟩ | ⟨-, -, result⟩ | ⟨-, -, result⟩
  · rw [result] at failed
    cases failed
  · exact absurd result (complete.known _ _ _)
  · rw [result] at failed
    cases failed
    exact .outOfBits ..

end Session

open Session (failsOnly_note failsOnly_exhausted failsOnly_read failsOnly_decode)

theorem Decoder.failsOnly_untilExhausted {ω α : Type} {Causes : Failure → Prop}
    {next : EStateM Failure (Session BitStore ω) (Option α)} {consumes : Consumes Session.remaining next}
    (only : FailsOnly Causes next) : FailsOnly Causes (untilExhausted next consumes).next := by
  refine .bind failsOnly_exhausted fun ended => ?_
  cases ended with
  | true => exact .pure none
  | false => exact only

namespace CharCoder

variable {ω : Type} [Observer ω] {coder : CharCoder}

theorem failsOnly_decodeLiteral (word : CodeWord) :
    FailsOnly ShortOrLiteral (decodeLiteral word : EStateM Failure (Session BitStore ω) Char) := by
  apply (failsOnly_read (by decide)).bind
  intro value
  cases literal? value with
  | some c => exact (failsOnly_note _).bind fun _ => .pure c
  | none => exact .throw (.invalidLiteral _)

theorem failsOnly_finish (entry : Letter × CodeWord) :
    FailsOnly ShortOrLiteral (finish entry : EStateM Failure (Session BitStore ω) (Option Char)) := by
  obtain ⟨letter, word⟩ := entry
  cases letter with
  | char c => exact (failsOnly_note _).bind fun _ => .pure (some c)
  | endOfString => exact (failsOnly_note _).bind fun _ => .pure none
  | escape => exact (failsOnly_decodeLiteral word).map some

variable (complete : coder.table.Complete)

include complete

theorem failsOnly_decodeChar :
    FailsOnly ShortOrLiteral (coder.decodeChar : EStateM Failure (Session BitStore ω) (Option Char)) :=
  (failsOnly_decode complete).bind failsOnly_finish

theorem failsOnly_decodeText :
    FailsOnly ShortOrLiteral (coder.decodeText : EStateM Failure (Session BitStore ω) String) :=
  Decoder.failsOnly_run (failsOnly_decodeChar complete) writer ""

theorem failsOnly_chars :
    FailsOnly ShortOrLiteral (coder.chars : Decoder (Session BitStore ω) Char).next :=
  Decoder.failsOnly_untilExhausted (failsOnly_decodeChar complete)

end CharCoder

namespace TextCoder

variable {ω : Type} [Observer ω] {coder : TextCoder} (complete : coder.table.Complete)
  (chars : coder.chars.table.Complete)

include complete chars

theorem failsOnly_decodeText :
    FailsOnly ShortOrLiteral (coder.decodeText : EStateM Failure (Session BitStore ω) String) := by
  apply (failsOnly_decode complete).bind
  rintro ⟨phrase, word⟩
  cases phrase with
  | text text => exact (failsOnly_note _).bind fun _ => .pure text
  | escape => exact (failsOnly_note _).bind fun _ => CharCoder.failsOnly_decodeText chars

theorem failsOnly_texts :
    FailsOnly ShortOrLiteral (coder.texts : Decoder (Session BitStore ω) String).next :=
  Decoder.failsOnly_untilExhausted ((failsOnly_decodeText complete chars).map some)

end TextCoder

theorem CodeTable.BuiltUnder.complete {α : Type} [DecidableEq α] {settings : Settings} {table : CodeTable α}
    (built : table.BuiltUnder settings) (least : settings.minimum = 1) : table.Complete := by
  obtain ⟨ranking, same, several, built⟩ := built
  exact complete_of_build (same.trans least) several built

/-- A table that is built for several symbols without a minimum is complete, however its lengths were found. So nothing
that a store holds is unknown to a coder that was trained without a minimum, nor to a coder for texts over such a coder
for characters. -/
theorem decode_complete :
    (∀ {α : Type} [DecidableEq α] (ranking : Ranking α) (maximum : Nat) (table : CodeTable α),
      ranking.minimum = 1 → 2 ≤ ranking.size → CodeTable.build ranking maximum = .ok table → table.Complete) ∧
    ∀ {ω κ : Type} [Observer ω] (settings : Settings), settings.minimum = 1 →
      (∀ coder : CharCoder, coder.Trained settings → ∀ (consumer : Consumer κ Char) (limit : Option Nat),
        FailsOnly ShortOrLiteral (coder.decodeChar : EStateM Failure (Session BitStore ω) (Option Char)) ∧
        FailsOnly ShortOrLiteral (coder.decodeText : EStateM Failure (Session BitStore ω) String) ∧
        FailsOnly ShortOrLiteral ((coder.chars : Decoder (Session BitStore ω) Char).deliver consumer) ∧
        FailsOnly ShortOrLiteral ((coder.chars : Decoder (Session BitStore ω) Char).collect limit)) ∧
      ∀ coder : TextCoder, coder.Trained settings → ∀ others : Settings, others.minimum = 1 →
        coder.chars.Trained others → ∀ (consumer : Consumer κ String) (limit : Option Nat),
          FailsOnly ShortOrLiteral (coder.decodeText : EStateM Failure (Session BitStore ω) String) ∧
          FailsOnly ShortOrLiteral ((coder.texts : Decoder (Session BitStore ω) String).deliver consumer) ∧
          FailsOnly ShortOrLiteral ((coder.texts : Decoder (Session BitStore ω) String).collect limit) := by
  refine ⟨fun ranking maximum table => CodeTable.complete_of_build, ?_⟩
  intro ω κ _ settings least
  constructor
  · intro coder trained consumer limit
    have complete := trained.builtUnder.complete least
    have next := CharCoder.failsOnly_chars (ω := ω) complete
    exact ⟨CharCoder.failsOnly_decodeChar complete, CharCoder.failsOnly_decodeText complete,
      Decoder.failsOnly_deliver next consumer, Decoder.failsOnly_collect next limit⟩
  · intro coder trained others leastOther charsTrained consumer limit
    have complete := trained.builtUnder.complete least
    have charsComplete := charsTrained.builtUnder.complete leastOther
    have next := TextCoder.failsOnly_texts (ω := ω) complete charsComplete
    exact ⟨TextCoder.failsOnly_decodeText complete charsComplete, Decoder.failsOnly_deliver next consumer,
      Decoder.failsOnly_collect next limit⟩

/-- Two characters, the end of texts and the escape fill the code of the characters. -/
theorem decode_complete_letters :
    ∃ (chars : CharCoder) (texts : TextCoder), CharCoder.ofFrequencies [('a', 5), ('b', 2)] 1 {} = .ok chars ∧
      TextCoder.ofFrequencies [("ab", 3)] chars {} = .ok texts ∧ chars.table.Complete ∧
      FailsOnly ShortOrLiteral (texts.decodeText : EStateM Failure (Session BitStore Unit) String) := by
  have letters : Ranking.build [(Letter.char 'a', 5), (.char 'b', 2), (.endOfString, 1)] (some .escape) 1 =
      .ok ⟨[⟨.char 'a', 5, 0⟩, ⟨.char 'b', 2, 1⟩, ⟨.endOfString, 1, 2⟩, ⟨.escape, 0, 3⟩], some .escape, 1⟩ := by cbv
  have phrases : Ranking.build [(Phrase.text "ab", 3)] (some .escape) 1 =
      .ok ⟨[⟨.text "ab", 3, 0⟩, ⟨.escape, 0, 1⟩], some .escape, 1⟩ := by cbv
  obtain ⟨chars, made⟩ : ∃ chars, CharCoder.ofFrequencies [('a', 5), ('b', 2)] 1 {} = .ok chars :=
    CharCoder.exists_ofFrequencies rfl rfl letters (by decide)
  obtain ⟨texts, trained, same⟩ : ∃ texts, TextCoder.ofFrequencies [("ab", 3)] chars {} = .ok texts ∧ texts.chars = chars :=
    TextCoder.exists_ofFrequencies rfl rfl phrases (by decide)
  obtain ⟨ranking, least, several, built⟩ := CharCoder.builtUnder_of_ofFrequencies made
  have charsTrained : texts.chars.Trained {} := same ▸ .frequencies made
  refine ⟨chars, texts, made, trained, decode_complete.1 ranking _ _ least several built, ?_⟩
  exact ((decode_complete.2 {} rfl).2 texts (.frequencies trained) {} rfl charsTrained (recorder none) none).1

end HuffmanStrings
