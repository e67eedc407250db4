import Mathlib
import HuffmanStrings.Coder.Text
import HuffmanStrings.Proofs.Bits.Writer
import HuffmanStrings.Proofs.Coder.Delivery
import HuffmanStrings.Proofs.Coder.Text

/-!
What an observer is told. Codes are reported when their last bit has been passed, so between two reports there may be
bits that are passed and not yet reported. An action is in balance if it reports the bits that it passes and those that
were owed before, except for those that it leaves owing; when it fails it has at least not reported more than that.
Whole encodings and decodings begin and end with nothing owed.
-/

namespace HuffmanStrings

/-- Where a medium stands, and what is told of a code that ends there. -/
structure Meter (σ : Type) where
  place : σ → Nat
  event (bits : Nat) (escaped : Bool) : CodeEvent

namespace Meter

def events {σ : Type} (meter : Meter σ) (codes : List (Nat × Bool)) : List CodeEvent :=
  codes.map fun code => meter.event code.1 code.2

def reading : Meter BitStore where
  place := BitStore.cursor
  event := .decoded

/-- Codes written to a sink that has taken as many bits as `place` says. -/
def writing {σ : Type} (place : σ → Nat) : Meter σ where
  place := place
  event := .encoded

inductive Moved {σ α : Type} (place : σ → Nat) (start : σ) (passes : α → Nat) : EStateM.Result Failure σ α → Prop
  | ok {value : α} {s : σ} : place s = place start + passes value → Moved place start passes (.ok value s)
  | error {failure : Failure} {s : σ} : place start ≤ place s → Moved place start passes (.error failure s)

def Faithful {σ : Type} [BitOutput σ] (place : σ → Nat) : Prop :=
  ∀ value count s, ValidCount count →
    Moved place s (fun _ => count) (BitOutput.write value count s : EStateM.Result Failure σ Unit)

end Meter

def totalBits (codes : List (Nat × Bool)) : Nat :=
  (codes.map (·.1)).sum

theorem Meter.events_append {σ : Type} (meter : Meter σ) (codes others : List (Nat × Bool)) :
    meter.events (codes ++ others) = meter.events codes ++ meter.events others :=
  List.map_append

theorem totalBits_append (codes others : List (Nat × Bool)) :
    totalBits (codes ++ others) = totalBits codes + totalBits others := by
  rw [totalBits, List.map_append, List.sum_append]
  rfl

namespace Session

variable {σ τ ω κ α β : Type} [Observer ω]

/-- An action has ended that began when so many bits were owed. Together with the bits now owing, the codes it has told
of are the bits that were owed and those that were passed; if it failed, the codes are no more than these. -/
inductive Balanced (meter : Meter σ) (sessionOf : τ → Session σ ω) (start : Session σ ω) (owed : Nat) (owes : α → Nat) :
    EStateM.Result Failure τ α → Prop
  | ok {value : α} {t : τ} (codes : List (Nat × Bool)) :
      (sessionOf t).observer = noteAll (meter.events codes) start.observer →
      meter.place start.medium + totalBits codes + owes value = owed + meter.place (sessionOf t).medium →
      Balanced meter sessionOf start owed owes (.ok value t)
  | error {failure : Failure} {t : τ} (codes : List (Nat × Bool)) :
      (sessionOf t).observer = noteAll (meter.events codes) start.observer →
      meter.place start.medium + totalBits codes ≤ owed + meter.place (sessionOf t).medium →
      Balanced meter sessionOf start owed owes (.error failure t)

/-- From `start` on, just the bits that were passed have been told of; after a failure, no more than these. -/
def Accounted (meter : Meter σ) (sessionOf : τ → Session σ ω) (start : Session σ ω)
    (result : EStateM.Result Failure τ α) : Prop :=
  Balanced meter sessionOf start 0 (fun _ => 0) result

def Balances (meter : Meter σ) (owed : Nat) (act : EStateM Failure (Session σ ω) α) (owes : α → Nat) : Prop :=
  ∀ s, Balanced meter id s owed owes (act s)

section Actions

variable {meter : Meter σ} {sessionOf : τ → Session σ ω} {owed : Nat} {owes : α → Nat} {owesToo : β → Nat}
  {act : EStateM Failure (Session σ ω) α}

theorem Balanced.behind {start middle : Session σ ω} {between : Nat} {codes : List (Nat × Bool)}
    {result : EStateM.Result Failure τ α} (later : Balanced meter sessionOf middle between owes result)
    (told : middle.observer = noteAll (meter.events codes) start.observer)
    (even : meter.place start.medium + totalBits codes + between = owed + meter.place middle.medium) :
    Balanced meter sessionOf start owed owes result := by
  have both (others : List (Nat × Bool)) : noteAll (meter.events others) middle.observer =
      noteAll (meter.events (codes ++ others)) start.observer := by
    rw [told, Meter.events_append, noteAll_append]
  cases later with
  | ok others toldToo evenToo =>
    refine .ok (codes ++ others) (toldToo.trans (both others)) ?_
    rw [totalBits_append]
    omega
  | error others toldToo within =>
    refine .error (codes ++ others) (toldToo.trans (both others)) ?_
    rw [totalBits_append]
    omega

theorem Balances.pure (value : α) (even : owes value = owed) :
    Balances meter owed (pure value : EStateM Failure (Session σ ω) α) owes := by
  intro s
  refine .ok [] rfl ?_
  simp only [totalBits, List.map_nil, List.sum_nil, id]
  omega

theorem Balances.throw (failure : Failure) :
    Balances meter owed (throw failure : EStateM Failure (Session σ ω) α) owes := by
  intro s
  refine .error [] rfl ?_
  simp only [totalBits, List.map_nil, List.sum_nil, id]
  omega

theorem Balances.bind {next : α → EStateM Failure (Session σ ω) β} (first : Balances meter owed act owes)
    (second : ∀ value, Balances meter (owes value) (next value) owesToo) :
    Balances meter owed (act >>= next) owesToo := by
  intro s
  have ended := first s
  simp only [Bind.bind, EStateM.bind]
  generalize act s = result at ended
  cases ended with
  | ok codes told even => exact (second _ _).behind told even
  | error codes told within => exact .error codes told within

theorem Balances.map {owes : β → Nat} (f : α → β) (balances : Balances meter owed act fun value => owes (f value)) :
    Balances meter owed (f <$> act) owes :=
  balances.bind fun value => .pure (f value) rfl

theorem balances_note (bits : Nat) (escaped : Bool) :
    Balances meter bits (note (meter.event bits escaped) : EStateM Failure (Session σ ω) Unit) fun _ => 0 := by
  intro s
  refine .ok [(bits, escaped)] rfl ?_
  simp only [totalBits, List.map_cons, List.map_nil, List.sum_cons, List.sum_nil, id]
  omega

theorem balances_onMedium {act : EStateM Failure σ α} (passes : α → Nat)
    (moves : ∀ s, Meter.Moved meter.place s passes (act s)) :
    Balances meter owed (onMedium act : EStateM Failure (Session σ ω) α) fun value => passes value + owed := by
  intro s
  have none : totalBits [] = 0 := rfl
  have moved := moves s.medium
  simp only [onMedium]
  generalize act s.medium = result at moved
  cases moved with
  | ok moved =>
    refine .ok [] rfl ?_
    simp only [none, id]
    omega
  | error moved =>
    refine .error [] rfl ?_
    simp only [none, id]
    omega

end Actions

section Reading

variable {owed : Nat}

theorem balances_read {count : Nat} (valid : ValidCount count) :
    Balances .reading owed (onMedium (BitInput.read count) : EStateM Failure (Session BitStore ω) UInt64)
      fun _ => count + owed := by
  apply balances_onMedium fun _ => count
  intro s
  simp only [BitInput.read]
  rcases Nat.lt_or_ge s.rest.length count with few | enough
  · rw [BitStore.read_eq_error valid few]
    exact .error (Nat.le_refl _)
  · rw [BitStore.read_eq_ok valid enough]
    exact .ok rfl

theorem balances_decode [DecidableEq α] (t : CodeTable α) :
    Balances .reading owed (onMedium t.decode : EStateM Failure (Session BitStore ω) (α × CodeWord))
      fun entry => entry.2.length + owed := by
  apply balances_onMedium fun entry : α × CodeWord => entry.2.length
  intro s
  rcases t.decode_cases s with ⟨symbol, word, -, -, done⟩ | ⟨-, -, failed⟩ | ⟨-, -, failed⟩
  · rw [done]
    exact .ok rfl
  · rw [failed]
    exact .error (Nat.le_add_right ..)
  · rw [failed]
    exact .error (Nat.le_add_right ..)

theorem balances_exhausted :
    Balances .reading 0 (exhausted : EStateM Failure (Session BitStore ω) Bool) fun _ => 0 :=
  balances_onMedium (fun _ => 0) fun _ => .ok rfl

end Reading

section Writing

variable [BitOutput σ] {place : σ → Nat} {owed : Nat} (faithful : Meter.Faithful place)
include faithful

theorem balances_field {value : UInt64} {count : Nat} (valid : ValidCount count) :
    Balances (.writing place) owed (onMedium (BitOutput.write value count) : EStateM Failure (Session σ ω) Unit)
      fun _ => count + owed :=
  balances_onMedium (fun _ => count) fun s => faithful value count s valid

theorem balances_word [DecidableEq α] {t : CodeTable α} {symbol : α} {word : CodeWord}
    (coded : t.codeOf symbol = some word) :
    Balances (.writing place) owed (onMedium word.writeTo : EStateM Failure (Session σ ω) Unit)
      fun _ => word.length + owed :=
  balances_field faithful (CodeTable.validCount_length (CodeTable.codeOf_eq_some_iff.1 coded))

end Writing

end Session

namespace BitWriter

open Meter (Moved)

/-- The bits of a byte are counted when they are taken, not when the byte is handed on. -/
theorem moved_flushIfFull (w : BitWriter) : Moved written w (fun _ => 0) (flushIfFull w) := by
  unfold flushIfFull
  split
  · rcases w.flush_cases with ⟨replies, flushed⟩ | ⟨fault, replies, refused⟩
    · rw [flushed]
      exact .ok rfl
    · rw [refused]
      exact .error (Nat.le_refl _)
  · exact .ok rfl

theorem moved_writeFrom (value : UInt64) (remaining : Nat) (w : BitWriter) :
    Moved written w (fun _ => remaining) (writeFrom value remaining w) := by
  fun_induction writeFrom value remaining w with
  | case1 w => exact w.moved_flushIfFull
  | case2 remaining w more failure w' refused =>
    have moved := w.moved_flushIfFull
    rw [refused] at moved
    cases moved with
    | error still => exact .error still
  | case3 remaining w more w' flushed ih =>
    have moved := w.moved_flushIfFull
    have taken : (w'.accept value remaining).written = w'.written + w'.share remaining := rfl
    have within : w'.share remaining ≤ remaining := Nat.min_le_left ..
    rw [flushed] at moved
    cases moved with
    | ok still =>
      generalize writeFrom value (remaining - w'.share remaining) (w'.accept value remaining) = result at ih
      cases ih with
      | ok later => exact .ok (by omega)
      | error later => exact .error (by omega)

theorem faithful_written : Meter.Faithful written := by
  intro value count w valid
  simp only [BitOutput.write, write, if_pos valid]
  exact moved_writeFrom value count w

end BitWriter

namespace Decoder

open Session (Balances Balanced Accounted)

variable {σ ω κ α : Type} [Observer ω] {meter : Meter σ} {d : Decoder (Session σ ω) α} {consumer : Consumer κ α}

theorem Delivers.accounted (next : Balances meter 0 d.next fun _ => 0) {index : Nat} {kept : κ} {s : Session σ ω}
    {symbols : List α} {result : EStateM.Result Failure (Session σ ω × κ) Nat}
    (delivers : d.Delivers consumer index kept s symbols result) : Accounted meter Prod.fst s result := by
  have one {s s' : Session σ ω} {symbol : Option α} (step : d.next s = .ok symbol s') :
      Balanced meter id s 0 (fun _ => 0) (.ok symbol s') := step ▸ next s
  induction delivers with
  | @failed _ _ s _ _ step =>
    have ended := next s
    rw [step] at ended
    cases ended with
    | error codes told within => exact .error codes told within
  | ended step =>
    cases one step with
    | ok codes told even => exact .ok codes told even
  | stopped step _ =>
    cases one step with
    | ok codes told even => exact .ok codes told even
  | wentOn step _ _ ih =>
    cases one step with
    | ok codes told even => exact ih.behind told even

theorem accounted_deliver (next : Balances meter 0 d.next fun _ => 0) (consumer : Consumer κ α) (kept : κ)
    (s : Session σ ω) : Accounted meter Prod.fst s (d.deliver consumer (s, kept)) := by
  obtain ⟨symbols, delivers⟩ := exists_delivers d consumer 0 kept s
  exact delivers.accounted next

theorem balances_run (next : Balances meter 0 d.next fun _ => 0) (consumer : Consumer κ α) (kept : κ) :
    Balances meter 0 (d.run consumer kept) fun _ => 0 := by
  intro s
  have ended := accounted_deliver next consumer kept s
  simp only [run]
  generalize d.deliver consumer (s, kept) = result at ended
  cases ended with
  | ok codes told even => exact .ok codes told even
  | error codes told within => exact .error codes told within

theorem balances_collect (next : Balances meter 0 d.next fun _ => 0) (limit : Option Nat) :
    Balances meter 0 (d.collect limit) fun _ => 0 := by
  rw [collect]
  split
  · exact .pure [] rfl
  · exact .map _ (balances_run next Collected.consumer { limit })

theorem balances_untilExhausted {next : EStateM Failure (Session BitStore ω) (Option α)}
    {consumes : Consumes Session.remaining next} (balances : Balances .reading 0 next fun _ => 0) :
    Balances .reading 0 (untilExhausted next consumes).next fun _ => 0 := by
  apply Session.balances_exhausted.bind
  intro ended
  cases ended with
  | true => exact .pure none rfl
  | false => exact balances

end Decoder

open Session (Balances balances_note balances_read balances_decode balances_word balances_field)

namespace CharCoder

variable {ω : Type} [Observer ω] (coder : CharCoder)

section Decoding

theorem balances_decodeLiteral (word : CodeWord) :
    Balances .reading word.length (decodeLiteral word : EStateM Failure (Session BitStore ω) Char) fun _ => 0 := by
  apply (balances_read (by decide)).bind
  intro value
  cases literal? value with
  | some c =>
    rw [Nat.add_comm]
    exact (balances_note (word.length + literalWidth) true).bind fun _ => .pure c rfl
  | none => exact .throw _

theorem balances_finish (entry : Letter × CodeWord) :
    Balances .reading entry.2.length (finish entry : EStateM Failure (Session BitStore ω) (Option Char))
      fun _ => 0 := by
  obtain ⟨letter, word⟩ := entry
  cases letter with
  | char c => exact (balances_note word.length false).bind fun _ => .pure (some c) rfl
  | endOfString => exact (balances_note word.length false).bind fun _ => .pure none rfl
  | escape => exact .map some (balances_decodeLiteral word)

theorem balances_decodeChar :
    Balances .reading 0 (coder.decodeChar : EStateM Failure (Session BitStore ω) (Option Char)) fun _ => 0 :=
  (balances_decode coder.table).bind balances_finish

theorem balances_decodeText :
    Balances .reading 0 (coder.decodeText : EStateM Failure (Session BitStore ω) String) fun _ => 0 :=
  Decoder.balances_run coder.balances_decodeChar writer ""

theorem balances_chars :
    Balances .reading 0 (coder.chars : Decoder (Session BitStore ω) Char).next fun _ => 0 :=
  Decoder.balances_untilExhausted coder.balances_decodeChar

end Decoding

section Encoding

variable {σ : Type} [BitOutput σ] {place : σ → Nat} (faithful : Meter.Faithful place)
include faithful

theorem balances_encodeChar (c : Char) :
    Balances (.writing place) 0 (coder.encodeChar c : EStateM Failure (Session σ ω) Unit) fun _ => 0 := by
  cases coded : coder.table.codeOf (.char c) with
  | some word =>
    simp only [encodeChar, coded]
    exact (balances_word faithful coded).bind fun _ => balances_note word.length false
  | none =>
    simp only [encodeChar, coded]
    apply (balances_word faithful coder.escapeWord_eq).bind
    intro _
    apply (balances_field faithful (by decide)).bind
    intro _
    rw [Nat.add_zero, Nat.add_comm]
    exact balances_note (coder.escapeWord.length + literalWidth) true

theorem balances_encodeChars (cs : List Char) :
    Balances (.writing place) 0 (coder.encodeChars cs : EStateM Failure (Session σ ω) Unit) fun _ => 0 := by
  induction cs with
  | nil => exact .pure () rfl
  | cons c cs ih => exact (coder.balances_encodeChar faithful c).bind fun _ => ih

theorem balances_encodeText (text : String) :
    Balances (.writing place) 0 (coder.encodeText text : EStateM Failure (Session σ ω) Unit) fun _ => 0 := by
  apply (coder.balances_encodeChars faithful text.toList).bind
  intro _
  exact (balances_word faithful coder.endWord_eq).bind fun _ => balances_note coder.endWord.length false

end Encoding

end CharCoder

namespace TextCoder

variable {ω : Type} [Observer ω] (coder : TextCoder)

section Decoding

theorem balances_finish (entry : Phrase × CodeWord) :
    Balances .reading entry.2.length (coder.finish entry : EStateM Failure (Session BitStore ω) String)
      fun _ => 0 := by
  obtain ⟨phrase, word⟩ := entry
  cases phrase with
  | text text => exact (balances_note word.length false).bind fun _ => .pure text rfl
  | escape => exact (balances_note word.length true).bind fun _ => coder.chars.balances_decodeText

theorem balances_decodeText :
    Balances .reading 0 (coder.decodeText : EStateM Failure (Session BitStore ω) String) fun _ => 0 :=
  (balances_decode coder.table).bind coder.balances_finish

theorem balances_texts :
    Balances .reading 0 (coder.texts : Decoder (Session BitStore ω) String).next fun _ => 0 :=
  Decoder.balances_untilExhausted (.map some coder.balances_decodeText)

end Decoding

section Encoding

variable {σ : Type} [BitOutput σ] {place : σ → Nat} (faithful : Meter.Faithful place)
include faithful

/-- The escape of a text is told of before its characters, each of which is told of behind its own bits. -/
theorem balances_encodeText (text : String) :
    Balances (.writing place) 0 (coder.encodeText text : EStateM Failure (Session σ ω) Unit) fun _ => 0 := by
  cases coded : coder.table.codeOf (.text text) with
  | some word =>
    simp only [encodeText, wordOf_eq, coded]
    exact (balances_word faithful coded).bind fun _ => balances_note word.length false
  | none =>
    simp only [encodeText, wordOf_eq, coded]
    apply (balances_word faithful coder.escapeWord_eq).bind
    intro _
    exact (balances_note coder.escapeWord.length true).bind fun _ => coder.chars.balances_encodeText faithful text

theorem balances_encodeTexts (texts : List String) :
    Balances (.writing place) 0 (coder.encodeTexts texts : EStateM Failure (Session σ ω) Unit) fun _ => 0 := by
  induction texts with
  | nil => exact .pure () rfl
  | cons text texts ih => exact (coder.balances_encodeText faithful text).bind fun _ => ih

end Encoding

end TextCoder

end HuffmanStrings
