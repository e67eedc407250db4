import Mathlib
import HuffmanStrings.Coder.Text
import HuffmanStrings.Proofs.Coder.Delivery

/-!
Decoding whatever a store holds, be it an encoding or not. Decoding ends, with a value or for one of three causes. For
each symbol at least one bit was passed, none behind the end, and nothing but the cursor has changed.
-/

namespace HuffmanStrings

/-- The causes for which a store is rejected. An escaped literal is rejected only if it is no character, being a surrogate
or beyond the last character. -/
inductive Failure.Rejects : Failure → Prop
  | outOfBits (requested available : Nat) : Rejects (.outOfBits requested available)
  | unknownCode (position : Nat) : Rejects (.unknownCode position)
  | invalidLiteral {value : Nat} : 0xD800 ≤ value ∧ value ≤ 0xDFFF ∨ 0x10FFFF < value →
      Rejects (.invalidLiteral value)

/-- The store was read on: at least so many bits were passed, and only the cursor has moved. It ends within the store,
unless it stood behind the end before. -/
structure BitStore.ReadOn (s : BitStore) (least : Nat) (s' : BitStore) : Prop where
  bytes : s'.bytes = s.bytes
  size : s'.size = s.size
  passed : s.cursor + least ≤ s'.cursor
  within : s'.cursor ≤ max s.cursor s.size

namespace BitStore.ReadOn

variable {s s' s'' : BitStore} {least more : Nat}

theorem none (s : BitStore) : s.ReadOn 0 s :=
  ⟨rfl, rfl, Nat.le_refl _, Nat.le_max_left ..⟩

theorem trans (first : s.ReadOn least s') (second : s'.ReadOn more s'') : s.ReadOn (least + more) s'' where
  bytes := second.bytes.trans first.bytes
  size := second.size.trans first.size
  passed := by
    have := first.passed
    have := second.passed
    omega
  within := by
    have := first.within
    have := second.within
    rw [first.size] at this
    omega

theorem weaken (read : s.ReadOn more s') (fewer : least ≤ more) : s.ReadOn least s' :=
  { read with passed := (Nat.add_le_add_left fewer _).trans read.passed }

theorem advance (within : least ≤ s.rest.length) : s.ReadOn least (s.advance least) where
  bytes := rfl
  size := rfl
  passed := Nat.le_refl _
  within := by
    rw [length_rest, left] at within
    rw [cursor_advance]
    omega

theorem le_left (read : s.ReadOn least s') : least ≤ s.left := by
  have := read.passed
  have := read.within
  unfold left
  omega

end BitStore.ReadOn

namespace Session

variable {ω α β : Type}

inductive Ends (start : BitStore) (least : α → Nat) : EStateM.Result Failure (Session BitStore ω) α → Prop
  | ok {value : α} {s : Session BitStore ω} : start.ReadOn (least value) s.medium → Ends start least (.ok value s)
  | rejected {failure : Failure} {s : Session BitStore ω} : failure.Rejects → start.ReadOn 0 s.medium →
      Ends start least (.error failure s)

def Safe (least : α → Nat) (act : EStateM Failure (Session BitStore ω) α) : Prop :=
  ∀ s, Ends s.medium least (act s)

section Actions

variable {least : α → Nat} {act : EStateM Failure (Session BitStore ω) α}

theorem Safe.ok (safe : Safe least act) {s s' : Session BitStore ω} {value : α} (done : act s = .ok value s') :
    s.medium.ReadOn (least value) s'.medium := by
  have ended := safe s
  rw [done] at ended
  cases ended with
  | ok read => exact read

theorem Safe.error (safe : Safe least act) {s s' : Session BitStore ω} {failure : Failure}
    (failed : act s = .error failure s') : failure.Rejects ∧ s.medium.ReadOn 0 s'.medium := by
  have ended := safe s
  rw [failed] at ended
  cases ended with
  | rejected cause read => exact ⟨cause, read⟩

theorem Safe.pure {value : α} (free : least value = 0) :
    Safe least (pure value : EStateM Failure (Session BitStore ω) α) := by
  intro s
  refine .ok ?_
  rw [free]
  exact .none s.medium

theorem Safe.weaken {fewer : α → Nat} (safe : Safe least act) (below : ∀ value, fewer value ≤ least value) :
    Safe fewer act := by
  intro s
  cases ended : act s with
  | ok value s' => exact .ok ((safe.ok ended).weaken (below value))
  | error failure s' =>
    obtain ⟨cause, read⟩ := safe.error ended
    exact .rejected cause read

theorem Safe.bind_add {few : Nat} {more : β → Nat} {next : α → EStateM Failure (Session BitStore ω) β}
    (first : Safe (fun _ => few) act) (second : ∀ value, Safe more (next value)) :
    Safe (fun result => few + more result) (act >>= next) := by
  intro s
  simp only [Bind.bind, EStateM.bind]
  cases ended : act s with
  | ok value s' =>
    have read := first.ok ended
    simp only
    cases later : next value s' with
    | ok result s'' => exact .ok (read.trans ((second value).ok later))
    | error failure s'' =>
      obtain ⟨cause, read'⟩ := (second value).error later
      exact .rejected cause ((read.trans read').weaken (Nat.zero_le _))
  | error failure s' =>
    obtain ⟨cause, read⟩ := first.error ended
    exact .rejected cause read

theorem Safe.bind {few : Nat} {next : α → EStateM Failure (Session BitStore ω) β} (first : Safe (fun _ => few) act)
    (second : ∀ value, Safe (fun _ => 0) (next value)) : Safe (fun _ => few) (act >>= next) :=
  first.bind_add second

theorem Safe.behind {more : β → Nat} {next : α → EStateM Failure (Session BitStore ω) β} (first : Safe (fun _ => 0) act)
    (second : ∀ value, Safe more (next value)) : Safe more (act >>= next) :=
  (first.bind_add second).weaken fun result => (Nat.zero_add (more result)).ge

theorem Safe.map {more : β → Nat} (f : α → β) (safe : Safe (fun value => more (f value)) act) :
    Safe more (f <$> act) := by
  intro s
  simp only [Functor.map, EStateM.map]
  cases ended : act s with
  | ok value s' => exact .ok (safe.ok ended)
  | error failure s' =>
    obtain ⟨cause, read⟩ := safe.error ended
    exact .rejected cause read

theorem Safe.supplying {next : EStateM Failure (Session BitStore ω) (Option α)} (safe : Safe (fun _ => 1) next) :
    Safe (fun symbol => symbol.elim 0 fun _ => 1) next :=
  safe.weaken fun symbol => match symbol with
    | none => Nat.zero_le 1
    | some _ => Nat.le_refl 1

theorem safe_throw {failure : Failure} (cause : failure.Rejects) :
    Safe least (throw failure : EStateM Failure (Session BitStore ω) α) :=
  fun s => .rejected cause (.none s.medium)

theorem safe_note [Observer ω] (event : CodeEvent) :
    Safe (fun _ => 0) (note event : EStateM Failure (Session BitStore ω) Unit) :=
  fun s => .ok (.none s.medium)

theorem safe_exhausted : Safe (fun _ => 0) (exhausted : EStateM Failure (Session BitStore ω) Bool) :=
  fun s => .ok (.none s.medium)

theorem safe_read {count : Nat} (valid : ValidCount count) :
    Safe (fun _ => count) (onMedium (BitInput.read count) : EStateM Failure (Session BitStore ω) UInt64) := by
  intro s
  simp only [onMedium, BitInput.read]
  rcases Nat.lt_or_ge s.medium.rest.length count with few | enough
  · rw [BitStore.read_eq_error valid few]
    exact .rejected (.outOfBits ..) (.none s.medium)
  · rw [BitStore.read_eq_ok valid enough]
    exact .ok (.advance enough)

theorem safe_decode [DecidableEq α] (t : CodeTable α) :
    Safe (fun _ => 1) (onMedium t.decode : EStateM Failure (Session BitStore ω) (α × CodeWord)) := by
  intro s
  simp only [onMedium]
  rcases t.decode_cases s.medium with ⟨symbol, word, coded, begins, done⟩ | ⟨-, long, failed⟩ | ⟨-, -, failed⟩
  · have positive := (CodeTable.length_range (CodeTable.codeOf_eq_some_iff.1 coded)).1
    have within := begins.length_le
    rw [CodeWord.length_toBits] at within
    rw [done]
    exact .ok ((BitStore.ReadOn.advance within).weaken positive)
  · rw [failed]
    exact .rejected (.unknownCode _) ((BitStore.ReadOn.advance long).weaken (Nat.zero_le _))
  · rw [failed]
    exact .rejected (.outOfBits ..) ((BitStore.ReadOn.advance (Nat.le_refl _)).weaken (Nat.zero_le _))

end Actions

end Session

namespace Decoder

open Session

variable {ω κ α : Type} {d : Decoder (Session BitStore ω) α} {consumer : Consumer κ α} {index : Nat} {kept : κ}
  {symbols : List α} {s : Session BitStore ω} {result : EStateM.Result Failure (Session BitStore ω × κ) Nat}

/-- For each symbol a decoder passes at least one bit. -/
def Safe (d : Decoder (Session BitStore ω) α) : Prop :=
  Session.Safe (fun symbol => symbol.elim 0 fun _ => 1) d.next

/-- A delivery from number `first` on has ended, after as many symbols at least as many bits, and counted them; or by a
rejection after as many. -/
inductive Ends (start : BitStore) (first count : Nat) :
    EStateM.Result Failure (Session BitStore ω × κ) Nat → Prop
  | ok {s : Session BitStore ω} {kept : κ} : start.ReadOn count s.medium →
      Ends start first count (.ok (first + count) (s, kept))
  | rejected {failure : Failure} {s : Session BitStore ω} {kept : κ} : failure.Rejects →
      start.ReadOn count s.medium → Ends start first count (.error failure (s, kept))

theorem Safe.supplied (safe : d.Safe) {s' : Session BitStore ω} {symbol : α} (step : d.next s = .ok (some symbol) s') :
    s.medium.ReadOn 1 s'.medium :=
  Session.Safe.ok safe step

theorem Safe.finished (safe : d.Safe) {s' : Session BitStore ω} (step : d.next s = .ok none s') :
    s.medium.ReadOn 0 s'.medium :=
  Session.Safe.ok safe step

theorem Delivers.ends (delivers : d.Delivers consumer index kept s symbols result) (safe : d.Safe) :
    Ends s.medium index symbols.length result := by
  induction delivers with
  | failed step =>
    obtain ⟨cause, read⟩ := Session.Safe.error safe step
    exact .rejected cause read
  | ended step => exact .ok (safe.finished step)
  | stopped step _ => exact .ok (safe.supplied step)
  | @wentOn index kept kept' s s' symbol rest result step _ _ ih =>
    have first := safe.supplied step
    have count : (symbol :: rest).length = 1 + rest.length := by rw [List.length_cons, Nat.add_comm]
    rw [count]
    cases ih with
    | ok later =>
      rw [Nat.add_assoc]
      exact .ok (first.trans later)
    | rejected cause later => exact .rejected cause (first.trans later)

theorem Ends.le_left {start : BitStore} {first count : Nat} (ended : Ends start first count result) :
    count ≤ start.left := by
  cases ended with
  | ok read => exact read.le_left
  | rejected _ read => exact read.le_left

/-- A delivery hands over some symbols, no more than there are bits, and ends with their number or by a rejection, having
passed at least one bit for each. -/
def DeliversSafely (d : Decoder (Session BitStore ω) α) (consumer : Consumer κ α) (kept : κ) (s : Session BitStore ω)
    (result : EStateM.Result Failure (Session BitStore ω × κ) Nat) : Prop :=
  ∃ symbols, d.Delivers consumer 0 kept s symbols result ∧ symbols.length ≤ s.medium.left ∧
    Ends s.medium 0 symbols.length result

theorem Safe.deliversSafely (safe : d.Safe) (consumer : Consumer κ α) (kept : κ) (s : Session BitStore ω) :
    d.DeliversSafely consumer kept s (d.deliver consumer (s, kept)) := by
  obtain ⟨symbols, delivers⟩ := exists_delivers d consumer 0 kept s
  have ended := delivers.ends safe
  exact ⟨symbols, delivers, ended.le_left, ended⟩

theorem Delivers.size_le {size : κ → Nat} (grows : ∀ index symbol kept,
      size (consumer.accept index symbol kept).2 ≤ size kept + 1)
    (delivers : d.Delivers consumer index kept s symbols result) {count : Nat} {final : Session BitStore ω × κ}
    (done : result = .ok count final) : size final.2 ≤ size kept + symbols.length := by
  induction delivers with
  | failed => cases done
  | ended => cases done; exact Nat.le_refl _
  | @stopped index kept _ _ _ symbol _ enough =>
    cases done
    have more := grows index symbol kept
    rwa [enough] at more
  | @wentOn index kept kept' _ _ symbol rest _ _ given _ ih =>
    have more := grows index symbol kept
    have later := ih done
    rw [given] at more
    calc
      size final.2 ≤ size kept' + rest.length := later
      _ ≤ size kept + 1 + rest.length := Nat.add_le_add_right more _
      _ = size kept + (symbol :: rest).length := by rw [List.length_cons, Nat.add_assoc, Nat.add_comm 1]

theorem safe_run (safe : d.Safe) (size : κ → Nat) (grows : ∀ index symbol kept,
    size (consumer.accept index symbol kept).2 ≤ size kept + 1) (empty : size kept = 0) :
    Session.Safe size (d.run consumer kept) := by
  intro s
  obtain ⟨symbols, delivers⟩ := exists_delivers d consumer 0 kept s
  have ended := delivers.ends safe
  -- What is kept is no larger than the symbols delivered are many, and each of these has taken a bit.
  have bound (count : Nat) (final : Session BitStore ω × κ)
      (done : d.deliverFrom consumer 0 kept s = .ok count final) := delivers.size_le grows done
  simp only [run, deliver]
  generalize d.deliverFrom consumer 0 kept s = result at ended bound
  cases ended with
  | ok read =>
    have few := bound _ _ rfl
    rw [empty, Nat.zero_add] at few
    exact .ok (read.weaken few)
  | rejected cause read => exact .rejected cause (read.weaken (Nat.zero_le _))

theorem safe_collect (safe : d.Safe) (limit : Option Nat) : Session.Safe List.length (d.collect limit) := by
  have grows (index : Nat) (symbol : α) (kept : Collected α) :
      (Collected.consumer.accept index symbol kept).2.items.size ≤ kept.items.size + 1 := by
    simp only [Collected.consumer, Collected.take]
    split <;> simp
  rw [collect]
  split
  · exact .pure rfl
  · exact .map _ (safe_run safe (fun kept : Collected α => kept.items.size) grows rfl)

theorem safe_untilExhausted {next : EStateM Failure (Session BitStore ω) (Option α)}
    {consumes : Consumes Session.remaining next} (safe : Session.Safe (fun _ => 1) next) :
    (untilExhausted next consumes).Safe := by
  refine .behind safe_exhausted fun ended => ?_
  cases ended with
  | true => exact .pure rfl
  | false => exact safe.supplying

end Decoder

open Session (safe_throw safe_note safe_read safe_decode)

namespace CharCoder

variable {ω : Type} [Observer ω] (coder : CharCoder)

theorem literal?_eq_none {value : UInt64} (rejected : literal? value = none) :
    0xD800 ≤ value.toNat ∧ value.toNat ≤ 0xDFFF ∨ 0x10FFFF < value.toNat := by
  by_contra other
  have valid : value.toNat.isValidChar := by
    unfold Nat.isValidChar
    omega
  rw [literal?, dif_pos valid] at rejected
  cases rejected

theorem safe_decodeLiteral (word : CodeWord) :
    Session.Safe (fun _ => 0) (decodeLiteral word : EStateM Failure (Session BitStore ω) Char) := by
  have field : Session.Safe (fun _ => 0)
      (Session.onMedium (BitInput.read literalWidth) : EStateM Failure (Session BitStore ω) UInt64) :=
    (safe_read (by decide)).weaken fun _ => Nat.zero_le _
  refine .bind field fun value => ?_
  cases known : literal? value with
  | some c => exact .bind (safe_note _) fun _ => .pure rfl
  | none => exact safe_throw (.invalidLiteral (literal?_eq_none known))

theorem safe_finish (entry : Letter × CodeWord) :
    Session.Safe (fun _ => 0) (finish entry : EStateM Failure (Session BitStore ω) (Option Char)) := by
  obtain ⟨letter, word⟩ := entry
  cases letter with
  | char c => exact .bind (safe_note _) fun _ => .pure rfl
  | endOfString => exact .bind (safe_note _) fun _ => .pure rfl
  | escape => exact .map some (safe_decodeLiteral word)

theorem safe_decodeChar :
    Session.Safe (fun _ => 1) (coder.decodeChar : EStateM Failure (Session BitStore ω) (Option Char)) :=
  (safe_decode coder.table).bind safe_finish

theorem safe_tokens : (coder.tokens : Decoder (Session BitStore ω) Char).Safe :=
  coder.safe_decodeChar.supplying

theorem safe_chars : (coder.chars : Decoder (Session BitStore ω) Char).Safe :=
  Decoder.safe_untilExhausted coder.safe_decodeChar

theorem safe_decodeText :
    Session.Safe String.length (coder.decodeText : EStateM Failure (Session BitStore ω) String) :=
  Decoder.safe_run coder.safe_tokens String.length (fun _ c _ => (String.length_push c).le) rfl

end CharCoder

namespace TextCoder

variable {ω : Type} [Observer ω] (coder : TextCoder)

theorem safe_finish (entry : Phrase × CodeWord) :
    Session.Safe (fun _ => 0) (coder.finish entry : EStateM Failure (Session BitStore ω) String) := by
  obtain ⟨phrase, word⟩ := entry
  cases phrase with
  | text text => exact .bind (safe_note _) fun _ => .pure rfl
  | escape => exact .bind (safe_note _) fun _ => coder.chars.safe_decodeText.weaken fun _ => Nat.zero_le _

theorem safe_decodeText :
    Session.Safe (fun _ => 1) (coder.decodeText : EStateM Failure (Session BitStore ω) String) :=
  (safe_decode coder.table).bind coder.safe_finish

theorem safe_texts : (coder.texts : Decoder (Session BitStore ω) String).Safe :=
  Decoder.safe_untilExhausted (.map some coder.safe_decodeText)

end TextCoder

/-- From any store, whoever is the consumer: whatever decodes one symbol or a list of them, or delivers them, ends with a
value or by a rejection; it has passed at least one bit for each symbol, none behind the end, and changed none. -/
theorem decode_safe {ω κ : Type} [Observer ω] (chars : CharCoder) (texts : TextCoder) (lists : ListCoder)
    (s : Session BitStore ω) (forChars : Consumer κ Char) (forTexts : Consumer κ String) (kept : κ) :
    Session.Ends s.medium (fun _ => 1) (chars.decodeChar s) ∧
    Session.Ends s.medium String.length (chars.decodeText s) ∧
    Session.Ends s.medium (fun _ => 1) (texts.decodeText s) ∧
    (chars.chars : Decoder (Session BitStore ω) Char).Safe ∧
    chars.chars.DeliversSafely forChars kept s (chars.chars.deliver forChars (s, kept)) ∧
    (texts.texts : Decoder (Session BitStore ω) String).Safe ∧
    texts.texts.DeliversSafely forTexts kept s (texts.texts.deliver forTexts (s, kept)) ∧
    lists.texts.texts.DeliversSafely forTexts kept ⟨s.medium.rewound, s.observer⟩ (lists.deliver forTexts (s, kept)) ∧
    ∀ count, Session.Ends (if count = 0 then s.medium else s.medium.rewound) List.length (lists.decodeList count s) := by
  refine ⟨chars.safe_decodeChar s, chars.safe_decodeText s, texts.safe_decodeText s, chars.safe_chars,
    chars.safe_chars.deliversSafely forChars kept s, texts.safe_texts, texts.safe_texts.deliversSafely forTexts kept s,
    lists.texts.safe_texts.deliversSafely forTexts kept _, fun count => ?_⟩
  by_cases none : count = 0
  · rw [none]
    exact .ok (.none s.medium)
  · have wanted : some count ≠ some 0 := by simpa using none
    rw [if_neg none, ListCoder.decodeList, ListCoder.collect, if_neg wanted]
    exact Decoder.safe_collect lists.texts.safe_texts (some count) ⟨s.medium.rewound, s.observer⟩

end HuffmanStrings
