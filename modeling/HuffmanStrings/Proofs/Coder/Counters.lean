import Mathlib
import HuffmanStrings.Proofs.Coder.Accounting
import HuffmanStrings.Proofs.Coder.Stopping
import HuffmanStrings.Proofs.Coder.Truncation

/-!
The counters of an observer of lists. How many codes a list takes, how many bits and how many escapes depends on its
texts and the vocabulary alone, and both directions count the same.
-/

namespace HuffmanStrings

section Counters

def Tally.raised (t : Tally) (symbols bits escapes : Nat) : Tally where
  symbols := t.symbols + UInt64.ofNat symbols
  bits := t.bits + UInt64.ofNat bits
  escapes := t.escapes + UInt64.ofNat escapes

theorem Tally.raised_zero (t : Tally) : t.raised 0 0 0 = t := by
  simp [Tally.raised]

theorem Tally.raised_add (t : Tally) (code : Nat × Bool) (codes : List (Nat × Bool)) :
    (t.add code.1 code.2).raised codes.length (totalBits codes) (codes.countP (·.2)) =
      t.raised (code :: codes).length (totalBits (code :: codes)) ((code :: codes).countP (·.2)) := by
  obtain ⟨bits, escaped⟩ := code
  have total : totalBits ((bits, escaped) :: codes) = bits + totalBits codes := rfl
  rw [List.length_cons, total, List.countP_cons]
  simp only [Tally.raised, Tally.add, UInt64.ofNat_add]
  cases escaped with
  | true => simp [UInt64.add_assoc, UInt64.add_comm]
  | false => simp [UInt64.add_assoc, UInt64.add_comm]

theorem Statistics.noteAll_reading (codes : List (Nat × Bool)) (s : Statistics) :
    Session.noteAll (Meter.reading.events codes) s =
      { s with decoded := s.decoded.raised codes.length (totalBits codes) (codes.countP (·.2)) } := by
  induction codes generalizing s with
  | nil => exact congrArg (Statistics.mk s.encoded) s.decoded.raised_zero.symm
  | cons code rest ih =>
    rw [← Tally.raised_add]
    exact ih (s.note (.decoded code.1 code.2))

theorem Statistics.noteAll_writing {σ : Type} (place : σ → Nat) (codes : List (Nat × Bool)) (s : Statistics) :
    Session.noteAll ((Meter.writing place).events codes) s =
      { s with encoded := s.encoded.raised codes.length (totalBits codes) (codes.countP (·.2)) } := by
  induction codes generalizing s with
  | nil => exact congrArg (Statistics.mk · s.decoded) s.encoded.raised_zero.symm
  | cons code rest ih =>
    rw [← Tally.raised_add]
    exact ih (s.note (.encoded code.1 code.2))

/-- Codes that are told of raise the counters of their own direction, and leave those of the other. -/
structure Statistics.Raised (codes : List (Nat × Bool)) (s : Statistics) : Prop where
  reading : Session.noteAll (Meter.reading.events codes) s =
    { s with decoded := s.decoded.raised codes.length (totalBits codes) (codes.countP (·.2)) }
  writing {σ : Type} (place : σ → Nat) : Session.noteAll ((Meter.writing place).events codes) s =
    { s with encoded := s.encoded.raised codes.length (totalBits codes) (codes.countP (·.2)) }

end Counters

structure Counts (codes : List (Nat × Bool)) (symbols bits escapes : Nat) : Prop where
  symbols : codes.length = symbols
  bits : totalBits codes = bits
  escapes : codes.countP (·.2) = escapes

theorem Counts.nil : Counts [] 0 0 0 :=
  ⟨rfl, rfl, rfl⟩

theorem Counts.single (bits : Nat) (escaped : Bool) : Counts [(bits, escaped)] 1 bits escaped.toNat := by
  cases escaped with
  | true => exact ⟨rfl, rfl, rfl⟩
  | false => exact ⟨rfl, rfl, rfl⟩

theorem Counts.append {codes others : List (Nat × Bool)} {symbols bits escapes symbols' bits' escapes' : Nat}
    (first : Counts codes symbols bits escapes) (second : Counts others symbols' bits' escapes') :
    Counts (codes ++ others) (symbols + symbols') (bits + bits') (escapes + escapes') where
  symbols := by rw [List.length_append, first.symbols, second.symbols]
  bits := by rw [totalBits_append, first.bits, second.bits]
  escapes := by rw [List.countP_append, first.escapes, second.escapes]

namespace CharCoder

variable (coder : CharCoder)

theorem counts_charCodes (c : Char) :
    Counts (coder.charCodes c) 1 (coder.charLength c) (!coder.contains c).toNat := by
  cases coded : coder.table.codeOf (.char c) with
  | some word =>
    simp only [charCodes, charLength, contains, CodeTable.contains, coded, Option.isSome_some]
    exact .single word.length false
  | none =>
    simp only [charCodes, charLength, contains, CodeTable.contains, coded, Option.isSome_none]
    exact .single (coder.escapeWord.length + literalWidth) true

theorem counts_flatMap_charCodes (cs : List Char) :
    Counts (cs.flatMap coder.charCodes) cs.length (coder.charsLength cs) (cs.countP (!coder.contains ·)) := by
  induction cs with
  | nil => exact .nil
  | cons c cs ih =>
    have both := (coder.counts_charCodes c).append ih
    have escapes : (!coder.contains c).toNat + cs.countP (!coder.contains ·) =
        (c :: cs).countP (!coder.contains ·) := by
      rw [List.countP_cons, Nat.add_comm]
      cases coder.contains c <;> rfl
    rwa [escapes, Nat.add_comm] at both

theorem counts_textCodes (text : String) :
    Counts (coder.textCodes text) (text.length + 1) (coder.textLength text)
      (text.toList.countP (!coder.contains ·)) := by
  have both := (coder.counts_flatMap_charCodes text.toList).append (.single coder.endWord.length false)
  rwa [String.length_toList] at both

end CharCoder

namespace TextCoder

variable (coder : TextCoder)

/-- A text without a word of its own takes a code for the escape, one for each character and one for the end. -/
def symbolCount (text : String) : Nat :=
  if coder.contains text then 1 else 2 + text.length

def escapeCount (text : String) : Nat :=
  if coder.contains text then 0 else 1 + text.toList.countP (!coder.chars.contains ·)

theorem counts_textCodes (text : String) :
    Counts (coder.textCodes text) (coder.symbolCount text) (coder.textLength text) (coder.escapeCount text) := by
  cases coded : coder.table.codeOf (.text text) with
  | some word =>
    have known : coder.contains text = true := by rw [contains, wordOf_eq, coded, Option.isSome_some]
    simp only [symbolCount, escapeCount, if_pos known, textCodes, textLength, wordOf_eq, coded]
    exact .single word.length false
  | none =>
    have unknown : ¬coder.contains text = true := by
      rw [contains, wordOf_eq, coded, Option.isSome_none]
      exact Bool.false_ne_true
    have both := (Counts.single coder.escapeWord.length true).append (coder.chars.counts_textCodes text)
    have symbols : 1 + (text.length + 1) = 2 + text.length := by omega
    simp only [symbolCount, escapeCount, if_neg unknown, textCodes, textLength, wordOf_eq, coded]
    rwa [symbols] at both

theorem counts_textsCodes (texts : List String) :
    Counts (texts.flatMap coder.textCodes) (texts.map coder.symbolCount).sum (coder.textsLength texts)
      (texts.map coder.escapeCount).sum := by
  induction texts with
  | nil => exact .nil
  | cons text texts ih => exact (coder.counts_textCodes text).append ih

end TextCoder

namespace ListCoder

variable {ω κ : Type} [Observer ω] (coder : ListCoder) {items : List String} {store : BitStore}

def tallied (items : List String) (size : Nat) (t : Tally) : Tally :=
  t.raised (items.map coder.texts.symbolCount).sum size (items.map coder.texts.escapeCount).sum

theorem noteAll_decodings (items : List String) (s : Statistics) :
    Session.noteAll (decodings (items.flatMap coder.texts.textCodes)) s =
      { s with decoded := coder.tallied items (coder.listLength items) s.decoded } := by
  have told := s.noteAll_reading (items.flatMap coder.texts.textCodes)
  have counts := coder.texts.counts_textsCodes items
  rwa [counts.symbols, counts.bits, counts.escapes] at told

theorem noteAll_encodings (items : List String) (s : Statistics) :
    Session.noteAll (encodings (items.flatMap coder.texts.textCodes)) s =
      { s with encoded := coder.tallied items (coder.listLength items) s.encoded } := by
  have told := s.noteAll_writing BitStore.cursor (items.flatMap coder.texts.textCodes)
  have counts := coder.texts.counts_textsCodes items
  rwa [counts.symbols, counts.bits, counts.escapes] at told

theorem deliver_eq_ok (held : store.toBits = coder.texts.textsBits items) {consumer : Consumer κ String}
    (tireless : consumer.Tireless) (cursor : Nat) (observer : ω) (kept : κ) : ∃ medium,
      coder.deliver consumer (⟨{ store with cursor }, observer⟩, kept) = .ok items.length
        (⟨medium, Session.noteAll (decodings (items.flatMap coder.texts.textCodes)) observer⟩,
          consumer.handed 0 items kept) := by
  have ahead : store.rewound.rest = coder.texts.textsBits items := held
  have supplied : coder.texts.texts.Supplies ⟨store.rewound, observer⟩ _ _ :=
    coder.texts.supplies_texts items (ahead ▸ List.prefix_rfl)
  have finished : (store.rewound.advance (coder.texts.textsLength items)).rest = [] := by
    rw [BitStore.rest_advance, ahead, ← TextCoder.length_textsBits, List.drop_length]
  have delivered := Decoder.deliverFrom_of_supplies supplied (tireless.takes 0 items kept)
  have ended := delivered.trans (Decoder.deliverFrom_end (Decoder.next_untilExhausted finished))
  rw [Nat.zero_add] at ended
  exact ⟨_, (coder.deliver_anywhere store cursor observer consumer kept).trans ended⟩

theorem counted_collect (held : store.toBits = coder.texts.textsBits items) {limit : Option Nat}
    (enough : ∀ most ∈ limit, items.length ≤ most) (cursor : Nat) (s : Statistics) : ∃ medium,
      coder.collect limit ⟨{ store with cursor }, s⟩ =
        .ok items ⟨medium, { s with decoded := coder.tallied items (coder.listLength items) s.decoded }⟩ := by
  by_cases none : limit = some 0
  · -- Of an empty list none may be asked for, and nothing is counted.
    have empty : items = [] := List.eq_nil_of_length_eq_zero (Nat.le_zero.1 (enough 0 none))
    have same : coder.tallied [] (coder.listLength []) s.decoded = s.decoded := s.decoded.raised_zero
    rw [empty, none, same]
    exact ⟨_, rfl⟩
  · have all : limit.elim items items.take = items := by
      cases limit with
      | none => rfl
      | some most => exact List.take_of_length_le (enough most rfl)
    have heldToo : BitStore.toBits { store with cursor } = coder.texts.textsBits items := held
    have collected := coder.collect_eq_ok heldToo none s
    rw [all, noteAll_decodings] at collected
    exact ⟨_, collected⟩

/-- A list is written into this store, wherever its cursor is moved to, and the counters are raised by the same amounts
when it is written as when it is read back. -/
structure Counted (items : List String) (store : BitStore) : Prop where
  size : store.size = coder.listLength items
  encodeList (before : Statistics) : coder.encodeList items before =
    .ok store { before with encoded := coder.tallied items store.size before.encoded }
  collect (cursor : Nat) (later : Statistics) {limit : Option Nat} : (∀ most ∈ limit, items.length ≤ most) → ∃ medium,
    coder.collect limit ⟨{ store with cursor }, later⟩ =
      .ok items ⟨medium, { later with decoded := coder.tallied items store.size later.decoded }⟩
  deliver {κ : Type} (cursor : Nat) (later : Statistics) {consumer : Consumer κ String} (kept : κ) :
    consumer.Tireless → ∃ medium, coder.deliver consumer (⟨{ store with cursor }, later⟩, kept) =
      .ok items.length (⟨medium, { later with decoded := coder.tallied items store.size later.decoded }⟩,
        consumer.handed 0 items kept)

theorem exists_counted (items : List String) : ∃ store, coder.Counted items store := by
  obtain ⟨store, written, -, held, size⟩ := coder.exists_encodeList (ω := Statistics) items
  refine ⟨store, size, fun before => ?_, fun cursor later limit enough => ?_,
    fun cursor later consumer kept tireless => ?_⟩
  · rw [written, noteAll_encodings, size]
  · have collected := coder.counted_collect held enough cursor later
    rwa [← size] at collected
  · have delivered := coder.deliver_eq_ok held tireless cursor later kept
    rwa [noteAll_decodings, ← size] at delivered

end ListCoder

open Session (Accounted)

/-- Whatever a store holds, the codes that reading tells of have just the bits that were passed, and no more than these
when it fails. A sink that fails has taken the bits of all codes that writing told of. -/
structure CharCoder.Accounts (coder : CharCoder) : Prop where
  decodeChar {ω : Type} [Observer ω] (s : Session BitStore ω) : Accounted .reading id s (coder.decodeChar s)
  decodeText {ω : Type} [Observer ω] (s : Session BitStore ω) : Accounted .reading id s (coder.decodeText s)
  deliver {ω κ : Type} [Observer ω] (consumer : Consumer κ Char) (kept : κ) (s : Session BitStore ω) :
    Accounted .reading Prod.fst s (coder.chars.deliver consumer (s, kept))
  collect {ω : Type} [Observer ω] (limit : Option Nat) (s : Session BitStore ω) :
    Accounted .reading id s (coder.chars.collect limit s)
  encodeChar {σ ω : Type} [BitOutput σ] [Observer ω] {place : σ → Nat} (c : Char) (s : Session σ ω) :
    Meter.Faithful place → Accounted (.writing place) id s (coder.encodeChar c s)
  encodeText {σ ω : Type} [BitOutput σ] [Observer ω] {place : σ → Nat} (text : String) (s : Session σ ω) :
    Meter.Faithful place → Accounted (.writing place) id s (coder.encodeText text s)

structure TextCoder.Accounts (coder : TextCoder) : Prop where
  decodeText {ω : Type} [Observer ω] (s : Session BitStore ω) : Accounted .reading id s (coder.decodeText s)
  deliver {ω κ : Type} [Observer ω] (consumer : Consumer κ String) (kept : κ) (s : Session BitStore ω) :
    Accounted .reading Prod.fst s (coder.texts.deliver consumer (s, kept))
  collect {ω : Type} [Observer ω] (limit : Option Nat) (s : Session BitStore ω) :
    Accounted .reading id s (coder.texts.collect limit s)
  encodeText {σ ω : Type} [BitOutput σ] [Observer ω] {place : σ → Nat} (text : String) (s : Session σ ω) :
    Meter.Faithful place → Accounted (.writing place) id s (coder.encodeText text s)
  encodeTexts {σ ω : Type} [BitOutput σ] [Observer ω] {place : σ → Nat} (items : List String) (s : Session σ ω) :
    Meter.Faithful place → Accounted (.writing place) id s (coder.encodeTexts items s)

/-- Lists are read from the first bit on, so this is where the bits that were passed begin, unless no text is asked
for. -/
structure ListCoder.Accounts (coder : ListCoder) : Prop where
  deliver {ω κ : Type} [Observer ω] (consumer : Consumer κ String) (kept : κ) (s : Session BitStore ω) :
    Accounted .reading Prod.fst ⟨s.medium.rewound, s.observer⟩ (coder.deliver consumer (s, kept))
  collect {ω : Type} [Observer ω] (limit : Option Nat) (s : Session BitStore ω) :
    Accounted .reading id (if limit = some 0 then s else ⟨s.medium.rewound, s.observer⟩) (coder.collect limit s)

theorem CharCoder.accounts (coder : CharCoder) : coder.Accounts where
  decodeChar := coder.balances_decodeChar
  decodeText := coder.balances_decodeText
  deliver := Decoder.accounted_deliver coder.balances_chars
  collect := Decoder.balances_collect coder.balances_chars
  encodeChar c s faithful := coder.balances_encodeChar faithful c s
  encodeText text s faithful := coder.balances_encodeText faithful text s

theorem TextCoder.accounts (coder : TextCoder) : coder.Accounts where
  decodeText := coder.balances_decodeText
  deliver := Decoder.accounted_deliver coder.balances_texts
  collect := Decoder.balances_collect coder.balances_texts
  encodeText text s faithful := coder.balances_encodeText faithful text s
  encodeTexts items s faithful := coder.balances_encodeTexts faithful items s

theorem ListCoder.accounts (coder : ListCoder) : coder.Accounts where
  deliver consumer kept s := Decoder.accounted_deliver coder.texts.balances_texts consumer kept _
  collect {ω _} limit s := by
    rw [ListCoder.collect]
    split
    · have nothing : Session.Balances .reading 0 (pure [] : EStateM Failure (Session BitStore ω) (List String))
          fun _ => 0 := .pure [] rfl
      exact nothing s
    · exact Decoder.balances_collect coder.texts.balances_texts limit ⟨s.medium.rewound, s.observer⟩

/-- What is counted of a list of texts is the same when it is written as when it is read back, and each counter is
raised by just its amount: for a text of the vocabulary by one code, for any other by those of the escape, its
characters and the end, of which those of unknown characters are escaped as the first one is. Whatever else is read or
written, on any store and into any faithful sink, the codes that are told of account for the bits. -/
theorem counters_exact :
    (∀ (coder : ListCoder) (items : List String), ∃ store, coder.Counted items store) ∧
    (∀ coder : CharCoder, coder.Accounts) ∧
    (∀ coder : TextCoder, coder.Accounts) ∧
    (∀ coder : ListCoder, coder.Accounts) ∧
    Meter.Faithful BitWriter.written ∧
    ∀ (codes : List (Nat × Bool)) (s : Statistics), s.Raised codes :=
  ⟨ListCoder.exists_counted, CharCoder.accounts, TextCoder.accounts, ListCoder.accounts, BitWriter.faithful_written,
    fun codes s => ⟨s.noteAll_reading codes, fun place => s.noteAll_writing place codes⟩⟩

end HuffmanStrings
