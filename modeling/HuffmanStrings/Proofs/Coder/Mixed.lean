import Mathlib
import HuffmanStrings.Codebook.Basic
import HuffmanStrings.Proofs.Bits.Frame
import HuffmanStrings.Proofs.Coder.Text

/-!
Mixed content. Characters, ends of texts, texts of either coder and plain numbers are written one after another,
anywhere in a store, and are read back one after another: the bits of each say where it ends, whatever its neighbours.
-/

namespace HuffmanStrings

inductive Item
  | char (c : Char)
  | endOfText
  | spelled (words : String)
  | text (words : String)
  | number (value : UInt64) (count : Nat)
  deriving DecidableEq, Repr

inductive ItemKind
  | letter
  | spelled
  | text
  | number (count : Nat)
  deriving DecidableEq, Repr

/-- What reading an item gives. A letter that is no character is the end of a text. -/
inductive ItemValue
  | letter (c : Option Char)
  | text (words : String)
  | number (value : Nat)
  deriving DecidableEq, Repr

namespace Item

def kind : Item → ItemKind
  | char _ => .letter
  | endOfText => .letter
  | spelled _ => .spelled
  | text _ => .text
  | number _ count => .number count

def value : Item → ItemValue
  | char c => .letter (some c)
  | endOfText => .letter none
  | spelled words => .text words
  | text words => .text words
  | number value count => .number (value.toNat % 2 ^ count)

def Valid : Item → Prop
  | number _ count => ValidCount count
  | _ => True

variable (chars : CharCoder) (texts : TextCoder) {ω : Type} [Observer ω]

def encode : Item → EStateM Failure (Session BitStore ω) Unit
  | char c => chars.encodeChar c
  | endOfText => chars.encodeEnd
  | spelled words => chars.encodeText words
  | text words => texts.encodeText words
  | number value count => Session.onMedium (BitOutput.write value count)

def encodeAll : List Item → EStateM Failure (Session BitStore ω) (List Nat)
  | [] => pure []
  | item :: items => do
    item.encode chars texts
    let s ← get
    let ends ← encodeAll items
    return s.medium.cursor :: ends

def bits : Item → List Bool
  | char c => chars.charBits c
  | endOfText => chars.endWord.toBits
  | spelled words => chars.textBits words
  | text words => texts.textBits words
  | number value count => Bits.ofNat count value.toNat

def codes : Item → List (Nat × Bool)
  | char c => chars.charCodes c
  | endOfText => [(chars.endWord.length, false)]
  | spelled words => chars.textCodes words
  | text words => texts.textCodes words
  | number _ _ => []

def ends (start : Nat) : List Item → List Nat
  | [] => []
  | item :: items => (start + (item.bits chars texts).length) :: ends (start + (item.bits chars texts).length) items

theorem length_ends (start : Nat) (items : List Item) : (ends chars texts start items).length = items.length := by
  induction items generalizing start with
  | nil => rfl
  | cons item items ih => rw [ends, List.length_cons, ih, List.length_cons]

theorem writes_encode {item : Item} (valid : item.Valid) :
    Session.Writes (item.encode chars texts : EStateM Failure (Session BitStore ω) Unit) (item.bits chars texts)
      (encodings (item.codes chars texts)) := by
  cases item with
  | char c => exact chars.writes_encodeChar c
  | endOfText => exact chars.writes_encodeEnd
  | spelled words => exact chars.writes_encodeText words
  | text words => exact texts.writes_encodeText words
  | number value count => exact Session.writes_field valid

theorem encodeAll_eq_ok {items : List Item} (valid : ∀ item ∈ items, item.Valid) (store : BitStore) (observer : ω) :
    encodeAll chars texts items ⟨store, observer⟩ = .ok (ends chars texts store.cursor items)
      ⟨store.putAll (items.flatMap (bits chars texts)),
        Session.noteAll (encodings (items.flatMap (codes chars texts))) observer⟩ := by
  induction items generalizing store observer with
  | nil => rfl
  | cons item items ih =>
    rw [List.forall_mem_cons] at valid
    have written := writes_encode chars texts valid.1 store observer
    have later := ih valid.2 (store.putAll (item.bits chars texts))
      (Session.noteAll (encodings (item.codes chars texts)) observer)
    rw [BitStore.cursor_putAll] at later
    rw [List.flatMap_cons, List.flatMap_cons, encodings_append, Session.noteAll_append, BitStore.putAll_append, ends]
    simp only [encodeAll, Bind.bind, EStateM.bind, written, get, getThe, MonadStateOf.get, EStateM.get, later,
      BitStore.cursor_putAll]
    rfl

end Item

namespace ItemKind

variable (chars : CharCoder) (texts : TextCoder) {ω : Type} [Observer ω]

def decode : ItemKind → EStateM Failure (Session BitStore ω) ItemValue
  | letter => .letter <$> chars.decodeChar
  | spelled => .text <$> chars.decodeText
  | text => .text <$> texts.decodeText
  | number count => (fun value => .number value.toNat) <$> Session.onMedium (BitInput.read count)

def decodeAll : List ItemKind → EStateM Failure (Session BitStore ω) (List (ItemValue × Nat))
  | [] => pure []
  | kind :: kinds => do
    let value ← kind.decode chars texts
    let s ← get
    let values ← decodeAll kinds
    return (value, s.medium.cursor) :: values

theorem reads_decode {item : Item} (valid : item.Valid) :
    Session.Reads (item.kind.decode chars texts : EStateM Failure (Session BitStore ω) ItemValue)
      (item.bits chars texts) item.value (decodings (item.codes chars texts)) := by
  cases item with
  | char c => exact (chars.reads_decodeChar c).map _
  | endOfText => exact chars.reads_end.map _
  | spelled words => exact (chars.reads_decodeText words).map _
  | text words => exact (texts.reads_decodeText words).map _
  | number value count =>
    have valid : ValidCount count := valid
    have low : value.toNat % 2 ^ count < 2 ^ count := Nat.mod_lt _ (Nat.two_pow_pos _)
    have small : value.toNat % 2 ^ count < UInt64.size := low.trans_le (Nat.pow_le_pow_right (by decide) valid.2)
    have read := (Session.reads_field (ω := ω) valid low).map fun value => ItemValue.number value.toNat
    rwa [Bits.ofNat_mod, UInt64.toNat_ofNat_of_lt' small] at read

theorem decodeAll_eq_ok {items : List Item} (valid : ∀ item ∈ items, item.Valid) {store : BitStore}
    (ahead : items.flatMap (Item.bits chars texts) <+: store.rest) (observer : ω) :
    decodeAll chars texts (items.map Item.kind) ⟨store, observer⟩ =
      .ok ((items.map Item.value).zip (Item.ends chars texts store.cursor items))
        ⟨store.advance (items.flatMap (Item.bits chars texts)).length,
          Session.noteAll (decodings (items.flatMap (Item.codes chars texts))) observer⟩ := by
  induction items generalizing store observer with
  | nil => rfl
  | cons item items ih =>
    rw [List.forall_mem_cons] at valid
    rw [List.flatMap_cons] at ahead
    have read := reads_decode chars texts valid.1 store observer ((List.prefix_append _ _).trans ahead)
    have later := ih valid.2 (BitStore.prefix_rest_advance ahead)
      (Session.noteAll (decodings (item.codes chars texts)) observer)
    rw [BitStore.cursor_advance] at later
    rw [List.flatMap_cons, List.flatMap_cons, decodings_append, Session.noteAll_append, List.length_append,
      ← BitStore.advance_advance, Item.ends]
    simp only [List.map_cons, decodeAll, Bind.bind, EStateM.bind, read, get, getThe, MonadStateOf.get, EStateM.get, later,
      BitStore.cursor_advance]
    rfl

/-- Whatever items are written over or behind the bits of a store, going back and reading as many of their kinds gives
each item's value and ends where its writing ended. Bits before and behind what was written stay as they were. -/
theorem decodeAll_encodeAll (chars : CharCoder) (texts : TextCoder) {items : List Item}
    (writable : ∀ item ∈ items, item.Valid) {store : BitStore} (valid : store.Valid) (observer : ω) :
    ∃ (written : BitStore) (ends : List Nat) (observer' : ω),
      Item.encodeAll chars texts items ⟨store, observer⟩ = .ok ends ⟨written, observer'⟩ ∧
      ends.length = items.length ∧ written.Valid ∧ store.cursor ≤ written.cursor ∧
      written.toBits.take store.cursor = store.toBits.take store.cursor ∧
      written.toBits.drop written.cursor = store.toBits.drop written.cursor ∧
      ∀ {υ : Type} [Observer υ] (listener : υ), ∃ listener',
        (do Session.onMedium (BitStore.seek store.cursor); decodeAll chars texts (items.map Item.kind) :
          EStateM Failure (Session BitStore υ) (List (ItemValue × Nat))) ⟨written, listener⟩ =
          .ok ((items.map Item.value).zip ends) ⟨written, listener'⟩ := by
  have before : (store.toBits.take store.cursor).length = store.cursor := by
    simpa using valid.cursor_le
  refine ⟨_, _, _, Item.encodeAll_eq_ok chars texts writable store observer, Item.length_ends ..,
    valid.putAll _, ?_, ?_, ?_, fun listener => ?_⟩
  · rw [BitStore.cursor_putAll]
    exact Nat.le_add_right ..
  · rw [BitStore.toBits_putAll valid, List.append_assoc, List.take_left' before]
  · have past : (store.toBits.take store.cursor ++ items.flatMap (Item.bits chars texts)).length =
        store.cursor + (items.flatMap (Item.bits chars texts)).length := by
      rw [List.length_append, before]
    rw [BitStore.toBits_putAll valid, BitStore.cursor_putAll, List.drop_left' past]
  · obtain ⟨back, sought, ahead, again⟩ := BitStore.seek_putAll valid (items.flatMap (Item.bits chars texts))
    have start : back.cursor = store.cursor := by
      have ended := congrArg BitStore.cursor again
      rw [BitStore.cursor_advance, BitStore.cursor_putAll] at ended
      exact Nat.add_right_cancel ended
    have read := decodeAll_eq_ok chars texts writable ahead listener
    rw [again, start] at read
    refine ⟨Session.noteAll (decodings (items.flatMap (Item.codes chars texts))) listener, ?_⟩
    simp only [Bind.bind, EStateM.bind, Session.onMedium, sought]
    exact read

/-- Items of every kind, a character and a text without words of their own among them, over the middle of a store. -/
theorem decodeAll_encodeAll_written :
    ∃ coder : ListCoder, Codebook.toCoder ⟨⟨[(.char 'a', 1), (.endOfString, 2), (.escape, 2)], some .escape⟩,
        ⟨[(.text "ab", 1), (.escape, 1)], some .escape⟩⟩ = .ok coder ∧
      ∃ (written : BitStore) (ends : List Nat) (observer : Unit),
        Item.encodeAll coder.texts.chars coder.texts
          [.char 'a', .char 'é', .endOfText, .spelled "ba", .text "ab", .text "b", .number 0x2A5 9]
          ⟨{ BitStore.ofBytes [0xFF, 0x00, 0xFF] with cursor := 11 }, ()⟩ = .ok ends ⟨written, observer⟩ ∧
        ∀ {υ : Type} [Observer υ] (listener : υ), ∃ listener',
          (do
            Session.onMedium (BitStore.seek 11)
            decodeAll coder.texts.chars coder.texts [.letter, .letter, .letter, .spelled, .text, .text, .number 9] :
            EStateM Failure (Session BitStore υ) (List (ItemValue × Nat))) ⟨written, listener⟩ =
            .ok (List.zip [.letter (some 'a'), .letter (some 'é'), .letter none, .text "ba", .text "ab", .text "b",
              .number 0xA5] ends) ⟨written, listener'⟩ := by
  have writable : ∀ item ∈ [Item.char 'a', .char 'é', .endOfText, .spelled "ba", .text "ab", .text "b", .number 0x2A5 9],
      item.Valid := by
    simp [Item.Valid, ValidCount]
  have valid : BitStore.Valid { BitStore.ofBytes [0xFF, 0x00, 0xFF] with cursor := 11 } :=
    { BitStore.valid_ofBytes [0xFF, 0x00, 0xFF] with cursor_le := by decide }
  refine ⟨_, rfl, ?_⟩
  obtain ⟨written, ends, observer, encoded, -, -, -, -, -, back⟩ := decodeAll_encodeAll _ _ writable valid ()
  exact ⟨written, ends, observer, encoded, fun listener => back listener⟩

end ItemKind

end HuffmanStrings
