import Mathlib
import HuffmanStrings.Coder.Text
import HuffmanStrings.Proofs.Coder.Character

/-!
The bits of texts, and reading texts back from them: all of them, or the first few.
-/

namespace HuffmanStrings

namespace TextCoder

variable (coder : TextCoder)

theorem wordOf_eq (text : String) : coder.wordOf text = coder.table.codeOf (.text text) := by
  rw [wordOf, coder.words_eq, CodeTable.vocabulary, CodeTable.codeOf]
  induction coder.table.codes with
  | nil => rfl
  | cons entry rest ih =>
    obtain ⟨symbol, word⟩ := entry
    cases symbol with
    | text s =>
      have wrapped : (Phrase.text text == Phrase.text s) = (text == s) := by simp [beq_eq_decide]
      simp only [List.filterMap_cons, List.lookup_cons, wrapped, ih]
    | escape =>
      have different : (Phrase.text text == Phrase.escape) = false := rfl
      simp only [List.filterMap_cons, List.lookup_cons, different, ih]

def textBits (text : String) : List Bool :=
  match coder.table.codeOf (.text text) with
  | some word => word.toBits
  | none => coder.escapeWord.toBits ++ coder.chars.textBits text

def textsBits (texts : List String) : List Bool :=
  texts.flatMap coder.textBits

def textCodes (text : String) : List (Nat × Bool) :=
  match coder.table.codeOf (.text text) with
  | some word => [(word.length, false)]
  | none => (coder.escapeWord.length, true) :: coder.chars.textCodes text

theorem length_textBits (text : String) : (coder.textBits text).length = coder.textLength text := by
  cases coded : coder.table.codeOf (.text text) with
  | some word => simp only [textBits, textLength, wordOf_eq, coded, CodeWord.length_toBits]
  | none =>
    simp only [textBits, textLength, wordOf_eq, coded, List.length_append, CodeWord.length_toBits,
      CharCoder.length_textBits]

theorem sum_textLength (texts : List String) : (texts.map coder.textLength).sum = coder.textsLength texts := by
  induction texts with
  | nil => rfl
  | cons text texts ih => rw [List.map_cons, List.sum_cons, textsLength, ih]

theorem length_textsBits (texts : List String) : (coder.textsBits texts).length = coder.textsLength texts := by
  induction texts with
  | nil => rfl
  | cons text texts ih =>
    rw [textsBits] at ih
    rw [textsBits, List.flatMap_cons, List.length_append, length_textBits, ih, textsLength]

theorem textsBits_append (texts others : List String) :
    coder.textsBits (texts ++ others) = coder.textsBits texts ++ coder.textsBits others :=
  List.flatMap_append

section Emitting

variable {σ ω : Type} [BitOutput σ] [Observer ω]
  {Emits : EStateM Failure (Session σ ω) Unit → List Bool → List CodeEvent → Prop} (emission : Session.Emission Emits)
include emission

theorem emits_encodeText (text : String) :
    Emits (coder.encodeText text) (coder.textBits text) (encodings (coder.textCodes text)) := by
  cases coded : coder.table.codeOf (.text text) with
  | some word =>
    simp only [encodeText, wordOf_eq, textBits, textCodes, coded]
    exact emission.noted (emission.word coded) _
  | none =>
    simp only [encodeText, wordOf_eq, textBits, textCodes, coded]
    exact emission.bind (emission.word coder.escapeWord_eq)
      (emission.bind (emission.note _) (coder.chars.emits_encodeText emission text))

theorem emits_encodeTexts (texts : List String) :
    Emits (coder.encodeTexts texts) (coder.textsBits texts) (encodings (texts.flatMap coder.textCodes)) := by
  induction texts with
  | nil => exact emission.pure
  | cons text texts ih =>
    rw [textsBits, List.flatMap_cons, List.flatMap_cons, encodings_append]
    exact emission.bind (coder.emits_encodeText emission text) ih

end Emitting

section Writing

variable {ω : Type} [Observer ω]

theorem writes_encodeText (text : String) :
    Session.Writes (coder.encodeText text : EStateM Failure (Session BitStore ω) Unit) (coder.textBits text)
      (encodings (coder.textCodes text)) :=
  coder.emits_encodeText Session.emission_writes text

theorem writes_encodeTexts (texts : List String) :
    Session.Writes (coder.encodeTexts texts : EStateM Failure (Session BitStore ω) Unit) (coder.textsBits texts)
      (encodings (texts.flatMap coder.textCodes)) :=
  coder.emits_encodeTexts Session.emission_writes texts

end Writing

section Reading

variable {ω : Type} [Observer ω]

theorem reads_decodeText (text : String) :
    Session.Reads (coder.decodeText : EStateM Failure (Session BitStore ω) String) (coder.textBits text) text
      (decodings (coder.textCodes text)) := by
  cases coded : coder.table.codeOf (.text text) with
  | some word =>
    simp only [textBits, textCodes, coded]
    exact (Session.reads_word coded).noted rfl
  | none =>
    simp only [textBits, textCodes, coded]
    exact (Session.reads_word coder.escapeWord_eq).bind
      ((Session.reads_note _).bind (coder.chars.reads_decodeText text))

theorem reads_next (text : String) :
    Session.Reads (coder.texts : Decoder (Session BitStore ω) String).next (coder.textBits text) (some text)
      (decodings (coder.textCodes text)) :=
  Decoder.reads_untilExhausted ((coder.reads_decodeText text).map some)

theorem supplies_texts (texts : List String) {store : BitStore} {observer : ω}
    (ahead : coder.textsBits texts <+: store.rest) :
    coder.texts.Supplies ⟨store, observer⟩ texts
      ⟨store.advance (coder.textsLength texts), Session.noteAll (decodings (texts.flatMap coder.textCodes)) observer⟩ := by
  rw [← length_textsBits, decodings_flatMap]
  exact Decoder.supplies_of_reads coder.reads_next texts ahead

theorem collect_texts (texts : List String) (limit : Option Nat) {store : BitStore} {observer : ω}
    (ahead : store.rest = coder.textsBits texts) :
    coder.texts.collect limit ⟨store, observer⟩ =
      .ok (limit.elim texts texts.take) ⟨store.advance (coder.textsLength (limit.elim texts texts.take)),
        Session.noteAll (decodings ((limit.elim texts texts.take).flatMap coder.textCodes)) observer⟩ := by
  by_cases below : ∀ most ∈ limit, texts.length < most
  · have all : limit.elim texts texts.take = texts := by
      cases limit with
      | none => rfl
      | some most => exact List.take_of_length_le (below most rfl).le
    have finished : (store.advance (coder.textsLength texts)).rest = [] := by
      rw [BitStore.rest_advance, ahead, ← length_textsBits, List.drop_length]
    rw [all]
    exact Decoder.collect_all below (coder.supplies_texts texts (ahead ▸ List.prefix_refl _))
      (Decoder.next_untilExhausted finished)
  · obtain ⟨most, rfl, enough⟩ : ∃ most ∈ limit, most ≤ texts.length := by
      simpa only [not_forall, Nat.not_lt, exists_prop] using below
    cases most with
    | zero => rfl
    | succ count =>
      -- The last text wanted is set apart: no bit behind it is read, though there may be some.
      obtain ⟨front, last, back, rfl, rfl⟩ :
          ∃ (front : List String) (last : String) (back : List String), texts = front ++ last :: back ∧
            count = front.length := by
        refine ⟨texts.take count, texts[count], texts.drop (count + 1), ?_, ?_⟩
        · rw [← List.drop_eq_getElem_cons enough, List.take_append_drop]
        · rw [List.length_take, Nat.min_eq_left (Nat.le_of_succ_le enough)]
      have wanted : (some (front.length + 1)).elim (front ++ last :: back) (front ++ last :: back).take =
          front ++ [last] := List.take_length_add_append 1
      have begins : coder.textsBits front <+: store.rest := by
        rw [ahead, textsBits_append]
        exact List.prefix_append ..
      have follows : coder.textBits last <+: (store.advance (coder.textsLength front)).rest := by
        rw [← length_textsBits]
        apply BitStore.prefix_rest_advance
        rw [ahead, List.append_cons, textsBits_append, textsBits_append, textsBits, textsBits, List.flatMap_singleton]
        exact List.prefix_append ..
      have next := coder.reads_next last _ (Session.noteAll (decodings (front.flatMap coder.textCodes)) observer) follows
      rw [wanted, ← length_textsBits, textsBits_append, List.length_append, ← BitStore.advance_advance,
        length_textsBits, textsBits, List.flatMap_singleton, List.flatMap_append, List.flatMap_singleton,
        decodings_append, Session.noteAll_append]
      exact Decoder.collect_some (coder.supplies_texts front begins) next

end Reading

end TextCoder

/-!
Lists of texts. Every list can be written, and is read back from its store, whole or in part, wherever the store's
cursor stood.
-/

theorem exists_encodeFresh {ω : Type} [Observer ω] {encode : EStateM Failure (Session BitStore ω) Unit} {bits : List Bool}
    {events : List CodeEvent} (writes : Session.Writes encode bits events) : ∃ store,
      (∀ observer, encodeFresh encode observer = .ok store (Session.noteAll events observer)) ∧ store.Valid ∧
      store.toBits = bits := by
  have valid := BitStore.valid_empty.putAll bits
  refine ⟨(BitStore.empty.putAll bits).rewound, fun observer => ?_, ⟨Nat.zero_le _, valid.size_bytes, valid.padding⟩,
    BitStore.toBits_putAll_empty bits⟩
  simp only [encodeFresh, writes BitStore.empty observer]

namespace ListCoder

variable {ω : Type} [Observer ω] (coder : ListCoder)

theorem encodeList_eq_ok (items : List String) (observer : ω) :
    coder.encodeList items observer = .ok (BitStore.empty.putAll (coder.texts.textsBits items)).rewound
      (Session.noteAll (encodings (items.flatMap coder.texts.textCodes)) observer) := by
  simp only [encodeList, encodeFresh, coder.texts.writes_encodeTexts items BitStore.empty observer]

/-- The store is the same whoever listens. -/
theorem exists_encodeList (items : List String) : ∃ store,
    (∀ observer : ω, coder.encodeList items observer =
      .ok store (Session.noteAll (encodings (items.flatMap coder.texts.textCodes)) observer)) ∧ store.Valid ∧
      store.toBits = coder.texts.textsBits items ∧ store.size = coder.listLength items := by
  obtain ⟨store, written, valid, held⟩ := exists_encodeFresh (coder.texts.writes_encodeTexts (ω := ω) items)
  have total := congrArg List.length held
  rw [BitStore.length_toBits, TextCoder.length_textsBits] at total
  exact ⟨store, written, valid, held, total⟩

theorem collect_eq_ok {items : List String} {store : BitStore} (held : store.toBits = coder.texts.textsBits items)
    {limit : Option Nat} (wanted : limit ≠ some 0) (observer : ω) :
    coder.collect limit ⟨store, observer⟩ =
      .ok (limit.elim items items.take) ⟨{ store with cursor := coder.listLength (limit.elim items items.take) },
        Session.noteAll (decodings ((limit.elim items items.take).flatMap coder.texts.textCodes)) observer⟩ := by
  have moved (count : Nat) : { store with cursor := count } = store.rewound.advance count := by
    simp only [BitStore.advance, BitStore.rewound, Nat.zero_add]
  rw [collect, if_neg wanted, moved]
  exact coder.texts.collect_texts items limit held

/-- A list that was written is read back: its first texts from wherever the cursor was, which ends behind them; all of
it, which ends at the last bit; or nothing, which does not move the cursor. -/
theorem decodeList_encodeList (coder : ListCoder) (items : List String) (observer : ω) :
    ∃ (store : BitStore) (observer' : ω), coder.encodeList items observer = .ok store observer' ∧
      store.size = coder.listLength items ∧
      ∀ {υ : Type} [Observer υ] (cursor : Nat) (listener : υ),
        (∀ count, ∃ listener', coder.decodeList (count + 1) ⟨{ store with cursor }, listener⟩ =
          .ok (items.take (count + 1))
            ⟨{ store with cursor := coder.listLength (items.take (count + 1)) }, listener'⟩) ∧
        (∃ listener', coder.collect none ⟨{ store with cursor }, listener⟩ =
          .ok items ⟨{ store with cursor := store.size }, listener'⟩) ∧
        coder.decodeList 0 ⟨{ store with cursor }, listener⟩ = .ok [] ⟨{ store with cursor }, listener⟩ := by
  obtain ⟨store, written, -, held, size⟩ := coder.exists_encodeList (ω := ω) items
  refine ⟨store, _, written observer, size, fun cursor listener => ⟨fun count => ?_, ?_, rfl⟩⟩
  · have positive : some (count + 1) ≠ some 0 := by simp
    exact ⟨_, coder.collect_eq_ok held positive listener⟩
  · have unlimited : none ≠ some 0 := by simp
    have whole : coder.collect none ⟨{ store with cursor }, listener⟩ =
        .ok items ⟨{ store with cursor := coder.listLength items },
          Session.noteAll (decodings (items.flatMap coder.texts.textCodes)) listener⟩ :=
      coder.collect_eq_ok held unlimited listener
    rw [← size] at whole
    exact ⟨_, whole⟩

end ListCoder

end HuffmanStrings
