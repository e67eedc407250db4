import Mathlib
import HuffmanStrings.Proofs.Bits.Frame
import HuffmanStrings.Proofs.Coder.Production
import HuffmanStrings.Proofs.Coder.Stopping

/-!
Two ways to read characters. One reads up to the word for the end of a text, which must come; the other delivers
characters up to that word or to the last bit. Both read one character after another alike, so they agree wherever a
text has its end, and only there: what has no end is delivered, but is no text.
-/

namespace HuffmanStrings

namespace Session

variable {ω α : Type}

theorem onMedium_eq_ok_iff {act : EStateM Failure BitStore α} {s s' : Session BitStore ω} {value : α} :
    onMedium act s = .ok value s' ↔ ∃ medium, act s.medium = .ok value medium ∧ s' = { s with medium } := by
  simp only [onMedium]
  cases act s.medium with
  | ok => simp [and_assoc, eq_comm]
  | error => simp

variable [Observer ω]

theorem Writes.forM {write : α → EStateM Failure (Session BitStore ω) Unit} {bitsOf : α → List Bool}
    {eventsOf : α → List CodeEvent} (writes : ∀ item, Writes (write item) (bitsOf item) (eventsOf item))
    (items : List α) : Writes (items.forM write) (items.flatMap bitsOf) (items.flatMap eventsOf) := by
  induction items with
  | nil => exact .pure
  | cons item items ih => exact (writes item).bind ih

end Session

namespace Decoder

theorem Supplies.imp {τ α : Type} {d d' : Decoder τ α} {s s' : τ} {symbols : List α} (supplies : d.Supplies s symbols s')
    (yields : ∀ {s symbol s'}, d.next s = .ok (some symbol) s' → d'.next s = .ok (some symbol) s') :
    d'.Supplies s symbols s' := by
  induction supplies with
  | nil => exact .nil _
  | cons step _ ih => exact .cons (yields step) ih

end Decoder

namespace CharCoder

variable {ω : Type} [Observer ω] (coder : CharCoder)

/-- From one state to another just these characters are delivered and then the word for the end of a text is read. -/
def EndsByWord (s : Session BitStore ω) (cs : List Char) (s' : Session BitStore ω) : Prop :=
  ∃ before, coder.chars.Supplies s cs before ∧ coder.endWord.toBits <+: before.medium.rest ∧
    s' = ⟨before.medium.advance coder.endWord.length,
      Observer.note (.decoded coder.endWord.length false) before.observer⟩

inductive Reader
  | text
  | characters
  deriving DecidableEq, Repr

def Reader.read : Reader → EStateM Failure (Session BitStore ω) String
  | text => coder.decodeText
  | characters => String.ofList <$> coder.chars.collect none

section Steps

variable {coder} {s s' : Session BitStore ω} {cs : List Char} {text : String}

theorem decodeChar_eq_none_iff : coder.decodeChar s = .ok none s' ↔ coder.endWord.toBits <+: s.medium.rest ∧
    s' = ⟨s.medium.advance coder.endWord.length, Observer.note (.decoded coder.endWord.length false) s.observer⟩ := by
  constructor
  · intro done
    obtain ⟨⟨letter, word⟩, middle, read, finished⟩ := bind_eq_ok_iff.1 done
    obtain ⟨medium, decoded, rfl⟩ := Session.onMedium_eq_ok_iff.1 read
    obtain ⟨coded, begins, rfl⟩ := CodeTable.decode_ok_iff.1 decoded
    cases letter with
    | char c => cases finished
    | escape =>
      obtain ⟨_, _, same⟩ := map_eq_ok_iff.1 finished
      cases same
    | endOfString =>
      rw [coder.endWord_eq, Option.some_inj] at coded
      subst coded
      cases finished
      exact ⟨begins, rfl⟩
  · rintro ⟨begins, rfl⟩
    have ended := coder.reads_end s.medium s.observer begins
    rw [CodeWord.length_toBits] at ended
    exact ended

theorem supplies_tokens_iff : coder.tokens.Supplies s cs s' ↔ coder.chars.Supplies s cs s' :=
  ⟨fun supplies => supplies.imp Decoder.next_untilExhausted_of_ok,
    fun supplies => supplies.imp Decoder.eq_of_next_untilExhausted⟩

theorem EndsByWord.deliver {κ : Type} {consumer : Consumer κ Char} {kept kept' : κ} (ends : coder.EndsByWord s cs s')
    (takes : consumer.Takes 0 kept cs kept') : coder.chars.deliver consumer (s, kept) = .ok cs.length (s', kept') := by
  obtain ⟨before, supplies, word⟩ := ends
  exact Decoder.deliver_of_supplies supplies takes (Decoder.next_untilExhausted_of_ok (decodeChar_eq_none_iff.2 word))

theorem EndsByWord.collect (ends : coder.EndsByWord s cs s') : coder.chars.collect none s = .ok cs s' := by
  obtain ⟨before, supplies, word⟩ := ends
  have ended : coder.chars.next before = .ok none s' :=
    Decoder.next_untilExhausted_of_ok (decodeChar_eq_none_iff.2 word)
  exact Decoder.collect_all (by simp) supplies ended

theorem decodeText_eq_ok_iff : coder.decodeText s = .ok text s' ↔ coder.EndsByWord s text.toList s' := by
  constructor
  · intro done
    obtain ⟨symbols, last, ending, supplies, closes⟩ := coder.tokens.exists_supplies s
    have takes := takes_writer 0 "" symbols
    simp only [decodeText, Decoder.run, Decoder.deliver, Decoder.deliverFrom_of_supplies supplies takes,
      Decoder.deliverFrom_of_closes closes] at done
    cases ending with
    | error failure final => cases done
    | ok _ final =>
      cases done
      rw [String.empty_append, String.toList_ofList]
      exact ⟨last, supplies_tokens_iff.1 supplies, decodeChar_eq_none_iff.1 closes⟩
  · rintro ⟨before, supplies, word⟩
    have takes := takes_writer 0 "" text.toList
    rw [String.empty_append, String.ofList_toList] at takes
    simp only [decodeText, Decoder.run, Decoder.deliver_of_supplies (supplies_tokens_iff.2 supplies) takes
      (decodeChar_eq_none_iff.2 word)]

end Steps

/-- Bits of the characters of a text, read where they are all there is and where the word for the end follows. -/
structure Streams (ω : Type) [Observer ω] (bits : List Bool) (text : String) : Prop where
  alone {κ : Type} (consumer : Consumer κ Char) (kept : κ) (store : BitStore) (observer : ω) : consumer.Tireless →
    store.cursor ≤ store.size → store.rest = bits → ∃ observer',
      coder.chars.deliver consumer (⟨store, observer⟩, kept) =
        .ok text.length (⟨{ store with cursor := store.size }, observer'⟩, consumer.handed 0 text.toList kept)
  /-- Either way the end is right behind the word, which is no character and is not counted, whatever follows it. -/
  ended (store : BitStore) (observer : ω) : bits ++ coder.endWord.toBits <+: store.rest → ∃ observer',
    coder.decodeText ⟨store, observer⟩ =
      .ok text ⟨store.advance (bits.length + coder.endWord.length), observer'⟩ ∧
    ∀ {κ : Type} (consumer : Consumer κ Char) (kept : κ), consumer.Tireless →
      coder.chars.deliver consumer (⟨store, observer⟩, kept) =
        .ok text.length (⟨store.advance (bits.length + coder.endWord.length), observer'⟩,
          consumer.handed 0 text.toList kept)

section Texts

theorem reads_next (c : Char) :
    Session.Reads (coder.chars : Decoder (Session BitStore ω) Char).next (coder.charBits c) (some c)
      (decodings (coder.charCodes c)) :=
  Decoder.reads_untilExhausted (coder.reads_decodeChar c)

theorem streams_flatMap (text : String) : coder.Streams ω (text.toList.flatMap coder.charBits) text where
  alone consumer kept store observer tireless within left := by
    have ahead : text.toList.flatMap coder.charBits <+: store.rest := left ▸ List.prefix_rfl
    have supplies : coder.chars.Supplies ⟨store, observer⟩ text.toList _ :=
      Decoder.supplies_of_reads coder.reads_next text.toList ahead
    have size := store.length_rest
    rw [left, BitStore.left] at size
    have past : store.advance (text.toList.flatMap coder.charBits).length = { store with cursor := store.size } := by
      rw [BitStore.advance, size, Nat.add_sub_cancel' within]
    have finished : (store.advance (text.toList.flatMap coder.charBits).length).rest = [] := by
      rw [BitStore.rest_advance, left, List.drop_length]
    rw [past] at supplies finished
    have delivered := Decoder.deliver_of_supplies supplies (tireless.takes 0 _ kept)
      (Decoder.next_untilExhausted finished)
    rw [String.length_toList] at delivered
    exact ⟨_, delivered⟩
  ended store observer ahead := by
    have done := coder.reads_decodeText text store observer ahead
    rw [textBits, List.length_append, CodeWord.length_toBits] at done
    refine ⟨_, done, fun consumer kept tireless => ?_⟩
    have delivered := (decodeText_eq_ok_iff.1 done).deliver (tireless.takes 0 _ kept)
    rwa [String.length_toList] at delivered

theorem reads_read (reader : Reader) (text : String) :
    Session.Reads (reader.read coder : EStateM Failure (Session BitStore ω) String) (coder.textBits text) text
      (decodings (coder.textCodes text)) := by
  intro store observer ahead
  have done := coder.reads_decodeText text store observer ahead
  cases reader with
  | text => exact done
  | characters =>
    simp only [Reader.read, Functor.map, EStateM.map, (decodeText_eq_ok_iff.1 done).collect, String.ofList_toList]

theorem reads_mapM {readers : List Reader} {texts : List String} (same : readers.length = texts.length) :
    Session.Reads (readers.mapM (Reader.read coder) : EStateM Failure (Session BitStore ω) (List String))
      (texts.flatMap coder.textBits) texts (texts.flatMap fun text => decodings (coder.textCodes text)) := by
  induction readers generalizing texts with
  | nil =>
    cases texts with
    | nil => exact .pure []
    | cons => cases same
  | cons reader readers ih =>
    cases texts with
    | nil => cases same
    | cons text texts =>
      rw [List.mapM_cons, List.flatMap_cons, List.flatMap_cons]
      exact (coder.reads_read reader text).bind ((ih (Nat.succ.inj same)).map (text :: ·))

/-- Characters that are written without an end are delivered up to the last bit, or up to the word for the end if it
follows them, and then they are a text. So texts that are written one after another are read in turn, each in either
way; and of whatever bits a text is read just where its characters are delivered and the word for its end is what ends
them. -/
theorem decoders_agree :
    (∀ {π : Type} (producer : Producer π Char) {p last : π} {text : String}, producer.Yields p text.toList last →
      ∀ observer : ω, ∃ written observer',
        coder.encodeFrom producer (⟨BitStore.empty, observer⟩, p) = .ok () (⟨written, observer'⟩, last) ∧
        coder.Streams ω written.toBits text) ∧
    (∀ (texts : List String) {store : BitStore}, store.Valid → ∀ observer : ω, ∃ written observer',
      texts.forM coder.encodeText ⟨store, observer⟩ = .ok ⟨⟩ ⟨written, observer'⟩ ∧
      ∀ readers : List Reader, readers.length = texts.length → ∀ listener : ω, ∃ listener',
        (do Session.onMedium (BitStore.seek store.cursor); readers.mapM (Reader.read coder) :
          EStateM Failure (Session BitStore ω) (List String)) ⟨written, listener⟩ = .ok texts ⟨written, listener'⟩) ∧
    ∀ (s s' : Session BitStore ω) (text : String), coder.decodeText s = .ok text s' ↔
      coder.chars.collect none s = .ok text.toList s' ∧ coder.EndsByWord s text.toList s' := by
  refine ⟨?_, ?_, ?_⟩
  · intro π producer p last text yields observer
    have written := coder.emits_encodeChars Session.emission_writes text.toList BitStore.empty observer
    refine ⟨_, _, coder.encodeFrom_eq_ok yields written, ?_⟩
    rw [BitStore.toBits_putAll_empty]
    exact coder.streams_flatMap text
  · intro texts store valid observer
    have written := Session.Writes.forM coder.writes_encodeText texts store observer
    obtain ⟨back, sought, ahead, again⟩ := BitStore.seek_putAll valid (texts.flatMap coder.textBits)
    refine ⟨_, _, written, fun readers same listener => ?_⟩
    have read := coder.reads_mapM same back listener ahead
    rw [again] at read
    refine ⟨Session.noteAll (texts.flatMap fun text => decodings (coder.textCodes text)) listener, ?_⟩
    simp only [Bind.bind, EStateM.bind, Session.onMedium, sought]
    exact read
  · intro s s' text
    rw [decodeText_eq_ok_iff]
    exact ⟨fun ends => ⟨ends.collect, ends⟩, And.right⟩

/-- Characters with a word and without one, and texts of them, an empty one among them, over the middle of a store. -/
theorem decoders_agree_letters :
    ∃ (table : CodeTable Letter) (coder : CharCoder),
      CodeTable.ofLengths [(.char 'a', 1), (.endOfString, 2), (.escape, 2)] (some .escape) = .ok table ∧
      ofTable table = .ok coder ∧
      (∃ (written : BitStore) (observer' : Unit),
        coder.encodeFrom Producer.ofList (⟨BitStore.empty, ()⟩, ['a', 'é']) = .ok () (⟨written, observer'⟩, []) ∧
        ∃ observer'', coder.chars.deliver (recorder none) (⟨written.rewound, ()⟩, #[]) =
          .ok 2 (⟨{ written with cursor := written.size }, observer''⟩, #[(0, 'a'), (1, 'é')])) ∧
      ∃ (written : BitStore) (observer' : Unit),
        ["a", "", "é"].forM coder.encodeText
          ⟨{ BitStore.ofBytes [0xFF, 0x00, 0xFF, 0xFF, 0x00] with cursor := 3 }, ()⟩ = .ok ⟨⟩ ⟨written, observer'⟩ ∧
        ∃ listener',
          (do Session.onMedium (BitStore.seek 3); [Reader.characters, .text, .characters].mapM (Reader.read coder) :
            EStateM Failure (Session BitStore Unit) (List String)) ⟨written, ()⟩ =
            .ok ["a", "", "é"] ⟨written, listener'⟩ := by
  have valid : BitStore.Valid { BitStore.ofBytes [0xFF, 0x00, 0xFF, 0xFF, 0x00] with cursor := 3 } :=
    { BitStore.valid_ofBytes [0xFF, 0x00, 0xFF, 0xFF, 0x00] with cursor_le := by decide }
  refine ⟨_, _, rfl, rfl, ?_, ?_⟩
  · have yields : Producer.ofList.Yields ['a', 'é'] "aé".toList [] := Producer.yields_ofList _
    obtain ⟨written, observer', encoded, streams⟩ := (decoders_agree _).1 Producer.ofList yields ()
    obtain ⟨heard, delivered⟩ := streams.alone (recorder none) #[] written.rewound () (fun _ _ _ => rfl)
      (Nat.zero_le _) rfl
    exact ⟨written, observer', encoded, heard, delivered⟩
  · obtain ⟨written, observer', encoded, back⟩ := (decoders_agree _).2.1 ["a", "", "é"] valid ()
    exact ⟨written, observer', encoded, back _ rfl ()⟩

end Texts

end CharCoder

end HuffmanStrings
