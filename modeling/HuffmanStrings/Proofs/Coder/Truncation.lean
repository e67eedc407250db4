import Mathlib
import HuffmanStrings.Codebook.Basic
import HuffmanStrings.Proofs.Bits.Frame
import HuffmanStrings.Proofs.Coder.Text

/-!
Input that is cut off. Where an action would read certain bits and the input ends among them, the action runs out of
bits: no word begins another, so what is left of a word is not taken for another word. Of a list that is cut anywhere
the whole texts are delivered, and then the delivery ends or runs out of bits.
-/

namespace HuffmanStrings

/-- The store ends among these bits: it still has the first of them, or none, but not all. -/
def BitStore.EndsIn (s : BitStore) (bits : List Bool) : Prop :=
  s.rest <+: bits ∧ s.rest ≠ bits

namespace BitStore.EndsIn

variable {s : BitStore} {front back bits : List Bool}

theorem length_lt (ends : s.EndsIn bits) : s.rest.length < bits.length :=
  lt_of_le_of_ne ends.1.length_le fun same => ends.2 (ends.1.eq_of_length same)

theorem cases (ends : s.EndsIn (front ++ back)) :
    s.EndsIn front ∨ front <+: s.rest ∧ (s.advance front.length).EndsIn back := by
  by_cases whole : front <+: s.rest
  · obtain ⟨rest, split⟩ := whole
    have left : (s.advance front.length).rest = rest := by
      rw [rest_advance, ← split, List.drop_left]
    rw [EndsIn, ← split] at ends
    refine .inr ⟨⟨rest, split⟩, ?_⟩
    rw [EndsIn, left]
    exact ⟨(List.prefix_append_right_inj front).1 ends.1, fun same => ends.2 (congrArg (front ++ ·) same)⟩
  · have inside := (List.prefix_or_prefix_of_prefix ends.1 (List.prefix_append front back)).resolve_right whole
    exact .inl ⟨inside, fun same => whole (same ▸ List.prefix_rfl)⟩

end BitStore.EndsIn

namespace Session

variable {ω α β : Type} [Observer ω] {act : EStateM Failure (Session BitStore ω) α} {bits others : List Bool}

/-- Whenever a store ends among these bits, the action runs out of bits on it. -/
def RunsOut (act : EStateM Failure (Session BitStore ω) α) (bits : List Bool) : Prop :=
  ∀ store observer, store.EndsIn bits →
    ∃ requested available s, act ⟨store, observer⟩ = .error (.outOfBits requested available) s

omit [Observer ω] in
theorem RunsOut.first {next : α → EStateM Failure (Session BitStore ω) β} (short : RunsOut act bits) :
    RunsOut (act >>= next) bits := by
  intro store observer ends
  obtain ⟨requested, available, s, failed⟩ := short store observer ends
  exact ⟨requested, available, s, by simp only [Bind.bind, EStateM.bind, failed]⟩

theorem RunsOut.bind {next : α → EStateM Failure (Session BitStore ω) β} {value : α} {events : List CodeEvent}
    (reads : Reads act bits value events) (first : RunsOut act bits) (second : RunsOut (next value) others) :
    RunsOut (act >>= next) (bits ++ others) := by
  intro store observer ends
  rcases ends.cases with inFirst | ⟨whole, inSecond⟩
  · exact first.first store observer inFirst
  · obtain ⟨requested, available, s, failed⟩ := second _ (noteAll events observer) inSecond
    exact ⟨requested, available, s, by simp only [Bind.bind, EStateM.bind, reads store observer whole, failed]⟩

omit [Observer ω] in
theorem RunsOut.map (short : RunsOut act bits) (f : α → β) : RunsOut (f <$> act) bits := by
  intro store observer ends
  obtain ⟨requested, available, s, failed⟩ := short store observer ends
  exact ⟨requested, available, s, by simp only [Functor.map, EStateM.map, failed]⟩

theorem RunsOut.afterNote (short : RunsOut act bits) (event : CodeEvent) :
    RunsOut (note event >>= fun _ => act) bits :=
  fun store observer ends => short store (Observer.note event observer) ends

omit [Observer ω] in
theorem runsOut_field (bits : List Bool) (valid : ValidCount bits.length) :
    RunsOut (onMedium (BitInput.read bits.length) : EStateM Failure (Session BitStore ω) UInt64) bits := by
  intro store observer ends
  have failed : BitInput.read bits.length store = .error (.outOfBits bits.length store.rest.length) store :=
    BitStore.read_eq_error valid ends.length_lt
  exact ⟨_, _, _, by simp only [onMedium, failed]; rfl⟩

omit [Observer ω] in
theorem runsOut_word [DecidableEq β] {t : CodeTable β} {symbol : β} {word : CodeWord}
    (coded : t.codeOf symbol = some word) :
    RunsOut (onMedium t.decode : EStateM Failure (Session BitStore ω) (β × CodeWord)) word.toBits := by
  intro store observer ends
  have member := CodeTable.codeOf_eq_some_iff.1 coded
  -- A word that begins what is left begins this word too, so it is this word, which is not all there.
  have unmatched : ∀ entry ∈ t.codes, ¬entry.2.toBits <+: store.rest := by
    intro entry entryMember begins
    have same := CodeTable.eq_of_begins entryMember member (begins.trans ends.1)
    subst same
    exact ends.2 (ends.1.eq_of_length_le begins.length_le)
  have short : ¬t.longest ≤ store.rest.length := by
    have below := ends.length_lt
    have within := CodeTable.length_le_longest member
    rw [CodeWord.length_toBits] at below
    exact Nat.not_le.2 (below.trans_le within)
  have failed := CodeTable.decode_eq_error unmatched
  rw [if_neg short] at failed
  exact ⟨1, 0, _, by simp only [onMedium, failed]; rfl⟩

end Session

namespace Consumer

variable {κ τ α : Type}

/-- The result of a delivery that hands over just the first `count` items: their number if nothing else was there, else
a lack of bits. -/
def Served (consumer : Consumer κ α) (items : List α) (count : Nat) (nothingElse : Prop) (kept : κ)
    (result : EStateM.Result Failure (τ × κ) Nat) : Prop :=
  (nothingElse ∧ ∃ s, result = .ok count (s, consumer.handed 0 (items.take count) kept)) ∨
  (¬nothingElse ∧ ∃ requested available s,
    result = .error (.outOfBits requested available) (s, consumer.handed 0 (items.take count) kept))

end Consumer

namespace Decoder

variable {ω κ α : Type} [Observer ω] {d : Decoder (Session BitStore ω) α} {consumer : Consumer κ α}
  {bitsOf : α → List Bool} {eventsOf : α → List CodeEvent} {bits : List Bool} {symbols : List α}

/-- A delivery runs out of bits if the store ends among those of its symbols and their end: some symbol is the one in
whose bits it ends, or it ends in those of the end. -/
theorem runsOut_deliverFrom (reads : ∀ symbol, Session.Reads d.next (bitsOf symbol) (some symbol) (eventsOf symbol))
    (short : ∀ symbol, Session.RunsOut d.next (bitsOf symbol)) (last : Session.RunsOut d.next bits) {index : Nat}
    {kept kept' : κ} (takes : consumer.Takes index kept symbols kept') {store : BitStore} (observer : ω)
    (ends : store.EndsIn (symbols.flatMap bitsOf ++ bits)) : ∃ requested available final,
      d.deliverFrom consumer index kept ⟨store, observer⟩ = .error (.outOfBits requested available) final := by
  induction takes generalizing store observer with
  | nil index kept =>
    obtain ⟨requested, available, s, failed⟩ := last store observer ends
    exact ⟨requested, available, _, deliverFrom_error failed⟩
  | @cons index kept kept' final symbol rest more _ ih =>
    rw [List.flatMap_cons, List.append_assoc] at ends
    rcases ends.cases with inFirst | ⟨whole, inRest⟩
    · obtain ⟨requested, available, s, failed⟩ := short symbol store observer inFirst
      exact ⟨requested, available, _, deliverFrom_error failed⟩
    · rw [deliverFrom_more (reads symbol store observer whole) more]
      exact ih _ inRest

theorem runsOut_run (reads : ∀ symbol, Session.Reads d.next (bitsOf symbol) (some symbol) (eventsOf symbol))
    (short : ∀ symbol, Session.RunsOut d.next (bitsOf symbol)) (last : Session.RunsOut d.next bits)
    {kept kept' : κ} (takes : consumer.Takes 0 kept symbols kept') :
    Session.RunsOut (d.run consumer kept) (symbols.flatMap bitsOf ++ bits) := by
  intro store observer ends
  obtain ⟨requested, available, final, failed⟩ := runsOut_deliverFrom reads short last takes observer ends
  exact ⟨requested, available, final.1, by simp only [run, deliver, failed]⟩

end Decoder

namespace CharCoder

variable {ω : Type} [Observer ω] (coder : CharCoder)

theorem runsOut_decodeLiteral (word : CodeWord) (c : Char) :
    Session.RunsOut (decodeLiteral word : EStateM Failure (Session BitStore ω) Char) (Bits.ofNat literalWidth c.toNat) := by
  have short := Session.runsOut_field (ω := ω) (Bits.ofNat literalWidth c.toNat)
  rw [Bits.length_ofNat] at short
  exact (short (by decide)).first

theorem runsOut_decodeChar (c : Char) :
    Session.RunsOut (coder.decodeChar : EStateM Failure (Session BitStore ω) (Option Char)) (coder.charBits c) := by
  cases coded : coder.table.codeOf (.char c) with
  | some word =>
    simp only [charBits, coded]
    exact (Session.runsOut_word coded).first
  | none =>
    simp only [charBits, coded]
    exact .bind (Session.reads_word coder.escapeWord_eq) (Session.runsOut_word coder.escapeWord_eq)
      ((runsOut_decodeLiteral coder.escapeWord c).map some)

theorem runsOut_end :
    Session.RunsOut (coder.decodeChar : EStateM Failure (Session BitStore ω) (Option Char)) coder.endWord.toBits :=
  (Session.runsOut_word coder.endWord_eq).first

theorem runsOut_decodeText (text : String) :
    Session.RunsOut (coder.decodeText : EStateM Failure (Session BitStore ω) String) (coder.textBits text) :=
  Decoder.runsOut_run coder.reads_decodeChar coder.runsOut_decodeChar coder.runsOut_end
    (takes_writer 0 "" text.toList)

end CharCoder

namespace TextCoder

variable {ω : Type} [Observer ω] (coder : TextCoder)

theorem runsOut_decodeText (text : String) :
    Session.RunsOut (coder.decodeText : EStateM Failure (Session BitStore ω) String) (coder.textBits text) := by
  cases coded : coder.table.codeOf (.text text) with
  | some word =>
    simp only [textBits, coded]
    exact (Session.runsOut_word coded).first
  | none =>
    simp only [textBits, coded]
    exact .bind (Session.reads_word coder.escapeWord_eq) (Session.runsOut_word coder.escapeWord_eq)
      ((coder.chars.runsOut_decodeText text).afterNote _)

theorem next_eq_error {text : String} {store : BitStore} (more : store.rest ≠ [])
    (ends : store.EndsIn (coder.textBits text)) (observer : ω) : ∃ requested available s,
      (coder.texts : Decoder (Session BitStore ω) String).next ⟨store, observer⟩ =
        .error (.outOfBits requested available) s := by
  have short : Session.RunsOut (some <$> coder.decodeText : EStateM Failure (Session BitStore ω) (Option String))
      (coder.textBits text) := (coder.runsOut_decodeText text).map some
  obtain ⟨requested, available, s, failed⟩ := short store observer ends
  exact ⟨requested, available, s, (Decoder.next_untilExhausted_more more).trans failed⟩

section Cut

variable {texts : List String} {size count : Nat} {store : BitStore}

theorem endsIn_next (within : size ≤ coder.textsLength texts)
    (greatest : IsGreatest {count | count ≤ texts.length ∧ coder.textsLength (texts.take count) ≤ size} count)
    (below : coder.textsLength (texts.take count) < size)
    (left : store.rest = (coder.textsBits (texts.drop count)).take (size - coder.textsLength (texts.take count))) :
    ∃ text, store.rest ≠ [] ∧ store.EndsIn (coder.textBits text) := by
  have more : count < texts.length := by
    by_contra all
    rw [List.take_of_length_le (Nat.le_of_not_lt all)] at below
    exact absurd within (Nat.not_le.2 below)
  -- Were the next text whole as well, there would be a larger number of whole texts.
  have next : size < coder.textsLength (texts.take count) + coder.textLength texts[count] := by
    by_contra fits
    have taken : coder.textsLength (texts.take (count + 1)) =
        coder.textsLength (texts.take count) + coder.textLength texts[count] := by
      rw [List.take_succ_eq_append_getElem more, ← length_textsBits, textsBits_append, List.length_append,
        length_textsBits, textsBits, List.flatMap_singleton, length_textBits]
    have larger := greatest.2 ⟨more, taken.trans_le (Nat.le_of_not_lt fits)⟩
    omega
  have size_ := coder.length_textBits texts[count]
  rw [List.drop_eq_getElem_cons more, textsBits, List.flatMap_cons, List.take_append_of_le_length (by omega)] at left
  have length := congrArg List.length left
  rw [List.length_take, size_, Nat.min_eq_left (by omega)] at length
  refine ⟨texts[count], fun none => ?_, left ▸ List.take_prefix .., fun same => ?_⟩
  · rw [none, List.length_nil] at length
    omega
  · rw [same, size_] at length
    omega

theorem served_cut (within : size ≤ coder.textsLength texts)
    (greatest : IsGreatest {count | count ≤ texts.length ∧ coder.textsLength (texts.take count) ≤ size} count)
    (held : store.rest = (coder.textsBits texts).take size) {κ : Type} {consumer : Consumer κ String}
    (tireless : consumer.Tireless) (observer : ω) (kept : κ) :
    consumer.Served texts count (coder.textsLength (texts.take count) = size) kept
      (coder.texts.deliver consumer (⟨store, observer⟩, kept)) := by
  have fits := greatest.1.2
  have split : coder.textsBits texts = coder.textsBits (texts.take count) ++ coder.textsBits (texts.drop count) := by
    rw [← textsBits_append, List.take_append_drop]
  have length := coder.length_textsBits (texts.take count)
  have ahead : coder.textsBits (texts.take count) <+: store.rest := by
    rw [held, split]
    exact List.prefix_take_iff.2 ⟨List.prefix_append .., length.trans_le fits⟩
  have left : (store.advance (coder.textsLength (texts.take count))).rest =
      (coder.textsBits (texts.drop count)).take (size - coder.textsLength (texts.take count)) := by
    rw [BitStore.rest_advance, held, List.drop_take, split, ← length, List.drop_left]
  have supplied : coder.texts.Supplies ⟨store, observer⟩ _ _ := coder.supplies_texts (texts.take count) ahead
  have delivered := Decoder.deliverFrom_of_supplies supplied (tireless.takes 0 (texts.take count) kept)
  rw [List.length_take, Nat.min_eq_left greatest.1.1, Nat.zero_add] at delivered
  rw [Decoder.deliver, delivered]
  -- The whole texts are delivered; either nothing is left then, or some bits of the next text.
  by_cases whole : coder.textsLength (texts.take count) = size
  · rw [whole, Nat.sub_self, List.take_zero] at left
    rw [whole]
    exact .inl ⟨rfl, _, Decoder.deliverFrom_end (Decoder.next_untilExhausted left)⟩
  · obtain ⟨text, more, ends⟩ := coder.endsIn_next within greatest (lt_of_le_of_ne fits whole) left
    obtain ⟨requested, available, s, failed⟩ := coder.next_eq_error more ends
      (Session.noteAll (decodings ((texts.take count).flatMap coder.textCodes)) observer)
    exact .inr ⟨whole, requested, available, s, Decoder.deliverFrom_error failed⟩

end Cut

end TextCoder

namespace ListCoder

variable {ω : Type} [Observer ω]

theorem exists_greatest (coder : ListCoder) (items : List String) (size : Nat) :
    ∃ count, IsGreatest {count | count ≤ items.length ∧ coder.listLength (items.take count) ≤ size} count :=
  ⟨Nat.findGreatest (fun count => coder.listLength (items.take count) ≤ size) items.length,
    ⟨Nat.findGreatest_le _, Nat.findGreatest_spec (P := fun count => coder.listLength (items.take count) ≤ size)
      (Nat.zero_le _) (Nat.zero_le size)⟩,
    fun _ fitting => Nat.le_findGreatest fitting.1 fitting.2⟩

/-- A list that was written and cut anywhere: whoever never has enough is handed just the texts that are whole, with
their numbers, and then gets their number if the cut was behind a text, and a lack of bits if it was inside one. -/
theorem deliver_cut (coder : ListCoder) (items : List String) (observer : ω) {size : Nat}
    (within : size ≤ coder.listLength items) :
    ∃ (store : BitStore) (observer' : ω) (cut : BitStore) (count : Nat),
      coder.encodeList items observer = .ok store observer' ∧ store.size = coder.listLength items ∧
      BitStore.ofBytes? store.toBytes size = .ok cut ∧ cut.toBits = store.toBits.take size ∧
      IsGreatest {count | count ≤ items.length ∧ coder.listLength (items.take count) ≤ size} count ∧
      ∀ {υ κ : Type} [Observer υ] (consumer : Consumer κ String), consumer.Tireless →
        ∀ (cursor : Nat) (listener : υ) (kept : κ),
          consumer.Served items count (coder.listLength (items.take count) = size) kept
            (coder.deliver consumer (⟨{ cut with cursor }, listener⟩, kept)) ∧
          consumer.Served items count (coder.listLength (items.take count) = size) kept
            (coder.texts.texts.deliver consumer (⟨cut, listener⟩, kept)) := by
  obtain ⟨store, written, valid, held, total⟩ := coder.exists_encodeList (ω := ω) items
  obtain ⟨cut, made, start, first⟩ := BitStore.ofBytes?_toBytes valid (within.trans_eq total.symm)
  have rest : cut.rewound.rest = (coder.texts.textsBits items).take size := by
    rw [← held, ← first]
    exact List.drop_zero
  have fresh : cut.rewound = cut := by
    rw [BitStore.rewound, ← start]
  obtain ⟨count, greatest⟩ := coder.exists_greatest items size
  refine ⟨store, _, cut, count, written observer, total, made, first, greatest, fun consumer tireless cursor listener kept => ?_⟩
  have served := coder.texts.served_cut within greatest rest tireless listener kept
  refine ⟨served, ?_⟩
  rw [fresh] at served
  exact served

/-- Twelve bits hold a text of one bit and end in the number of a character that the next text escapes. -/
theorem deliver_cut_twelve :
    ∃ coder : ListCoder, Codebook.toCoder ⟨⟨[(.char 'a', 1), (.endOfString, 2), (.escape, 2)], some .escape⟩,
        ⟨[(.text "ab", 1), (.escape, 1)], some .escape⟩⟩ = .ok coder ∧
      ∃ store cut : BitStore, coder.encodeList ["ab", "é"] () = .ok store () ∧
        BitStore.ofBytes? store.toBytes 12 = .ok cut ∧
        ∃ requested available s, coder.deliver (recorder none) (⟨cut, ()⟩, #[]) =
          .error (.outOfBits requested available) (s, #[(0, "ab")]) := by
  have tireless : Consumer.Tireless (recorder none : Consumer (Array (Nat × String)) String) := by
    intro index symbol kept
    simp [recorder]
  have inside (coder : ListCoder) (first : coder.listLength ["ab"] < 12) (both : 12 < coder.listLength ["ab", "é"]) :
      ∃ store cut : BitStore, coder.encodeList ["ab", "é"] () = .ok store () ∧
        BitStore.ofBytes? store.toBytes 12 = .ok cut ∧
        ∃ requested available s, coder.deliver (recorder none) (⟨cut, ()⟩, #[]) =
          .error (.outOfBits requested available) (s, #[(0, "ab")]) := by
    obtain ⟨store, _, cut, count, written, -, made, -, greatest, delivered⟩ :=
      deliver_cut coder ["ab", "é"] () both.le
    have fitting : 1 ≤ count := greatest.2 ⟨by decide, first.le⟩
    obtain rfl | rfl : count = 1 ∨ count = 2 := by
      have := greatest.1.1
      simp only [List.length_cons, List.length_nil] at this
      omega
    · refine ⟨store, cut, written, made, ?_⟩
      rcases (delivered (recorder none) tireless cut.cursor () #[]).1 with ⟨whole, -⟩ | ⟨-, failed⟩
      · exact absurd whole first.ne
      · exact failed
    · exact absurd greatest.1.2 (Nat.not_le.2 both)
  exact ⟨_, rfl, inside _ (by decide) (by decide)⟩

end ListCoder

end HuffmanStrings
