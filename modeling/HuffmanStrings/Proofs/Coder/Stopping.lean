import HuffmanStrings.Coder.Text
import HuffmanStrings.Proofs.Coder.Delivery

/-!
Consumers that have enough. What is in a store does not depend on who asks for it: a consumer that stops is handed the
first symbols of those that a tireless one is handed, and leaves the store just behind the last of them, where the rest
can be delivered. Nothing behind that place is read, so no damage there is noticed.
-/

namespace HuffmanStrings

namespace Consumer

variable {κ α : Type} {consumer : Consumer κ α} {kept : κ} {symbols : List α} {last : Nat}

/-- Handed these symbols from the number zero on, the consumer says that it has enough at the number `last`, and not
before. If there is no symbol with this number it takes them all. -/
def StopsAt (consumer : Consumer κ α) (kept : κ) (symbols : List α) (last : Nat) : Prop :=
  ∀ index (inside : index < symbols.length), index ≤ last →
    ((consumer.accept index symbols[index] (consumer.handed 0 (symbols.take index) kept)).1 = .enough ↔ index = last)

namespace StopsAt

theorem wants (stops : consumer.StopsAt kept symbols last) {index : Nat} (inside : index < symbols.length)
    (before : index < last) :
    (consumer.accept index symbols[index] (consumer.handed 0 (symbols.take index) kept)).1 = .more := by
  have unsated := mt (stops index inside before.le).1 before.ne
  generalize (consumer.accept index symbols[index] (consumer.handed 0 (symbols.take index) kept)).1 = answer at unsated
  cases answer with
  | more => rfl
  | enough => exact absurd rfl unsated

theorem takes (stops : consumer.StopsAt kept symbols last) {count : Nat} (upTo : count ≤ last) :
    consumer.Takes 0 kept (symbols.take count) (consumer.handed 0 (symbols.take count) kept) := by
  apply takes_handed
  intro index inside
  rw [List.length_take, Nat.lt_min] at inside
  rw [Nat.zero_add, List.getElem_take, List.take_take, Nat.min_eq_left inside.1.le]
  exact stops.wants inside.2 (inside.1.trans_le upTo)

theorem enough (stops : consumer.StopsAt kept symbols last) (within : last < symbols.length) :
    consumer.accept last symbols[last] (consumer.handed 0 (symbols.take last) kept) =
      (.enough, consumer.handed 0 (symbols.take (last + 1)) kept) := by
  have answer := (stops last within le_rfl).2 rfl
  have first : (symbols.take last).length = last := List.length_take_of_le within.le
  rw [List.take_succ_eq_append_getElem within, handed_append, first, Nat.zero_add, ← answer]
  rfl

end StopsAt

end Consumer

namespace Decoder

variable {τ α : Type} {d : Decoder τ α} {one : EStateM Failure τ (Option α)}

/-- What a decoder holds at `s`, to be read by `one` symbol after the other: these symbols, and then this ending. A
consumer is handed all of them, or those up to the first that is enough for it. In the latter case the ending is of no
account, the state is that behind the bits of the last symbol handed over, and the rest is delivered from there. -/
structure Stoppable (d : Decoder τ α) (one : EStateM Failure τ (Option α)) (s : τ) (symbols : List α)
    (ending : EStateM.Result Failure τ Unit) : Prop where
  whole {κ : Type} (consumer : Consumer κ α) (kept : κ) : consumer.Tireless →
    d.deliver consumer (s, kept) = closing ending symbols.length (·, consumer.handed 0 symbols kept)
  stopped (last : Nat) (within : last < symbols.length) : ∃ before after,
    d.Supplies s (symbols.take last) before ∧ one before = .ok (some symbols[last]) after ∧
    (∀ {κ : Type} (consumer : Consumer κ α) (kept : κ), consumer.StopsAt kept symbols last →
      d.deliver consumer (s, kept) = .ok (last + 1) (after, consumer.handed 0 (symbols.take (last + 1)) kept)) ∧
    (∀ {κ : Type} (consumer : Consumer κ α) (kept : κ), consumer.Tireless →
      d.deliver consumer (after, kept) = closing ending (symbols.length - (last + 1))
        (·, consumer.handed 0 (symbols.drop (last + 1)) kept)) ∧
    d.collect (some (last + 1)) s = .ok (symbols.take (last + 1)) after
  unstopped (last : Nat) : symbols.length ≤ last →
    (∀ {κ : Type} (consumer : Consumer κ α) (kept : κ), consumer.StopsAt kept symbols last →
      d.deliver consumer (s, kept) = closing ending symbols.length (·, consumer.handed 0 symbols kept)) ∧
    d.collect (some (last + 1)) s = closing ending symbols id
  unlimited : d.collect none s = closing ending symbols id

theorem exists_stoppable (reads : ∀ {s symbol s'}, d.next s = .ok (some symbol) s' → one s = .ok (some symbol) s')
    (s : τ) : ∃ symbols ending, d.Stoppable one s symbols ending := by
  obtain ⟨symbols, final, ending, supplies, closes⟩ := d.exists_supplies s
  have delivered {κ : Type} {consumer : Consumer κ α} {s : τ} {symbols : List α} {kept kept' : κ}
      (supplies : d.Supplies s symbols final) (takes : consumer.Takes 0 kept symbols kept') :
      d.deliver consumer (s, kept) = closing ending symbols.length (·, kept') := by
    rw [deliver, deliverFrom_of_supplies supplies takes, deliverFrom_of_closes closes, Nat.zero_add]
  refine ⟨symbols, ending, ?_, ?_, ?_, ?_⟩
  · intro κ consumer kept tireless
    exact delivered supplies (tireless.takes 0 symbols kept)
  · intro last within
    -- What is supplied is cut before the last symbol to be handed over, and the delivery of the rest begins behind it.
    have split := supplies
    rw [← List.take_append_drop last symbols, List.drop_eq_getElem_cons within] at split
    obtain ⟨before, first, split⟩ := split.exists_append
    cases split with
    | @cons _ after _ _ _ step later =>
      have count : (symbols.take last).length = last := List.length_take_of_le within.le
      refine ⟨before, after, first, reads step, ?_, ?_, ?_⟩
      · intro κ consumer kept stops
        rw [deliver, deliverFrom_of_supplies first (stops.takes le_rfl), count, Nat.zero_add]
        exact deliverFrom_enough step (stops.enough within)
      · intro κ consumer kept tireless
        have rest := delivered later (tireless.takes 0 _ kept)
        rwa [List.length_drop] at rest
      · have collected := collect_some first step
        rwa [count, ← List.take_succ_eq_append_getElem within] at collected
  · intro last all
    refine ⟨fun consumer kept stops => ?_, ?_⟩
    · have takes := stops.takes all
      rw [List.take_length] at takes
      exact delivered supplies takes
    · have below : ∀ most ∈ some (last + 1), symbols.length < most := by
        intro most limit
        cases limit
        exact Nat.lt_succ_of_le all
      exact collect_of_closes below supplies closes
  · have below : ∀ most ∈ (none : Option Nat), symbols.length < most := by
      intro most limit
      cases limit
    exact collect_of_closes below supplies closes

theorem eq_of_next_untilExhausted {ω : Type} {next : EStateM Failure (Session BitStore ω) (Option α)}
    {consumes : Consumes Session.remaining next} {s s' : Session BitStore ω} {symbol : α}
    (step : (untilExhausted next consumes).next s = .ok (some symbol) s') : next s = .ok (some symbol) s' := by
  by_cases finished : s.medium.rest = []
  · rw [next_untilExhausted finished] at step
    cases step
  · rwa [next_untilExhausted_more finished] at step

end Decoder

namespace ListCoder

variable {ω κ : Type} [Observer ω] (coder : ListCoder) (store : BitStore) (cursor : Nat) (observer : ω)

theorem deliver_anywhere (consumer : Consumer κ String) (kept : κ) :
    coder.deliver consumer (⟨{ store with cursor }, observer⟩, kept) =
      coder.texts.texts.deliver consumer (⟨store.rewound, observer⟩, kept) :=
  rfl

theorem collect_anywhere {limit : Option Nat} (wanted : limit ≠ some 0) :
    coder.collect limit (⟨{ store with cursor }, observer⟩ : Session BitStore ω) =
      coder.texts.texts.collect limit ⟨store.rewound, observer⟩ := by
  rw [collect, if_neg wanted]
  rfl

end ListCoder

/-- Whatever is in a store, a consumer that has enough at some symbol sees of it what a tireless consumer sees up to
there, with the same numbers, and gets the number of symbols; the store is left behind the last symbol it was handed,
and the rest of what the tireless consumer sees is delivered from there. To one that never gets to have enough all goes
as for the tireless one, be it an end or a failure. A list is delivered from the first bit on, wherever the store was
left. -/
theorem decode_stopped {ω : Type} [Observer ω] (chars : CharCoder) (texts : TextCoder) (lists : ListCoder)
    (store : BitStore) (observer : ω) :
    (∃ symbols ending, chars.chars.Stoppable chars.decodeChar ⟨store, observer⟩ symbols ending) ∧
    (∃ symbols ending, texts.texts.Stoppable (some <$> texts.decodeText) ⟨store, observer⟩ symbols ending) ∧
    (∃ symbols ending,
      lists.texts.texts.Stoppable (some <$> lists.texts.decodeText) ⟨store.rewound, observer⟩ symbols ending) ∧
    ∀ cursor,
      (∀ {κ : Type} (consumer : Consumer κ String) (kept : κ),
        lists.deliver consumer (⟨{ store with cursor }, observer⟩, kept) =
          lists.texts.texts.deliver consumer (⟨store.rewound, observer⟩, kept)) ∧
      ∀ limit, limit ≠ some 0 →
        lists.collect limit (⟨{ store with cursor }, observer⟩ : Session BitStore ω) =
          lists.texts.texts.collect limit ⟨store.rewound, observer⟩ :=
  ⟨Decoder.exists_stoppable Decoder.eq_of_next_untilExhausted _,
    Decoder.exists_stoppable Decoder.eq_of_next_untilExhausted _,
    Decoder.exists_stoppable Decoder.eq_of_next_untilExhausted _,
    fun cursor => ⟨fun consumer kept => lists.deliver_anywhere store cursor observer consumer kept,
      fun _ wanted => lists.collect_anywhere store cursor observer wanted⟩⟩

end HuffmanStrings
