import Mathlib
import HuffmanStrings.Coder.Session
import HuffmanStrings.Proofs.Bits.Store
import HuffmanStrings.Proofs.Code.Decoding

/-!
What coding moves through a bit store. An action of a coder writes certain bits, or reads certain bits if they come
next, and causes certain events on the way. Actions in a row move their bits in a row.
-/

namespace HuffmanStrings

def encodings (codes : List (Nat × Bool)) : List CodeEvent :=
  codes.map fun code => .encoded code.1 code.2

def decodings (codes : List (Nat × Bool)) : List CodeEvent :=
  codes.map fun code => .decoded code.1 code.2

theorem encodings_append (codes others : List (Nat × Bool)) :
    encodings (codes ++ others) = encodings codes ++ encodings others :=
  List.map_append

theorem decodings_append (codes others : List (Nat × Bool)) :
    decodings (codes ++ others) = decodings codes ++ decodings others :=
  List.map_append

theorem decodings_flatMap {α : Type} (codesOf : α → List (Nat × Bool)) (symbols : List α) :
    decodings (symbols.flatMap codesOf) = symbols.flatMap fun symbol => decodings (codesOf symbol) :=
  List.map_flatMap

namespace Session

variable {ω α β : Type} [Observer ω]

def noteAll (events : List CodeEvent) (observer : ω) : ω :=
  events.foldl (fun observer event => Observer.note event observer) observer

theorem noteAll_append (events others : List CodeEvent) (observer : ω) :
    noteAll (events ++ others) observer = noteAll others (noteAll events observer) :=
  List.foldl_append

section Emitting

variable {σ : Type} [BitOutput σ]

/-- A sense in which an action emits bits and causes events, whatever takes the bits: it is enough that fields of bits
are emitted and events are caused, one after another. -/
structure Emission (Emits : EStateM Failure (Session σ ω) Unit → List Bool → List CodeEvent → Prop) : Prop where
  pure : Emits (pure ()) [] []
  bind {act : EStateM Failure (Session σ ω) Unit} {next : Unit → EStateM Failure (Session σ ω) Unit}
    {bits others : List Bool} {events later : List CodeEvent} : Emits act bits events → Emits (next ()) others later →
    Emits (act >>= next) (bits ++ others) (events ++ later)
  note (event : CodeEvent) : Emits (note event) [] [event]
  field {value : UInt64} {count : Nat} : ValidCount count →
    Emits (onMedium (BitOutput.write value count)) (Bits.ofNat count value.toNat) []

variable {Emits : EStateM Failure (Session σ ω) Unit → List Bool → List CodeEvent → Prop}

theorem Emission.noted (emission : Emission Emits) {act : EStateM Failure (Session σ ω) Unit} {bits : List Bool}
    {events : List CodeEvent} (first : Emits act bits events) (event : CodeEvent) :
    Emits (act >>= fun _ => Session.note event) bits (events ++ [event]) := by
  have both : Emits (act >>= fun _ => Session.note event) (bits ++ []) (events ++ [event]) :=
    emission.bind first (emission.note event)
  rwa [List.append_nil] at both

theorem Emission.word [DecidableEq α] (emission : Emission Emits) {t : CodeTable α} {symbol : α} {word : CodeWord}
    (coded : t.codeOf symbol = some word) : Emits (onMedium word.writeTo) word.toBits [] :=
  emission.field (CodeTable.validCount_length (CodeTable.codeOf_eq_some_iff.1 coded))

end Emitting

/-- Whatever the store, the action succeeds and writes just these bits at its cursor. -/
def Writes (act : EStateM Failure (Session BitStore ω) Unit) (bits : List Bool) (events : List CodeEvent) : Prop :=
  ∀ store observer, act ⟨store, observer⟩ = .ok () ⟨store.putAll bits, noteAll events observer⟩

/-- Whatever the store, if these bits come next, the action reads just them and returns the value. -/
def Reads (act : EStateM Failure (Session BitStore ω) α) (bits : List Bool) (value : α) (events : List CodeEvent) :
    Prop :=
  ∀ store observer, bits <+: store.rest →
    act ⟨store, observer⟩ = .ok value ⟨store.advance bits.length, noteAll events observer⟩

section Writing

variable {act : EStateM Failure (Session BitStore ω) Unit} {bits others : List Bool} {events later : List CodeEvent}

theorem Writes.pure : Writes (pure () : EStateM Failure (Session BitStore ω) Unit) [] [] :=
  fun _ _ => rfl

theorem Writes.bind {next : Unit → EStateM Failure (Session BitStore ω) Unit} (first : Writes act bits events)
    (second : Writes (next ()) others later) : Writes (act >>= next) (bits ++ others) (events ++ later) := by
  intro store observer
  rw [BitStore.putAll_append, noteAll_append, ← second]
  simp only [Bind.bind, EStateM.bind, first store observer]

theorem writes_note (event : CodeEvent) :
    Writes (note event : EStateM Failure (Session BitStore ω) Unit) [] [event] :=
  fun _ _ => rfl

theorem writes_field {value : UInt64} {count : Nat} (valid : ValidCount count) :
    Writes (onMedium (BitOutput.write value count) : EStateM Failure (Session BitStore ω) Unit)
      (Bits.ofNat count value.toNat) [] := by
  intro store observer
  have written : BitOutput.write value count store = .ok () (store.putAll (Bits.ofNat count value.toNat)) :=
    BitStore.write_eq_ok valid
  simp only [onMedium, written]
  rfl

theorem emission_writes : Emission (Writes (ω := ω)) where
  pure := .pure
  bind := .bind
  note := writes_note
  field := writes_field

end Writing

section Reading

variable {act : EStateM Failure (Session BitStore ω) α} {bits others : List Bool} {value : α} {result : β}
  {events later : List CodeEvent}

theorem Reads.pure (value : α) : Reads (pure value : EStateM Failure (Session BitStore ω) α) [] value [] :=
  fun _ _ _ => rfl

theorem Reads.bind {next : α → EStateM Failure (Session BitStore ω) β} (first : Reads act bits value events)
    (second : Reads (next value) others result later) :
    Reads (act >>= next) (bits ++ others) result (events ++ later) := by
  intro store observer ahead
  have begins : bits <+: store.rest := (List.prefix_append bits others).trans ahead
  rw [List.length_append, ← BitStore.advance_advance, noteAll_append,
    ← second _ _ (BitStore.prefix_rest_advance ahead)]
  simp only [Bind.bind, EStateM.bind, first store observer begins]

theorem Reads.map (first : Reads act bits value events) (f : α → β) : Reads (f <$> act) bits (f value) events := by
  intro store observer ahead
  simp only [Functor.map, EStateM.map, first store observer ahead]

theorem reads_note (event : CodeEvent) :
    Reads (note event : EStateM Failure (Session BitStore ω) Unit) [] () [event] :=
  fun _ _ _ => rfl

theorem Reads.noted {next : α → EStateM Failure (Session BitStore ω) β} {event : CodeEvent}
    (first : Reads act bits value events) (last : next value = do note event; return result) :
    Reads (act >>= next) bits result (events ++ [event]) := by
  have told : Reads (next value) [] result [event] := by
    rw [last]
    exact (reads_note event).bind (Reads.pure result)
  have both := first.bind told
  rwa [List.append_nil] at both

theorem reads_field {value count : Nat} (valid : ValidCount count) (fits : value < 2 ^ count) :
    Reads (onMedium (BitInput.read count) : EStateM Failure (Session BitStore ω) UInt64)
      (Bits.ofNat count value) (UInt64.ofNat value) [] := by
  intro store observer ahead
  have size := Bits.length_ofNat count value
  have taken : store.rest.take count = Bits.ofNat count value := by
    rw [List.prefix_iff_eq_take.1 ahead, size]
  have read : BitInput.read count store = .ok (UInt64.ofNat value) (store.advance count) := by
    have done := BitStore.read_eq_ok valid (size ▸ ahead.length_le)
    rwa [taken, Bits.toNat_ofNat, Nat.mod_eq_of_lt fits] at done
  simp only [onMedium, read, size]
  rfl

theorem reads_word [DecidableEq α] {t : CodeTable α} {symbol : α} {word : CodeWord}
    (coded : t.codeOf symbol = some word) :
    Reads (onMedium t.decode : EStateM Failure (Session BitStore ω) (α × CodeWord)) word.toBits (symbol, word) [] := by
  intro store observer ahead
  simp only [onMedium, CodeTable.decode_eq_ok (CodeTable.codeOf_eq_some_iff.1 coded) ahead, CodeWord.length_toBits]
  rfl

end Reading

end Session

end HuffmanStrings
