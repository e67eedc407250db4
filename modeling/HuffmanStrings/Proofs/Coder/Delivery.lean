import Mathlib
import HuffmanStrings.Coder.Delivery
import HuffmanStrings.Proofs.Coder.Transfer

/-!
What is delivered. A decoder supplies symbols from one state to another, a consumer takes them until it has enough,
and delivery is the one fed to the other.
-/

namespace HuffmanStrings

namespace Consumer

/-- Handed these symbols from number `index` on, the consumer takes them all and wants more. -/
inductive Takes {κ α : Type} (consumer : Consumer κ α) : Nat → κ → List α → κ → Prop
  | nil (index : Nat) (kept : κ) : Takes consumer index kept [] kept
  | cons {index : Nat} {kept kept' last : κ} {symbol : α} {rest : List α} :
      consumer.accept index symbol kept = (.more, kept') → Takes consumer (index + 1) kept' rest last →
      Takes consumer index kept (symbol :: rest) last

variable {κ α : Type}

def Tireless (consumer : Consumer κ α) : Prop :=
  ∀ index symbol kept, (consumer.accept index symbol kept).1 = .more

/-- What a consumer keeps that is handed each symbol with its number, from `index` on. -/
def handed (consumer : Consumer κ α) (index : Nat) (symbols : List α) (kept : κ) : κ :=
  (symbols.zipIdx index).foldl (fun kept entry => (consumer.accept entry.2 entry.1 kept).2) kept

theorem handed_append (consumer : Consumer κ α) (index : Nat) (front back : List α) (kept : κ) :
    consumer.handed index (front ++ back) kept =
      consumer.handed (index + front.length) back (consumer.handed index front kept) := by
  rw [handed, List.zipIdx_append, List.foldl_append, handed, handed]

theorem takes_handed {consumer : Consumer κ α} {index : Nat} {symbols : List α} {kept : κ}
    (wants : ∀ offset (inside : offset < symbols.length),
      (consumer.accept (index + offset) symbols[offset] (consumer.handed index (symbols.take offset) kept)).1 = .more) :
    consumer.Takes index kept symbols (consumer.handed index symbols kept) := by
  induction symbols generalizing index kept with
  | nil => exact .nil ..
  | cons symbol rest ih =>
    have answer : (consumer.accept index symbol kept).1 = .more := wants 0 (Nat.zero_lt_succ _)
    have more : consumer.accept index symbol kept = (.more, (consumer.accept index symbol kept).2) := by
      rw [← answer]
    refine .cons more (ih fun offset inside => ?_)
    rw [Nat.add_right_comm]
    exact wants (offset + 1) (Nat.succ_lt_succ inside)

theorem Tireless.takes {consumer : Consumer κ α} (tireless : consumer.Tireless) (index : Nat) (symbols : List α)
    (kept : κ) : consumer.Takes index kept symbols (consumer.handed index symbols kept) :=
  takes_handed fun offset inside => tireless (index + offset) symbols[offset] _

end Consumer

namespace Decoder

variable {τ κ α : Type} {d : Decoder τ α} {consumer : Consumer κ α} {index : Nat} {kept kept' : κ} {symbol : α}
  {symbols : List α} {s s' s'' : τ}

inductive Supplies (d : Decoder τ α) : τ → List α → τ → Prop
  | nil (s : τ) : Supplies d s [] s
  | cons {s s' s'' : τ} {symbol : α} {rest : List α} :
      d.next s = .ok (some symbol) s' → Supplies d s' rest s'' → Supplies d s (symbol :: rest) s''

/-- How a delivery goes from number `index` on: the symbols that it hands over, and its result. -/
inductive Delivers (d : Decoder τ α) (consumer : Consumer κ α) :
    Nat → κ → τ → List α → EStateM.Result Failure (τ × κ) Nat → Prop
  | failed {index : Nat} {kept : κ} {s s' : τ} {failure : Failure} : d.next s = .error failure s' →
      Delivers d consumer index kept s [] (.error failure (s', kept))
  | ended {index : Nat} {kept : κ} {s s' : τ} : d.next s = .ok none s' →
      Delivers d consumer index kept s [] (.ok index (s', kept))
  | stopped {index : Nat} {kept kept' : κ} {s s' : τ} {symbol : α} : d.next s = .ok (some symbol) s' →
      consumer.accept index symbol kept = (.enough, kept') →
      Delivers d consumer index kept s [symbol] (.ok (index + 1) (s', kept'))
  | wentOn {index : Nat} {kept kept' : κ} {s s' : τ} {symbol : α} {rest : List α}
      {result : EStateM.Result Failure (τ × κ) Nat} : d.next s = .ok (some symbol) s' →
      consumer.accept index symbol kept = (.more, kept') → Delivers d consumer (index + 1) kept' s' rest result →
      Delivers d consumer index kept s (symbol :: rest) result

section Steps

theorem deliverFrom_eq : d.deliverFrom consumer index kept s =
    match d.next s with
    | .error failure s' => .error failure (s', kept)
    | .ok none s' => .ok index (s', kept)
    | .ok (some symbol) s' =>
      match consumer.accept index symbol kept with
      | (.enough, kept') => .ok (index + 1) (s', kept')
      | (.more, kept') => d.deliverFrom consumer (index + 1) kept' s' := by
  rw [deliverFrom]
  split
  · rename_i step
    simp only [step]
  · rename_i step
    simp only [step]
  · rename_i symbol s' step
    rcases accepted : consumer.accept index symbol kept with ⟨_ | _, kept'⟩
    · simp only [step, accepted]
    · simp only [step, accepted]

theorem deliverFrom_more (step : d.next s = .ok (some symbol) s')
    (more : consumer.accept index symbol kept = (.more, kept')) :
    d.deliverFrom consumer index kept s = d.deliverFrom consumer (index + 1) kept' s' := by
  rw [deliverFrom_eq, step]
  simp only [more]

theorem deliverFrom_enough (step : d.next s = .ok (some symbol) s')
    (enough : consumer.accept index symbol kept = (.enough, kept')) :
    d.deliverFrom consumer index kept s = .ok (index + 1) (s', kept') := by
  rw [deliverFrom_eq, step]
  simp only [enough]

theorem deliverFrom_end (step : d.next s = .ok none s') :
    d.deliverFrom consumer index kept s = .ok index (s', kept) := by
  rw [deliverFrom_eq, step]

theorem deliverFrom_error {failure : Failure} (step : d.next s = .error failure s') :
    d.deliverFrom consumer index kept s = .error failure (s', kept) := by
  rw [deliverFrom_eq, step]

theorem exists_delivers (d : Decoder τ α) (consumer : Consumer κ α) (index : Nat) (kept : κ) (s : τ) :
    ∃ symbols, d.Delivers consumer index kept s symbols (d.deliverFrom consumer index kept s) := by
  fun_induction d.deliverFrom consumer index kept s with
  | case1 index kept s failure s' step => exact ⟨[], .failed step⟩
  | case2 index kept s s' step => exact ⟨[], .ended step⟩
  | case3 index kept s symbol s' step kept' enough => exact ⟨[symbol], .stopped step enough⟩
  | case4 index kept s symbol s' step kept' more ih =>
    obtain ⟨rest, later⟩ := ih
    exact ⟨symbol :: rest, .wentOn step more later⟩

theorem Delivers.deliverFrom_eq {result : EStateM.Result Failure (τ × κ) Nat}
    (delivers : d.Delivers consumer index kept s symbols result) :
    d.deliverFrom consumer index kept s = result := by
  induction delivers with
  | failed step => exact deliverFrom_error step
  | ended step => exact deliverFrom_end step
  | stopped step enough => exact deliverFrom_enough step enough
  | wentOn step more _ ih => rw [deliverFrom_more step more, ih]

end Steps

theorem deliverFrom_of_supplies (supplies : d.Supplies s symbols s') (takes : consumer.Takes index kept symbols kept') :
    d.deliverFrom consumer index kept s = d.deliverFrom consumer (index + symbols.length) kept' s' := by
  induction supplies generalizing index kept with
  | nil => cases takes; rfl
  | cons step _ ih =>
    cases takes with
    | cons more later =>
      rw [deliverFrom_more step more, ih later, List.length_cons]
      congr 1
      omega

theorem deliver_of_supplies (supplies : d.Supplies s symbols s') (takes : consumer.Takes 0 kept symbols kept')
    (ends : d.next s' = .ok none s'') : d.deliver consumer (s, kept) = .ok symbols.length (s'', kept') := by
  rw [deliver, deliverFrom_of_supplies supplies takes, deliverFrom_end ends, Nat.zero_add]

section Endings

/-- Here the decoder yields no more: it has come to an end, or it fails. -/
def Closes (d : Decoder τ α) (s : τ) (ending : EStateM.Result Failure τ Unit) : Prop :=
  match ending with
  | .ok _ s' => d.next s = .ok none s'
  | .error failure s' => d.next s = .error failure s'

def closing {υ β : Type} (ending : EStateM.Result Failure τ Unit) (value : β) (add : τ → υ) :
    EStateM.Result Failure υ β :=
  match ending with
  | .ok _ s => .ok value (add s)
  | .error failure s => .error failure (add s)

theorem exists_supplies (d : Decoder τ α) (s : τ) :
    ∃ symbols last ending, d.Supplies s symbols last ∧ d.Closes last ending := by
  induction size : d.left s using Nat.strong_induction_on generalizing s with
  | h size ih =>
    subst size
    cases step : d.next s with
    | error failure s' => exact ⟨[], s, .error failure s', .nil s, step⟩
    | ok answer s' =>
      cases answer with
      | none => exact ⟨[], s, .ok () s', .nil s, step⟩
      | some symbol =>
        obtain ⟨rest, last, ending, supplies, closes⟩ := ih (d.left s') (d.progress step) s' rfl
        exact ⟨symbol :: rest, last, ending, .cons step supplies, closes⟩

theorem Supplies.exists_append {front back : List α} (supplies : d.Supplies s (front ++ back) s'') :
    ∃ s', d.Supplies s front s' ∧ d.Supplies s' back s'' := by
  induction front generalizing s with
  | nil => exact ⟨s, .nil s, supplies⟩
  | cons symbol rest ih =>
    cases supplies with
    | cons step later =>
      obtain ⟨s', before, after⟩ := ih later
      exact ⟨s', .cons step before, after⟩

theorem deliverFrom_of_closes {ending : EStateM.Result Failure τ Unit} (closes : d.Closes s ending) :
    d.deliverFrom consumer index kept s = closing ending index (·, kept) := by
  cases ending with
  | ok _ s' => exact deliverFrom_end closes
  | error failure s' => exact deliverFrom_error closes

end Endings

section Collecting

theorem takes_collected (index : Nat) (collected : Collected α)
    (below : ∀ limit ∈ collected.limit, collected.items.size + symbols.length < limit) :
    Collected.consumer.Takes index collected symbols { collected with items := collected.items ++ symbols.toArray } := by
  induction symbols generalizing index collected with
  | nil =>
    have none : Collected.consumer.Takes index collected [] collected := .nil ..
    simpa using none
  | cons symbol rest ih =>
    have more : Collected.consumer.accept index symbol collected =
        (.more, { collected with items := collected.items.push symbol }) := by
      simp only [Collected.consumer, Collected.take]
      split
      · rename_i limit given
        have := below limit given
        rw [List.length_cons] at this
        rw [if_neg (by rw [Array.size_push]; omega), given]
      · rename_i given
        rw [given]
    refine .cons more ?_
    have later : ∀ limit ∈ collected.limit, (collected.items.push symbol).size + rest.length < limit := by
      intro limit given
      have := below limit given
      rw [List.length_cons] at this
      rw [Array.size_push]
      omega
    simpa using ih (index + 1) { collected with items := collected.items.push symbol } later

theorem collect_of_closes {limit : Option Nat} {ending : EStateM.Result Failure τ Unit}
    (below : ∀ most ∈ limit, symbols.length < most) (supplies : d.Supplies s symbols s') (closes : d.Closes s' ending) :
    d.collect limit s = closing ending symbols id := by
  have wanted : limit ≠ some 0 := by
    rintro rfl
    exact Nat.not_lt_zero _ (below 0 rfl)
  have takes : Collected.consumer.Takes 0 { limit } symbols { limit, items := symbols.toArray } := by
    simpa using takes_collected 0 { limit } (by simpa using below)
  rw [collect, if_neg wanted]
  simp only [Functor.map, EStateM.map, run, deliver, deliverFrom_of_supplies supplies takes, deliverFrom_of_closes closes]
  cases ending with
  | ok _ s'' => rfl
  | error failure s'' => rfl

theorem collect_all {limit : Option Nat} (below : ∀ most ∈ limit, symbols.length < most)
    (supplies : d.Supplies s symbols s') (ends : d.next s' = .ok none s'') :
    d.collect limit s = .ok symbols s'' := by
  have closes : d.Closes s' (.ok () s'') := ends
  exact collect_of_closes below supplies closes

theorem collect_some (supplies : d.Supplies s symbols s') (next : d.next s' = .ok (some symbol) s'') :
    d.collect (some (symbols.length + 1)) s = .ok (symbols ++ [symbol]) s'' := by
  have takes : Collected.consumer.Takes 0 { limit := some (symbols.length + 1) } symbols
      { limit := some (symbols.length + 1), items := symbols.toArray } := by
    simpa using takes_collected 0 { limit := some (symbols.length + 1) } (by simp)
  have enough : Collected.consumer.accept (0 + symbols.length) symbol
      { limit := some (symbols.length + 1), items := symbols.toArray } =
      (.enough, { limit := some (symbols.length + 1), items := symbols.toArray.push symbol }) := by
    simp [Collected.consumer, Collected.take]
  rw [collect, if_neg (by simp)]
  simp only [Functor.map, EStateM.map, run, deliver, deliverFrom_of_supplies supplies takes,
    deliverFrom_enough next enough, Array.toList_push]

end Collecting

section Sessions

variable {ω : Type} [Observer ω]

theorem supplies_of_reads {d : Decoder (Session BitStore ω) α} {bitsOf : α → List Bool}
    {eventsOf : α → List CodeEvent}
    (reads : ∀ symbol, Session.Reads d.next (bitsOf symbol) (some symbol) (eventsOf symbol)) (symbols : List α)
    {store : BitStore} {observer : ω} (ahead : symbols.flatMap bitsOf <+: store.rest) :
    d.Supplies ⟨store, observer⟩ symbols
      ⟨store.advance (symbols.flatMap bitsOf).length, Session.noteAll (symbols.flatMap eventsOf) observer⟩ := by
  induction symbols generalizing store observer with
  | nil => exact .nil _
  | cons symbol rest ih =>
    rw [List.flatMap_cons] at ahead
    refine .cons (reads symbol store observer ((List.prefix_append _ _).trans ahead)) ?_
    rw [List.flatMap_cons, List.flatMap_cons, List.length_append, ← BitStore.advance_advance, Session.noteAll_append]
    exact ih (BitStore.prefix_rest_advance ahead)

theorem reads_run {d : Decoder (Session BitStore ω) α} {bitsOf : α → List Bool} {eventsOf : α → List CodeEvent}
    {bits : List Bool} {events : List CodeEvent}
    (reads : ∀ symbol, Session.Reads d.next (bitsOf symbol) (some symbol) (eventsOf symbol))
    (ends : Session.Reads d.next bits none events) (takes : consumer.Takes 0 kept symbols kept') :
    Session.Reads (d.run consumer kept) (symbols.flatMap bitsOf ++ bits) kept' (symbols.flatMap eventsOf ++ events) := by
  intro store observer ahead
  have begins := (List.prefix_append _ _).trans ahead
  have ended := ends _ (Session.noteAll (symbols.flatMap eventsOf) observer) (BitStore.prefix_rest_advance ahead)
  rw [List.length_append, ← BitStore.advance_advance, Session.noteAll_append]
  simp only [run, deliver_of_supplies (supplies_of_reads reads symbols begins) takes ended]

variable {next : EStateM Failure (Session BitStore ω) (Option α)} {consumes : Consumes Session.remaining next}

omit [Observer ω] in
theorem next_untilExhausted_more {store : BitStore} {observer : ω} (more : store.rest ≠ []) :
    (untilExhausted next consumes).next ⟨store, observer⟩ = next ⟨store, observer⟩ := by
  have unfinished : ¬store.size ≤ store.cursor := by
    have positive := List.length_pos_of_ne_nil more
    rw [BitStore.length_rest, BitStore.left] at positive
    omega
  simp [untilExhausted, Session.exhausted, Session.onMedium, BitInput.exhausted, Bind.bind, EStateM.bind, unfinished]

omit [Observer ω] in
/-- What can be read is left to read, so it is read also by a decoder that ends with the last bit. -/
theorem next_untilExhausted_of_ok {s s' : Session BitStore ω} {answer : Option α} (done : next s = .ok answer s') :
    (untilExhausted next consumes).next s = .ok answer s' := by
  have nearer : s'.medium.left < s.medium.left := consumes _ _ _ done
  have more : s.medium.rest ≠ [] := by
    intro none
    have size := s.medium.length_rest
    rw [none, List.length_nil] at size
    omega
  exact (next_untilExhausted_more more).trans done

theorem reads_untilExhausted {bits : List Bool} {events : List CodeEvent}
    (reads : Session.Reads next bits (some symbol) events) :
    Session.Reads (untilExhausted next consumes).next bits (some symbol) events :=
  fun store observer ahead => next_untilExhausted_of_ok (reads store observer ahead)

omit [Observer ω] in
theorem next_untilExhausted {store : BitStore} {observer : ω} (finished : store.rest = []) :
    (untilExhausted next consumes).next ⟨store, observer⟩ = .ok none ⟨store, observer⟩ := by
  have ended : store.size ≤ store.cursor := by
    have size := store.length_rest
    rw [finished, BitStore.left, List.length_nil] at size
    omega
  simp [untilExhausted, Session.exhausted, Session.onMedium, BitInput.exhausted, Bind.bind, EStateM.bind, Pure.pure,
    EStateM.pure, ended]

end Sessions

end Decoder

end HuffmanStrings
