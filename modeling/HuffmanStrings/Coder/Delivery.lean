import HuffmanStrings.Coder.Session
import HuffmanStrings.Failure

/-!
Delivering decoded symbols. A decoder yields one symbol after another; a consumer is handed each of them with
its index and says whether it wants more. The stream does not say how many symbols it holds: delivery ends when
the consumer stops it, when the decoder has no more, or with a failure, which takes back nothing.
-/

namespace HuffmanStrings

inductive Demand
  | more
  | enough
  deriving DecidableEq, Repr

structure Consumer (κ α : Type) where
  accept (index : Nat) (symbol : α) (kept : κ) : Demand × κ

structure Collected (α : Type) where
  items : Array α := #[]
  limit : Option Nat := none
  deriving DecidableEq, Repr

namespace Collected

variable {α : Type}

/-- Keeps a symbol, and asks for no more when there are as many as wanted. -/
def take (c : Collected α) (symbol : α) : Demand × Collected α :=
  let items := c.items.push symbol
  match c.limit with
  | some limit => (if limit ≤ items.size then .enough else .more, { c with items })
  | none => (.more, { c with items })

def consumer : Consumer (Collected α) α where
  accept _ symbol kept := kept.take symbol

end Collected

/-- A consumer that writes down all it is handed and stops at the index `last`, if there is one. -/
def recorder {α : Type} (last : Option Nat) : Consumer (Array (Nat × α)) α where
  accept index symbol kept := (if last = some index then .enough else .more, kept.push (index, symbol))

/-- A supply of symbols that brings the end of its input nearer with each symbol. -/
structure Decoder (τ α : Type) where
  next : EStateM Failure τ (Option α)
  left : τ → Nat
  progress : ∀ {s symbol s'}, next s = .ok (some symbol) s' → left s' < left s

namespace Decoder

variable {τ κ α : Type}

/-- Delivers symbols from number `index` on; the answer is the number of the symbol after the last. -/
def deliverFrom (d : Decoder τ α) (consumer : Consumer κ α) (index : Nat) (kept : κ) (s : τ) :
    EStateM.Result Failure (τ × κ) Nat :=
  match _step : d.next s with
  | .error failure s' => .error failure (s', kept)
  | .ok none s' => .ok index (s', kept)
  | .ok (some symbol) s' =>
    match consumer.accept index symbol kept with
    | (.enough, kept') => .ok (index + 1) (s', kept')
    | (.more, kept') => d.deliverFrom consumer (index + 1) kept' s'
termination_by d.left s
decreasing_by exact d.progress ‹_›

def deliver (d : Decoder τ α) (consumer : Consumer κ α) : EStateM Failure (τ × κ) Nat := fun s =>
  d.deliverFrom consumer 0 s.2 s.1

def run (d : Decoder τ α) (consumer : Consumer κ α) (kept : κ) : EStateM Failure τ κ := fun s =>
  match d.deliver consumer (s, kept) with
  | .ok _ (s', kept') => .ok kept' s'
  | .error failure (s', _) => .error failure s'

theorem left_deliverFrom (d : Decoder τ α) (consumer : Consumer κ α) (index : Nat) (kept : κ) (s : τ)
    {count : Nat} {final : τ × κ} (ends : Keeps d.left d.next)
    (done : d.deliverFrom consumer index kept s = .ok count final) : d.left final.1 ≤ d.left s := by
  fun_induction d.deliverFrom consumer index kept s with
  | case1 => cases done
  | case2 index kept s s' step => cases done; exact ends _ _ _ step
  | case3 index kept s symbol s' step => cases done; exact ends _ _ _ step
  | case4 index kept s symbol s' step _ _ ih => exact Nat.le_trans (ih done) (ends _ _ _ step)

theorem keeps_run (d : Decoder τ α) (consumer : Consumer κ α) (kept : κ) (ends : Keeps d.left d.next) :
    Keeps d.left (d.run consumer kept) := fun s value s' done => by
  unfold run deliver at done
  split at done
  case h_1 delivered => cases done; exact left_deliverFrom d consumer 0 kept s ends delivered
  case h_2 => cases done

def collect (d : Decoder τ α) (limit : Option Nat) : EStateM Failure τ (List α) :=
  if limit = some 0 then pure []
  else (·.items.toList) <$> d.run Collected.consumer { limit }

/-- Ends also where no bit is left. -/
def untilExhausted {σ ω : Type} [BitInput σ] (next : EStateM Failure (Session σ ω) (Option α))
    (consumes : Consumes Session.remaining next) : Decoder (Session σ ω) α where
  next := do
    if ← Session.exhausted then return none
    next
  left := Session.remaining
  progress {s symbol s'} done := by
    obtain ⟨answer, s₁, asked, done⟩ := bind_eq_ok_iff.1 done
    have := Session.keeps_exhausted _ _ _ asked
    cases answer with
    | true => cases done
    | false => exact Nat.lt_of_lt_of_le (consumes _ _ _ done) this

end Decoder

/-!
Producing symbols to encode. A producer is asked whether it has another symbol and, if so, for the symbol. What it has
is encoded one symbol after another, until it says that there is no more, or gives none after all.
-/

/-- A supply of symbols that has fewer left with each symbol it gives. -/
structure Producer (π α : Type) where
  hasNext : π → Bool × π
  next : π → Option α × π
  left : π → Nat
  progress : ∀ {p asked given symbol}, hasNext p = (true, asked) → next asked = (some symbol, given) → left given < left p

namespace Producer

variable {τ π α : Type}

def feedFrom (producer : Producer π α) (encode : α → EStateM Failure τ Unit) (p : π) (s : τ) :
    EStateM.Result Failure (τ × π) Unit :=
  match _asking : producer.hasNext p with
  | (false, asked) => .ok () (s, asked)
  | (true, asked) => match _giving : producer.next asked with
    | (none, given) => .ok () (s, given)
    | (some symbol, given) => match encode symbol s with
      | .ok _ s' => producer.feedFrom encode given s'
      | .error failure s' => .error failure (s', given)
termination_by producer.left p
decreasing_by exact producer.progress ‹_› ‹_›

def feed (producer : Producer π α) (encode : α → EStateM Failure τ Unit) : EStateM Failure (τ × π) Unit := fun s =>
  producer.feedFrom encode s.2 s.1

def ofList : Producer (List α) α where
  hasNext items := (!items.isEmpty, items)
  next
    | [] => (none, [])
    | item :: items => (some item, items)
  left := List.length
  progress {items asked given symbol} asking giving := by
    obtain ⟨-, rfl⟩ := Prod.mk.inj asking
    cases items with
    | nil => cases giving
    | cons item items =>
      cases giving
      exact Nat.lt_succ_self _

end Producer

end HuffmanStrings
