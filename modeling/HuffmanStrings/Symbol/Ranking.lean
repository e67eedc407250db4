import HuffmanStrings.Failure
import HuffmanStrings.Symbol.Counter

/-!
Ranking symbols by frequency. The most frequent comes first, and equally frequent symbols keep the order in
which they were supplied; an escape symbol that was not supplied joins them last, with frequency zero.
-/

namespace HuffmanStrings

structure RankedSymbol (α : Type) where
  symbol : α
  frequency : UInt64
  rank : Nat
  deriving DecidableEq, Repr

/-- Ranked symbols, the escape among them if there is one, and the shortest code that any of them may get. -/
structure Ranking (α : Type) where
  entries : List (RankedSymbol α)
  escape : Option α
  minimum : Nat
  deriving DecidableEq, Repr

namespace Ranking

variable {α : Type} [DecidableEq α]

def withEscape (counts : Counter α) : Option α → List (α × UInt64)
  | some escape => if counts.contains escape then counts.counts else counts.counts ++ [(escape, 0)]
  | none => counts.counts

omit [DecidableEq α] in
/-- Pairs by descending frequency, equal ones in their order, each with its position. -/
def rank (frequencies : List (α × UInt64)) : List (RankedSymbol α) :=
  (frequencies.mergeSort fun a b => b.2 ≤ a.2).mapIdx fun position entry => ⟨entry.1, entry.2, position⟩

/-- Ranks symbols by frequency; a symbol that is listed repeatedly gets the sum. -/
def build (frequencies : List (α × UInt64)) (escape : Option α) (minimum : Nat) :
    Except Failure (Ranking α) :=
  let counts := Counter.ofCounts frequencies
  if minimum = 0 then
    .error (.invalidBounds .zeroMinimum)
  else if counts.counts.isEmpty then
    .error .emptyAlphabet
  else
    .ok { entries := rank (withEscape counts escape), escape, minimum }

omit [DecidableEq α] in
def size (r : Ranking α) : Nat :=
  r.entries.length

omit [DecidableEq α] in
def symbols (r : Ranking α) : List α :=
  r.entries.map (·.symbol)

omit [DecidableEq α] in
def frequencies (r : Ranking α) : List UInt64 :=
  r.entries.map (·.frequency)

def find? (r : Ranking α) (symbol : α) : Option (RankedSymbol α) :=
  r.entries.find? fun entry => entry.symbol = symbol

def rankOf (r : Ranking α) (symbol : α) : Option Nat :=
  (r.find? symbol).map (·.rank)

def frequencyOf (r : Ranking α) (symbol : α) : Option UInt64 :=
  (r.find? symbol).map (·.frequency)

def contains (r : Ranking α) (symbol : α) : Bool :=
  (r.find? symbol).isSome

end Ranking

end HuffmanStrings
