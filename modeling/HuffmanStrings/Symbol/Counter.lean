/-!
Counting symbols. A counter lists its symbols in the order in which they first came, each with a count that
stops at the largest 64-bit number instead of wrapping around.
-/

namespace HuffmanStrings

def addSaturating (a b : UInt64) : UInt64 :=
  UInt64.ofNat (min (a.toNat + b.toNat) (UInt64.size - 1))

structure Counter (α : Type) where
  counts : List (α × UInt64) := []
  deriving DecidableEq, Repr

namespace Counter

variable {α : Type} [DecidableEq α]

/-- Raises the count of a symbol, which joins the end of the list when it is new. -/
def raise (symbol : α) (count : UInt64) : List (α × UInt64) → List (α × UInt64)
  | [] => [(symbol, count)]
  | (other, known) :: rest =>
    if other = symbol then
      (other, addSaturating known count) :: rest
    else
      (other, known) :: raise symbol count rest

def addCount (c : Counter α) (symbol : α) (count : UInt64) : Counter α :=
  ⟨raise symbol count c.counts⟩

def add (c : Counter α) (symbol : α) : Counter α :=
  c.addCount symbol 1

def addAll (c : Counter α) (symbols : List α) : Counter α :=
  symbols.foldl add c

def ofList (symbols : List α) : Counter α :=
  addAll {} symbols

def ofCounts (counts : List (α × UInt64)) : Counter α :=
  counts.foldl (fun c entry => c.addCount entry.1 entry.2) {}

def countOf (c : Counter α) (symbol : α) : UInt64 :=
  (c.counts.lookup symbol).getD 0

def contains (c : Counter α) (symbol : α) : Bool :=
  c.counts.any fun entry => entry.1 = symbol

omit [DecidableEq α] in
/-- The sum of all counts. Where the counts themselves stop at the largest 64-bit number, this one wraps around. -/
def total (c : Counter α) : UInt64 :=
  c.counts.foldl (fun sum entry => sum + entry.2) 0

end Counter

/-- The distinct texts met so far, in the order of their first appearance. -/
structure Vocabulary where
  words : List String := []
  deriving DecidableEq, Repr

namespace Vocabulary

/-- Adds a text unless it is known; the answer says whether it was new. -/
def note (v : Vocabulary) (word : String) : Bool × Vocabulary :=
  if word ∈ v.words then (false, v) else (true, ⟨v.words ++ [word]⟩)

def noteAll (v : Vocabulary) (words : List String) : Vocabulary :=
  words.foldl (fun v word => (v.note word).2) v

end Vocabulary

end HuffmanStrings
