/-!
Optimal code lengths without a bound: the two lightest trees of a queue are joined until one is left, and a
leaf's depth is the length of its code. Of equally heavy trees the one that came first goes first, leaves in
the order of their weights' list and joined trees in the order of joining.
-/

namespace HuffmanStrings

/-- A binary tree whose leaves stand for positions in a list of weights. -/
inductive MergeTree
  | leaf (index : Nat)
  | node (left right : MergeTree)
  deriving DecidableEq, Repr

namespace MergeTree

def depths (depth : Nat) : MergeTree → List (Nat × Nat)
  | leaf index => [(index, depth)]
  | node left right => depths (depth + 1) left ++ depths (depth + 1) right

abbrev Queue := List (Nat × MergeTree)

/-- Inserts a tree behind all that are not heavier. -/
def insert (entry : Nat × MergeTree) : Queue → Queue
  | [] => [entry]
  | head :: rest => if head.1 ≤ entry.1 then head :: insert entry rest else entry :: head :: rest

theorem length_insert (entry : Nat × MergeTree) (queue : Queue) :
    (insert entry queue).length = queue.length + 1 := by
  induction queue with
  | nil => rfl
  | cons head rest ih =>
    unfold insert
    split
    · simp [ih]
    · rfl

def merge : Queue → Option MergeTree
  | [] => none
  | [(_, tree)] => some tree
  | (v, left) :: (w, right) :: rest => merge (insert (v + w, node left right) rest)
termination_by queue => queue.length
decreasing_by simp [length_insert]

def leaves (weights : List Nat) : Queue :=
  (weights.mapIdx fun index weight => (weight, leaf index)).mergeSort fun a b => a.1 ≤ b.1

/-- Optimal code lengths, in the order of the weights. A lone symbol still needs one bit. -/
def lengths (weights : List Nat) : List Nat :=
  match weights with
  | [] => []
  | [_] => [1]
  | _ => match merge (leaves weights) with
    | none => []
    | some tree => ((depths 0 tree).mergeSort fun a b => a.1 ≤ b.1).map (·.2)

end MergeTree

/-!
Optimal code lengths under a bound. Each symbol is a coin of its weight in every one of `limit` rounds. A round
packages the coins of the round before in pairs and merges them with fresh coins, the lightest first and a
fresh coin before an equally heavy package. The `2 n - 2` lightest coins of the last round are bought, and
a symbol's code is as long as the number of its coins among them.
-/

structure Coin where
  weight : Nat
  symbols : List Nat
  deriving DecidableEq, Repr

namespace Coin

def join (a b : Coin) : Coin :=
  ⟨a.weight + b.weight, a.symbols ++ b.symbols⟩

/-- Packages of two neighbours each; an odd coin at the end is dropped. -/
def pairUp : List Coin → List Coin
  | a :: b :: rest => join a b :: pairUp rest
  | _ => []

def fresh (weights : List Nat) : List Coin :=
  (weights.mapIdx fun index weight => ⟨weight, [index]⟩).mergeSort fun a b => a.weight ≤ b.weight

def afterRounds (coins : List Coin) : Nat → List Coin
  | 0 => coins
  | count + 1 => coins.merge (pairUp (afterRounds coins count)) fun a b => a.weight ≤ b.weight

def tally (size : Nat) (indices : List Nat) : Array Nat :=
  indices.foldl (fun counts index => counts.modify index (· + 1)) (Array.replicate size 0)

/-- Optimal code lengths of at most `limit` bits, in the order of the weights. There must be at most
`2 ^ limit` of them. A lone symbol still needs one bit. -/
def lengths (weights : List Nat) (limit : Nat) : List Nat :=
  match weights with
  | [] => []
  | [_] => [1]
  | _ =>
    let bought := (afterRounds (fresh weights) (limit - 1)).take (2 * weights.length - 2)
    (tally weights.length (bought.flatMap (·.symbols))).toList

end Coin

end HuffmanStrings
