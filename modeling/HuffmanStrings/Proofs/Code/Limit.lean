import Mathlib
import HuffmanStrings.Proofs.Code.CoinMerge
import HuffmanStrings.Proofs.Code.MergeTree

/-!
Lengths under a limit. Coins buy lengths that keep to the limit, leave nothing over and cost least, whether merging would
have kept to it or not; where it does, the two ways cost the same. A round at most doubles the weight of a coin, so coins
of 64-bit weights need no more than 128 bits.
-/

namespace HuffmanStrings

theorem Optimal.cost_eq {weights lengths others : List Nat} {limit : Nat} (optimal : Optimal weights limit lengths)
    (other : Optimal weights limit others) : cost weights lengths = cost weights others :=
  le_antisymm (optimal.cost_le others other.admissible) (other.cost_le lengths optimal.admissible)

namespace Coin

variable {weights : List Nat} {limit : Nat}

section Weights

variable {bound : Nat} {coin : Coin}

theorem weight_lt_of_mem_fresh (small : ∀ weight ∈ weights, weight < bound) (member : coin ∈ fresh weights) :
    coin.weight < bound := by
  obtain ⟨symbol, known, rfl⟩ := List.mem_map.1 ((perm_fresh weights).mem_iff.1 member)
  exact small _ (valueAt_mem (List.mem_range.1 known))

theorem weight_lt_of_mem_round (small : ∀ weight ∈ weights, weight < bound) {coins : List Coin}
    (before : ∀ coin ∈ coins, coin.weight < bound) (member : coin ∈ round (fresh weights) coins) :
    coin.weight < 2 * bound := by
  rcases List.mem_append.1 ((perm_round _ _).mem_iff.1 member) with leaf | package
  · have := weight_lt_of_mem_fresh small leaf
    omega
  · obtain ⟨a, first, b, second, rfl⟩ := mem_pairUp package
    calc
      (join a b).weight = a.weight + b.weight := rfl
      _ < bound + bound := Nat.add_lt_add (before a first) (before b second)
      _ = 2 * bound := (Nat.two_mul bound).symm

theorem weight_lt_of_mem_afterRounds (small : ∀ weight ∈ weights, weight < bound) {count : Nat}
    (member : coin ∈ afterRounds (fresh weights) count) : coin.weight < 2 ^ count * bound := by
  induction count generalizing coin with
  | zero =>
    rw [pow_zero, one_mul]
    exact weight_lt_of_mem_fresh small member
  | succ count ih =>
    have grown : ∀ weight ∈ weights, weight < 2 ^ count * bound := fun weight listed =>
      (small weight listed).trans_le (Nat.le_mul_of_pos_left bound (Nat.two_pow_pos count))
    rw [afterRounds_succ] at member
    rw [pow_succ', mul_assoc]
    exact weight_lt_of_mem_round grown (fun _ => ih) member

theorem weight_lt_of_words (words : ∀ weight ∈ weights, weight < 2 ^ 64) {count : Nat} (within : count < 64)
    (member : coin ∈ afterRounds (fresh weights) count) : coin.weight < 2 ^ 128 :=
  calc
    coin.weight < 2 ^ count * 2 ^ 64 := weight_lt_of_mem_afterRounds words member
    _ ≤ 2 ^ 64 * 2 ^ 64 := Nat.mul_le_mul_right _ (Nat.pow_le_pow_right two_pos within.le)
    _ = 2 ^ 128 := by rw [← pow_add]

end Weights

/-- Lengths from coins are optimal under the limit and leave nothing over. They cost as much as lengths from merging if
these keep to the limit too. -/
theorem lengths_under_limit (words : ∀ weight ∈ weights, weight < 2 ^ 64) (several : 2 ≤ weights.length)
    (range : 1 ≤ limit ∧ limit ≤ 64) (room : weights.length ≤ 2 ^ limit) :
    Optimal weights limit (lengths weights limit) ∧ kraft (lengths weights limit) = 1 ∧
      ((∀ length ∈ MergeTree.lengths weights, length ≤ limit) →
        cost weights (lengths weights limit) = cost weights (MergeTree.lengths weights)) ∧
      ∀ count < limit, ∀ coin ∈ afterRounds (fresh weights) count, coin.weight < 2 ^ 128 := by
  have optimal := optimal_lengths several room
  refine ⟨optimal, kraft_lengths several room, fun kept => ?_, fun count within coin => ?_⟩
  · exact optimal.cost_eq (MergeTree.optimal_lengths several kept)
  · exact weight_lt_of_words words (within.trans_le range.2)

/-- Merging takes words of four bits here, so a limit of four makes no difference. -/
theorem lengths_under_limit_four :
    (∀ length ∈ MergeTree.lengths [0, 1, 2, 3, 5], length ≤ 4) ∧
      Optimal [0, 1, 2, 3, 5] 4 (lengths [0, 1, 2, 3, 5] 4) ∧ kraft (lengths [0, 1, 2, 3, 5] 4) = 1 ∧
      cost [0, 1, 2, 3, 5] (lengths [0, 1, 2, 3, 5] 4) = 21 := by
  have merged : MergeTree.lengths [0, 1, 2, 3, 5] = [4, 4, 3, 2, 1] := by cbv
  have kept : ∀ length ∈ MergeTree.lengths [0, 1, 2, 3, 5], length ≤ 4 := by
    rw [merged]
    decide
  obtain ⟨optimal, whole, same, -⟩ := lengths_under_limit (by decide : ∀ weight ∈ [0, 1, 2, 3, 5], weight < 2 ^ 64)
    (by decide) (by decide : 1 ≤ 4 ∧ 4 ≤ 64) (by decide)
  refine ⟨kept, optimal, whole, ?_⟩
  rw [same kept, merged]
  rfl

/-- Under a limit of three the heaviest weight gets a longer word. -/
example : lengths [0, 1, 2, 3, 5] 3 = [3, 3, 2, 2, 2] := by cbv

end Coin

end HuffmanStrings
