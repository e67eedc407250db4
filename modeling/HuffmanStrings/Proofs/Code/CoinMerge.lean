import Mathlib
import HuffmanStrings.Code.Optimal
import HuffmanStrings.Proofs.Code.Lengths

/-!
Bounded code lengths are optimal. Whatever number of coins is bought in a round, the words of the lengths that they
stand for leave exactly the share that the number says, and no coins that leave as little cost less. Both
follow from one round to the next.
-/

namespace HuffmanStrings.Coin

theorem sum_take_le {sorted : List Nat} (ordered : sorted.Pairwise (· ≤ ·)) {chosen : Multiset Nat}
    (among : chosen ≤ sorted) {count : Nat} (enough : count ≤ chosen.card) :
    (sorted.take count).sum ≤ chosen.sum := by
  induction sorted generalizing chosen count with
  | nil => simp
  | cons head rest ih =>
    rw [List.pairwise_cons] at ordered
    rw [← Multiset.cons_coe] at among
    cases count with
    | zero => simp
    | succ count =>
      rw [List.take_succ_cons, List.sum_cons]
      by_cases taken : head ∈ chosen
      · obtain ⟨others, rfl⟩ := Multiset.exists_cons_of_mem taken
        rw [Multiset.card_cons] at enough
        rw [Multiset.sum_cons]
        exact Nat.add_le_add_left (ih ordered.2 ((Multiset.cons_le_cons_iff _).1 among) (by omega)) _
      · have later := (Multiset.le_cons_of_notMem taken).1 among
        obtain ⟨dearer, member⟩ := Multiset.card_pos_iff_exists_mem.1 (by omega : 0 < chosen.card)
        obtain ⟨others, rfl⟩ := Multiset.exists_cons_of_mem member
        rw [Multiset.card_cons] at enough
        rw [Multiset.sum_cons]
        have least := ordered.1 dearer (Multiset.mem_coe.1 (Multiset.mem_of_le later member))
        exact Nat.add_le_add least (ih ordered.2 ((Multiset.le_cons_self ..).trans later) (by omega))

def symbolsOf (coins : List Coin) : List Nat :=
  coins.flatMap (·.symbols)

def price (coins : List Coin) : Nat :=
  (coins.map (·.weight)).sum

@[simp] theorem symbolsOf_append (front back : List Coin) :
    symbolsOf (front ++ back) = symbolsOf front ++ symbolsOf back :=
  List.flatMap_append

theorem count_perm {coins others : List Coin} (perm : coins.Perm others) (symbol : Nat) :
    (symbolsOf coins).count symbol = (symbolsOf others).count symbol :=
  (perm.flatMap_right _).count_eq symbol

section Packages

theorem take_pairUp (coins : List Coin) {count : Nat} (within : count ≤ (pairUp coins).length) :
    symbolsOf ((pairUp coins).take count) = symbolsOf (coins.take (2 * count)) ∧
      price ((pairUp coins).take count) = price (coins.take (2 * count)) := by
  fun_induction pairUp coins generalizing count with
  | case1 a b rest ih =>
    cases count with
    | zero => exact ⟨rfl, rfl⟩
    | succ count =>
      have tail := ih (Nat.le_of_succ_le_succ within)
      simp only [symbolsOf, price] at tail
      constructor
      · simp only [symbolsOf, Nat.mul_succ, List.take_succ_cons, List.flatMap_cons, tail.1, join, List.append_assoc]
      · simp only [price, Nat.mul_succ, List.take_succ_cons, List.map_cons, List.sum_cons, tail.2, join]
        omega
  | case2 =>
    obtain rfl : count = 0 := Nat.le_zero.1 within
    exact ⟨rfl, rfl⟩

theorem length_pairUp (coins : List Coin) : (pairUp coins).length = coins.length / 2 := by
  fun_induction pairUp coins with
  | case1 a b rest ih => simp only [List.length_cons, ih]; omega
  | case2 coins short =>
    rcases coins with _ | ⟨a, _ | ⟨b, rest⟩⟩
    · rfl
    · simp
    · exact absurd rfl (short a b rest)

theorem mem_pairUp {coins : List Coin} {package : Coin} (member : package ∈ pairUp coins) :
    ∃ a ∈ coins, ∃ b ∈ coins, package = join a b := by
  fun_induction pairUp coins with
  | case1 a b rest ih =>
    rcases List.mem_cons.1 member with rfl | later
    · exact ⟨a, by simp, b, by simp, rfl⟩
    · obtain ⟨c, first, d, second, same⟩ := ih later
      exact ⟨c, by simp [first], d, by simp [second], same⟩
  | case2 => cases member

def Sorted (coins : List Coin) : Prop :=
  coins.Pairwise fun a b => a.weight ≤ b.weight

theorem sorted_pairUp {coins : List Coin} (sorted : Sorted coins) : Sorted (pairUp coins) := by
  fun_induction pairUp coins with
  | case1 a b rest ih =>
    simp only [Sorted, List.pairwise_cons, List.mem_cons, forall_eq_or_imp] at sorted
    refine List.pairwise_cons.2 ⟨fun package member => ?_, ih sorted.2.2⟩
    obtain ⟨c, first, d, second, rfl⟩ := mem_pairUp member
    exact Nat.add_le_add (sorted.1.2 c first) (sorted.2.1 d second)
  | case2 => exact .nil

end Packages

/-- One round: the packages of the coins of the round before, merged with fresh coins. -/
def round (leaves coins : List Coin) : List Coin :=
  leaves.merge (pairUp coins) fun a b => a.weight ≤ b.weight

theorem afterRounds_zero (leaves : List Coin) : afterRounds leaves 0 = round leaves [] := by
  simp [afterRounds, round, pairUp]

theorem afterRounds_succ (leaves : List Coin) (count : Nat) :
    afterRounds leaves (count + 1) = round leaves (afterRounds leaves count) := rfl

theorem length_round (leaves coins : List Coin) : (round leaves coins).length = leaves.length + coins.length / 2 := by
  rw [round, List.length_merge, length_pairUp]

theorem perm_round (leaves coins : List Coin) : (round leaves coins).Perm (leaves ++ pairUp coins) :=
  List.merge_perm_append _

theorem sorted_round {leaves coins : List Coin} (sorted : Sorted leaves) (sortedCoins : Sorted coins) :
    Sorted (round leaves coins) := by
  have transitive (a b c : Coin) :
      decide (a.weight ≤ b.weight) → decide (b.weight ≤ c.weight) → decide (a.weight ≤ c.weight) := by
    simp only [decide_eq_true_eq]
    omega
  have total (a b : Coin) : decide (a.weight ≤ b.weight) || decide (b.weight ≤ a.weight) := by
    simp only [Bool.or_eq_true, decide_eq_true_eq]
    omega
  have merged := List.pairwise_merge transitive total leaves (pairUp coins)
  simp only [decide_eq_true_eq] at merged
  exact merged sorted (sorted_pairUp sortedCoins)

/-- The first coins of a merged list are the first of both lists, and any leaf left over is heavier than any
package taken. -/
theorem take_merge {leaves packages : List Coin} (sorted : Sorted leaves) {count : Nat}
    (within : count ≤ leaves.length + packages.length) :
    ∃ fresh packed, fresh + packed = count ∧ fresh ≤ leaves.length ∧ packed ≤ packages.length ∧
      ((leaves.merge packages fun a b => a.weight ≤ b.weight).take count).Perm
        (leaves.take fresh ++ packages.take packed) ∧
      ∀ leaf ∈ leaves.drop fresh, ∀ package ∈ packages.take packed, package.weight < leaf.weight := by
  induction leaves generalizing packages count with
  | nil =>
    refine ⟨0, count, Nat.zero_add _, Nat.zero_le _, by simpa using within, ?_, by simp⟩
    simp
  | cons leaf leaves ih =>
    induction packages generalizing count with
    | nil => exact ⟨count, 0, rfl, by simpa using within, Nat.zero_le _, by simp, by simp⟩
    | cons package packages ihPackages =>
      cases count with
      | zero => exact ⟨0, 0, rfl, Nat.zero_le _, Nat.zero_le _, by simp, by simp⟩
      | succ count =>
        by_cases first : leaf.weight ≤ package.weight
        · have rest : count + 1 ≤ leaves.length + (package :: packages).length + 1 := by
            simp only [List.length_cons] at within ⊢
            omega
          obtain ⟨fresh, packed, total, freshWithin, packedWithin, perm, heavier⟩ :=
            ih (List.pairwise_cons.1 sorted).2 (Nat.le_of_succ_le_succ rest)
          refine ⟨fresh + 1, packed, by omega, Nat.succ_le_succ freshWithin, packedWithin, ?_, heavier⟩
          rw [List.cons_merge_cons, if_pos (by simpa using first)]
          exact perm.cons leaf
        · -- The package is lighter than the first leaf, and so than every leaf.
          obtain ⟨fresh, packed, total, freshWithin, packedWithin, perm, heavier⟩ :=
            ihPackages (Nat.le_of_succ_le_succ within)
          refine ⟨fresh, packed + 1, by omega, freshWithin, Nat.succ_le_succ packedWithin, ?_, ?_⟩
          · rw [List.cons_merge_cons, if_neg (by simpa using first), List.take_succ_cons, List.take_succ_cons]
            exact (perm.cons package).trans List.perm_middle.symm
          · intro other left taken member
            have least : leaf.weight ≤ other.weight := by
              rcases List.mem_cons.1 (List.mem_of_mem_drop left) with rfl | later
              · exact le_refl _
              · exact (List.pairwise_cons.1 sorted).1 other later
            rcases List.mem_cons.1 (by simpa using member) with rfl | later
            · omega
            · exact heavier other left taken later

section Rounds

variable {weights : List Nat}

def leafOf (weights : List Nat) (symbol : Nat) : Coin :=
  ⟨valueAt weights symbol, [symbol]⟩

theorem perm_fresh (weights : List Nat) :
    (fresh weights).Perm ((List.range weights.length).map (leafOf weights)) := by
  rw [fresh, mapIdx_eq_map_range]
  exact List.mergeSort_perm ..

theorem sorted_fresh (weights : List Nat) : Sorted (fresh weights) :=
  pairwise_mergeSort_key (fun coin : Coin => coin.weight) _

theorem fresh_eq_map (weights : List Nat) :
    ∃ order : List Nat, order.Perm (List.range weights.length) ∧ fresh weights = order.map (leafOf weights) := by
  refine ⟨(fresh weights).map fun coin => coin.symbols.headD 0, ?_, ?_⟩
  · have perm := (perm_fresh weights).map fun coin => coin.symbols.headD 0
    have heads : (fun coin : Coin => coin.symbols.headD 0) ∘ leafOf weights = id := rfl
    rwa [List.map_map, heads, List.map_id] at perm
  · rw [List.map_map]
    refine (List.map_id _).symm.trans (List.map_congr_left fun coin member => ?_)
    obtain ⟨symbol, -, rfl⟩ := List.mem_map.1 ((perm_fresh weights).mem_iff.1 member)
    rfl

theorem symbolsOf_map_leafOf (weights symbols : List Nat) : symbolsOf (symbols.map (leafOf weights)) = symbols := by
  simp [symbolsOf, leafOf, List.flatMap_map]

structure Sound (weights : List Nat) (coin : Coin) : Prop where
  weight_eq : coin.weight = (coin.symbols.map (valueAt weights)).sum
  within : ∀ symbol ∈ coin.symbols, symbol < weights.length

theorem Sound.le_weight {coin : Coin} (sound : Sound weights coin) {symbol : Nat} (member : symbol ∈ coin.symbols) :
    valueAt weights symbol ≤ coin.weight := by
  rw [sound.weight_eq]
  exact List.single_le_sum (fun _ _ => Nat.zero_le _) _ (List.mem_map_of_mem member)

theorem sound_fresh : ∀ coin ∈ fresh weights, Sound weights coin := by
  intro coin member
  obtain ⟨symbol, within, rfl⟩ := List.mem_map.1 ((perm_fresh weights).mem_iff.1 member)
  exact ⟨by simp [leafOf], by simpa [leafOf] using within⟩

theorem sound_pairUp {coins : List Coin} (sound : ∀ coin ∈ coins, Sound weights coin) :
    ∀ package ∈ pairUp coins, Sound weights package := by
  intro package member
  obtain ⟨a, first, b, second, rfl⟩ := mem_pairUp member
  constructor
  · simp only [join, List.map_append, List.sum_append, (sound a first).weight_eq, (sound b second).weight_eq]
  · intro symbol member
    rcases List.mem_append.1 member with left | right
    · exact (sound a first).within symbol left
    · exact (sound b second).within symbol right

theorem sound_round {coins : List Coin} (sound : ∀ coin ∈ coins, Sound weights coin) :
    ∀ coin ∈ round (fresh weights) coins, Sound weights coin := by
  intro coin member
  rcases List.mem_append.1 ((perm_round _ _).mem_iff.1 member) with leaf | package
  · exact sound_fresh coin leaf
  · exact sound_pairUp sound coin package

/-- What is bought in a round: fresh coins of some symbols, and packages of twice as many coins of the round before.
A symbol without a fresh coin is in no package, for the package would be too heavy. -/
theorem take_round {coins : List Coin} (sound : ∀ coin ∈ coins, Sound weights coin) {count : Nat}
    (within : count ≤ (round (fresh weights) coins).length) :
    ∃ (new : List Nat) (packed : Nat), new.length + packed = count ∧ 2 * packed ≤ coins.length ∧
      new.Nodup ∧ (∀ symbol ∈ new, symbol < weights.length) ∧
      (∀ symbol, (symbolsOf ((round (fresh weights) coins).take count)).count symbol =
        new.count symbol + (symbolsOf (coins.take (2 * packed))).count symbol) ∧
      ∀ symbol < weights.length, symbol ∉ new → (symbolsOf (coins.take (2 * packed))).count symbol = 0 := by
  obtain ⟨order, permutes, leaves⟩ := fresh_eq_map weights
  rw [length_round, ← length_pairUp] at within
  obtain ⟨new, packed, total, newWithin, packedWithin, perm, heavier⟩ := take_merge (sorted_fresh weights) within
  have newSymbols : symbolsOf ((fresh weights).take new) = order.take new := by
    rw [leaves, ← List.map_take, symbolsOf_map_leafOf]
  rw [leaves, List.length_map] at newWithin
  refine ⟨order.take new, packed, ?_, ?_, ?_, ?_, ?_, ?_⟩
  · rw [List.length_take, Nat.min_eq_left newWithin, total]
  · rw [length_pairUp] at packedWithin
    omega
  · exact (permutes.nodup_iff.2 List.nodup_range).sublist (List.take_sublist ..)
  · intro symbol member
    exact List.mem_range.1 (permutes.mem_iff.1 (List.mem_of_mem_take member))
  · intro symbol
    rw [round, count_perm perm, symbolsOf_append, List.count_append, newSymbols, (take_pairUp coins packedWithin).1]
  · intro symbol inside absent
    rw [← (take_pairUp coins packedWithin).1, List.count_eq_zero]
    intro member
    obtain ⟨package, taken, holds⟩ := List.mem_flatMap.1 member
    have left : leafOf weights symbol ∈ (fresh weights).drop new := by
      have known : symbol ∈ order := permutes.mem_iff.2 (List.mem_range.2 inside)
      rw [← List.take_append_drop new order, List.mem_append] at known
      rw [leaves, ← List.map_drop]
      exact List.mem_map_of_mem (known.resolve_left absent)
    -- A package holding the symbol is no lighter than the symbol's coin, which was left although it is heavier.
    have light := heavier _ left package taken
    have heavy := (sound_pairUp sound package (List.mem_of_mem_take taken)).le_weight holds
    exact absurd light (Nat.not_lt.2 heavy)

/-- However many coins are bought, no symbol gets more than one a round, and each coin takes half of what is left of
the share of its symbol's word. -/
def Spends (weights : List Nat) (rounds : Nat) (coins : List Coin) : Prop :=
  ∀ count ≤ coins.length,
    (∀ symbol < weights.length, (symbolsOf (coins.take count)).count symbol ≤ rounds) ∧
    ∑ symbol ∈ Finset.range weights.length,
      (1 - (1 / 2 : ℚ) ^ (symbolsOf (coins.take count)).count symbol) = count / 2

theorem spends_nil (weights : List Nat) : Spends weights 0 [] := by
  intro count within
  obtain rfl : count = 0 := Nat.le_zero.1 within
  simp [symbolsOf]

theorem spends_round {rounds : Nat} {coins : List Coin} (sound : ∀ coin ∈ coins, Sound weights coin)
    (spends : Spends weights rounds coins) : Spends weights (rounds + 1) (round (fresh weights) coins) := by
  intro count within
  obtain ⟨new, packed, total, packedWithin, distinct, inside, counts, unused⟩ := take_round sound within
  have before := spends (2 * packed) packedWithin
  constructor
  · intro symbol known
    have := before.1 symbol known
    have := List.nodup_iff_count_le_one.1 distinct symbol
    rw [counts]
    omega
  · -- A fresh coin takes half of its symbol's share, so what the packed coins took is taken of the other half.
    have halves : ∀ symbol ∈ Finset.range weights.length,
        1 - (1 / 2 : ℚ) ^ (symbolsOf ((round (fresh weights) coins).take count)).count symbol =
          (if symbol ∈ new.toFinset then 1 / 2 else 0) +
            1 / 2 * (1 - (1 / 2) ^ (symbolsOf (coins.take (2 * packed))).count symbol) := by
      intro symbol known
      rw [counts]
      by_cases member : symbol ∈ new
      · rw [List.count_eq_one_of_mem distinct member, if_pos (List.mem_toFinset.2 member), pow_add]
        ring
      · rw [List.count_eq_zero.2 member, unused symbol (Finset.mem_range.1 known) member,
          if_neg (mt List.mem_toFinset.1 member)]
        norm_num
    have subset : new.toFinset ⊆ Finset.range weights.length := by
      intro symbol member
      exact Finset.mem_range.2 (inside symbol (List.mem_toFinset.1 member))
    rw [Finset.sum_congr rfl halves, Finset.sum_add_distrib, ← Finset.mul_sum, before.2, Finset.sum_ite_mem,
      Finset.inter_eq_right.2 subset, Finset.sum_const, List.toFinset_card_of_nodup distinct, nsmul_eq_mul, ← total]
    push_cast
    ring

/-- No lengths of at most as many bits as there were rounds cost less than the first coins, if their words leave
as little: and there are as many coins. -/
def Cheapest (weights : List Nat) (rounds : Nat) (coins : List Coin) : Prop :=
  ∀ (lengths : Nat → Nat) (count : Nat), (∀ symbol < weights.length, lengths symbol ≤ rounds) →
    (count : ℚ) / 2 ≤ ∑ symbol ∈ Finset.range weights.length, (1 - (1 / 2 : ℚ) ^ lengths symbol) →
    count ≤ coins.length ∧
      price (coins.take count) ≤ ∑ symbol ∈ Finset.range weights.length, valueAt weights symbol * lengths symbol

theorem cheapest_nil (weights : List Nat) : Cheapest weights 0 [] := by
  intro lengths count bound spent
  have none : ∑ symbol ∈ Finset.range weights.length, (1 - (1 / 2 : ℚ) ^ lengths symbol) = 0 := by
    apply Finset.sum_eq_zero
    intro symbol known
    rw [Nat.le_zero.1 (bound symbol (Finset.mem_range.1 known))]
    norm_num
  rw [none] at spent
  have zero : count ≤ 0 := by
    have : (count : ℚ) ≤ 0 := by linarith
    exact_mod_cast this
  simp [Nat.le_zero.1 zero, price]

theorem price_take_round_le {coins : List Coin} (sorted : Sorted coins) {symbols : Finset Nat}
    (known : symbols ⊆ Finset.range weights.length) {count packed : Nat} (packedWithin : 2 * packed ≤ coins.length)
    (enough : count ≤ symbols.card + packed) :
    price ((round (fresh weights) coins).take count) ≤
      ∑ symbol ∈ symbols, valueAt weights symbol + price (coins.take (2 * packed)) := by
  have within : packed ≤ (pairUp coins).length := by rw [length_pairUp]; omega
  have among : symbols.val.map (valueAt weights) + (((pairUp coins).take packed).map (·.weight) : Multiset Nat) ≤
      ((round (fresh weights) coins).map (·.weight) : Multiset Nat) := by
    have leaves : ((fresh weights).map (·.weight) : Multiset Nat) =
        (Finset.range weights.length).val.map (valueAt weights) := by
      rw [Multiset.coe_eq_coe.2 ((perm_fresh weights).map _), List.map_map]
      rfl
    rw [Multiset.coe_eq_coe.2 ((perm_round (fresh weights) coins).map _), List.map_append, ← Multiset.coe_add, leaves]
    exact add_le_add (Multiset.map_le_map (Finset.val_le_iff.2 known))
      (Multiset.coe_le.2 ((List.take_sublist ..).map _).subperm)
  have size : count ≤ (symbols.val.map (valueAt weights) +
      (((pairUp coins).take packed).map (·.weight) : Multiset Nat)).card := by
    rw [Multiset.card_add, Multiset.card_map, Multiset.coe_card, List.length_map, List.length_take,
      Nat.min_eq_left within]
    exact enough
  have least := sum_take_le (List.pairwise_map.2 (sorted_round (sorted_fresh weights) sorted)) among size
  rw [Multiset.sum_add, Multiset.sum_coe, ← List.map_take] at least
  rw [← (take_pairUp coins within).2]
  exact least

theorem cheapest_round {rounds : Nat} {coins : List Coin} (sorted : Sorted coins)
    (cheapest : Cheapest weights rounds coins) : Cheapest weights (rounds + 1) (round (fresh weights) coins) := by
  intro lengths count bound spent
  -- the symbols that get a coin in this round, and the coins that they still want from the rounds before
  let coined := (Finset.range weights.length).filter (1 ≤ lengths ·)
  have known : coined ⊆ Finset.range weights.length := Finset.filter_subset ..
  have halves : ∑ symbol ∈ Finset.range weights.length, (1 - (1 / 2 : ℚ) ^ lengths symbol) =
      coined.card / 2 + 1 / 2 * ∑ symbol ∈ Finset.range weights.length, (1 - (1 / 2) ^ (lengths symbol - 1)) := by
    have each (symbol : Nat) : 1 - (1 / 2 : ℚ) ^ lengths symbol =
        (if 1 ≤ lengths symbol then 1 / 2 else 0) + 1 / 2 * (1 - (1 / 2) ^ (lengths symbol - 1)) := by
      cases lengths symbol with
      | zero => norm_num
      | succ length =>
        rw [if_pos (by omega), Nat.add_sub_cancel, pow_succ]
        ring
    rw [Finset.sum_congr rfl fun symbol _ => each symbol, Finset.sum_add_distrib, ← Finset.mul_sum,
      ← Finset.sum_filter, Finset.sum_const, nsmul_eq_mul]
    ring
  have prices : ∑ symbol ∈ Finset.range weights.length, valueAt weights symbol * lengths symbol =
      ∑ symbol ∈ coined, valueAt weights symbol +
        ∑ symbol ∈ Finset.range weights.length, valueAt weights symbol * (lengths symbol - 1) := by
    rw [Finset.sum_filter, ← Finset.sum_add_distrib]
    refine Finset.sum_congr rfl fun symbol _ => ?_
    cases lengths symbol with
    | zero => simp
    | succ length => rw [if_pos (by omega), Nat.add_sub_cancel, Nat.mul_succ, Nat.add_comm]
  have rest : ((2 * (count - coined.card) : Nat) : ℚ) / 2 ≤
      ∑ symbol ∈ Finset.range weights.length, (1 - (1 / 2 : ℚ) ^ (lengths symbol - 1)) := by
    rcases Nat.le_total count coined.card with few | many
    · rw [Nat.sub_eq_zero_of_le few, Nat.mul_zero, Nat.cast_zero, zero_div]
      exact Finset.sum_nonneg fun symbol _ => sub_nonneg.2 (pow_le_one₀ (by norm_num) (by norm_num))
    · push_cast [Nat.cast_sub many]
      linarith
  have before := cheapest (fun symbol => lengths symbol - 1) _
    (fun symbol inside => Nat.sub_le_of_le_add (bound symbol inside)) rest
  have size : coined.card ≤ weights.length := by
    simpa using Finset.card_le_card known
  have leaves : (fresh weights).length = weights.length := by
    simpa using (perm_fresh weights).length_eq
  refine ⟨by rw [length_round, leaves]; omega, ?_⟩
  rw [prices]
  exact (price_take_round_le sorted known before.1 (by omega)).trans (Nat.add_le_add_left before.2 _)

theorem afterRounds_invariant (weights : List Nat) (count : Nat) :
    Sorted (afterRounds (fresh weights) count) ∧ (∀ coin ∈ afterRounds (fresh weights) count, Sound weights coin) ∧
      Spends weights (count + 1) (afterRounds (fresh weights) count) ∧
      Cheapest weights (count + 1) (afterRounds (fresh weights) count) := by
  induction count with
  | zero =>
    have none : ∀ coin ∈ ([] : List Coin), Sound weights coin := by simp
    rw [afterRounds_zero]
    exact ⟨sorted_round (sorted_fresh weights) .nil, sound_round none, spends_round none (spends_nil weights),
      cheapest_round .nil (cheapest_nil weights)⟩
  | succ count ih =>
    obtain ⟨sorted, sound, spends, cheapest⟩ := ih
    rw [afterRounds_succ]
    exact ⟨sorted_round (sorted_fresh weights) sorted, sound_round sound, spends_round sound spends,
      cheapest_round sorted cheapest⟩

end Rounds

section Lengths

variable {weights : List Nat} {limit : Nat}

theorem toList_tally (size : Nat) (indices : List Nat) :
    (tally size indices).toList = (List.range size).map fun index => indices.count index := by
  have counted (counts : Array Nat) (index : Nat) :
      (indices.foldl (fun counts index => counts.modify index (· + 1)) counts)[index]? =
        counts[index]?.map (· + indices.count index) := by
    induction indices generalizing counts with
    | nil => simp
    | cons head rest ih =>
      rw [List.foldl_cons, ih, Array.getElem?_modify, List.count_cons]
      by_cases same : head = index
      · simp [same, Nat.add_comm]
      · simp [same]
  apply List.ext_getElem?
  intro index
  rw [Array.getElem?_toList, tally, counted, Array.getElem?_replicate, List.getElem?_map]
  by_cases within : index < size
  · simp [within]
  · simp [within]

theorem lengths_eq (several : 2 ≤ weights.length) : lengths weights limit = (List.range weights.length).map fun symbol =>
    (symbolsOf ((afterRounds (fresh weights) (limit - 1)).take (2 * weights.length - 2))).count symbol := by
  rcases weights with _ | ⟨first, _ | ⟨second, rest⟩⟩
  · simp at several
  · simp at several
  · simp only [lengths, toList_tally]
    rfl

theorem length_lengths (several : 2 ≤ weights.length) : (lengths weights limit).length = weights.length := by
  rw [lengths_eq several, List.length_map, List.length_range]

theorem valueAt_lengths (several : 2 ≤ weights.length) {symbol : Nat} (known : symbol ∈ Finset.range weights.length) :
    valueAt (lengths weights limit) symbol =
      (symbolsOf ((afterRounds (fresh weights) (limit - 1)).take (2 * weights.length - 2))).count symbol := by
  rw [lengths_eq several, valueAt_map_range _ (Finset.mem_range.1 known)]

theorem price_eq_sum {coins : List Coin} (sound : ∀ coin ∈ coins, Sound weights coin) :
    price coins =
      ∑ symbol ∈ Finset.range weights.length, valueAt weights symbol * (symbolsOf coins).count symbol := by
  have listed (symbols : List Nat) (within : ∀ symbol ∈ symbols, symbol < weights.length) :
      (symbols.map (valueAt weights)).sum =
        ∑ symbol ∈ Finset.range weights.length, valueAt weights symbol * symbols.count symbol := by
    induction symbols with
    | nil => simp
    | cons head rest ih =>
      rw [List.forall_mem_cons] at within
      have one (symbol : Nat) : valueAt weights symbol * (head :: rest).count symbol =
          valueAt weights symbol * rest.count symbol + if head = symbol then valueAt weights symbol else 0 := by
        rw [List.count_cons]
        by_cases same : head = symbol <;> simp [same, Nat.mul_add]
      rw [List.map_cons, List.sum_cons, ih within.2, Finset.sum_congr rfl fun symbol _ => one symbol,
        Finset.sum_add_distrib, Finset.sum_ite_eq, if_pos (Finset.mem_range.2 within.1), Nat.add_comm]
  rw [← listed]
  · induction coins with
    | nil => rfl
    | cons coin coins ih =>
      rw [List.forall_mem_cons] at sound
      have tail := ih sound.2
      rw [price] at tail
      have front : symbolsOf (coin :: coins) = coin.symbols ++ symbolsOf coins := rfl
      rw [price, List.map_cons, List.sum_cons, sound.1.weight_eq, tail, front, List.map_append, List.sum_append]
  · intro symbol member
    obtain ⟨coin, bought, holds⟩ := List.mem_flatMap.1 member
    exact (sound coin bought).within symbol holds

theorem sum_spent (count : Nat) (length : Nat → Nat) :
    ∑ symbol ∈ Finset.range count, (1 - (1 / 2 : ℚ) ^ length symbol) =
      count - ∑ symbol ∈ Finset.range count, (1 / 2 : ℚ) ^ length symbol := by
  simp

/-- Words that leave nothing over need twice as many coins as there are further symbols. -/
theorem spent_of_kraft_le {length : Nat → Nat} (several : 2 ≤ weights.length)
    (bound : ∑ symbol ∈ Finset.range weights.length, (1 / 2 : ℚ) ^ length symbol ≤ 1) :
    ((2 * weights.length - 2 : Nat) : ℚ) / 2 ≤
      ∑ symbol ∈ Finset.range weights.length, (1 - (1 / 2 : ℚ) ^ length symbol) := by
  rw [sum_spent, Nat.cast_sub (by omega)]
  push_cast
  linarith

section Bought

variable (several : 2 ≤ weights.length) (enough : weights.length ≤ 2 ^ limit)

include several enough

theorem limit_pos : 1 ≤ limit := by
  rcases limit with _ | limit
  · omega
  · omega

theorem bought_le : 2 * weights.length - 2 ≤ (afterRounds (fresh weights) (limit - 1)).length := by
  have positive := limit_pos several enough
  obtain ⟨-, -, -, cheapest⟩ := afterRounds_invariant weights (limit - 1)
  rw [Nat.sub_add_cancel positive] at cheapest
  refine (cheapest (fun _ => limit) _ (fun _ _ => le_refl _) (spent_of_kraft_le several ?_)).1
  rw [Finset.sum_const, Finset.card_range, nsmul_eq_mul, one_div, inv_pow]
  have : (weights.length : ℚ) ≤ 2 ^ limit := by exact_mod_cast enough
  exact mul_inv_le_one_of_le₀ this (by positivity)

theorem kraft_lengths : kraft (lengths weights limit) = 1 := by
  obtain ⟨-, -, spends, -⟩ := afterRounds_invariant weights (limit - 1)
  have spent := (spends _ (bought_le several enough)).2
  rw [sum_spent, Nat.cast_sub (by omega)] at spent
  push_cast at spent
  rw [kraft_eq_sum, length_lengths several,
    Finset.sum_congr rfl fun symbol known => congrArg ((1 / 2 : ℚ) ^ ·) (valueAt_lengths several known)]
  linarith

theorem admissible_lengths : Admissible weights.length limit (lengths weights limit) := by
  refine ⟨length_lengths several, fun length member => ⟨?_, ?_⟩, (kraft_lengths several enough).le⟩
  · exact one_le_of_kraft_le (by rwa [length_lengths several]) (kraft_lengths several enough).le length member
  · obtain ⟨-, -, spends, -⟩ := afterRounds_invariant weights (limit - 1)
    rw [lengths_eq several, List.mem_map] at member
    obtain ⟨symbol, known, rfl⟩ := member
    have bound := (spends _ (bought_le several enough)).1 symbol (List.mem_range.1 known)
    rwa [Nat.sub_add_cancel (limit_pos several enough)] at bound

theorem cost_lengths_le {others : List Nat} (admissible : Admissible weights.length limit others) :
    cost weights (lengths weights limit) ≤ cost weights others := by
  obtain ⟨-, sound, -, cheapest⟩ := afterRounds_invariant weights (limit - 1)
  rw [Nat.sub_add_cancel (limit_pos several enough)] at cheapest
  have bound := admissible.kraft_le
  rw [kraft_eq_sum, admissible.length_eq] at bound
  have least := (cheapest (valueAt others) _ (fun symbol known => (admissible.range _ (valueAt_mem
    (by rw [admissible.length_eq]; exact known))).2) (spent_of_kraft_le several bound)).2
  rw [price_eq_sum fun coin member => sound coin (List.mem_of_mem_take member)] at least
  rw [cost_eq_sum admissible.length_eq, cost_eq_sum (length_lengths several),
    Finset.sum_congr rfl fun symbol known => congrArg (_ * ·) (valueAt_lengths several known)]
  exact least

theorem optimal_lengths : Optimal weights limit (lengths weights limit) :=
  ⟨admissible_lengths several enough, fun _ => cost_lengths_le several enough⟩

end Bought

end Lengths

end HuffmanStrings.Coin
