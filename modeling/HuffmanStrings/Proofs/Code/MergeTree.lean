import Mathlib
import HuffmanStrings.Code.Optimal
import HuffmanStrings.Proofs.Code.Lengths

/-!
The lengths from merging are optimal. Any code lengths for some weights can be turned, without a loss, into lengths
in which the two lightest weights share the longest words, and so into lengths for the weights that are left when
these two are merged. Following the queue, no lengths cost less than the depths in the tree.
-/

namespace HuffmanStrings.MergeTree

abbrev Assignment := Multiset (Nat × Nat)

namespace Assignment

def weights (a : Assignment) : Multiset Nat :=
  a.map (·.1)

def lengths (a : Assignment) : Multiset Nat :=
  a.map (·.2)

def price (a : Assignment) : Nat :=
  (a.map fun entry => entry.1 * entry.2).sum

def share (lengths : Multiset Nat) : ℚ :=
  (lengths.map fun length => (1 / 2 : ℚ) ^ length).sum

@[simp] theorem weights_cons (entry : Nat × Nat) (a : Assignment) :
    weights (entry ::ₘ a) = entry.1 ::ₘ weights a :=
  Multiset.map_cons ..

@[simp] theorem lengths_cons (entry : Nat × Nat) (a : Assignment) :
    lengths (entry ::ₘ a) = entry.2 ::ₘ lengths a :=
  Multiset.map_cons ..

@[simp] theorem price_cons (entry : Nat × Nat) (a : Assignment) :
    price (entry ::ₘ a) = entry.1 * entry.2 + price a := by
  simp [price]

@[simp] theorem share_cons (length : Nat) (lengths : Multiset Nat) :
    share (length ::ₘ lengths) = (1 / 2 : ℚ) ^ length + share lengths := by
  simp [share]

theorem share_nonneg (lengths : Multiset Nat) : 0 ≤ share lengths := by
  apply Multiset.sum_nonneg
  intro value member
  obtain ⟨length, -, rfl⟩ := Multiset.mem_map.1 member
  positivity

theorem exists_longest {a : Assignment} {weight : Nat} (present : weight ∈ weights a) :
    ∃ length ∈ lengths a, ∀ other ∈ lengths a, other ≤ length := by
  obtain ⟨entry, member, -⟩ := Multiset.mem_map.1 present
  apply Multiset.exists_max_image id
  intro none
  have used : entry.2 ∈ lengths a := Multiset.mem_map_of_mem _ member
  rw [none] at used
  exact Multiset.notMem_zero _ used

/-- The lightest weight can get the longest word. -/
theorem exchange {a : Assignment} {weight : Nat} (present : weight ∈ weights a)
    (lightest : ∀ other ∈ weights a, weight ≤ other) :
    ∃ (length : Nat) (rest : Assignment), weights a = weight ::ₘ weights rest ∧ lengths a = length ::ₘ lengths rest ∧
      (∀ other ∈ lengths a, other ≤ length) ∧ weight * length + price rest ≤ price a := by
  obtain ⟨length, used, longest⟩ := exists_longest present
  obtain ⟨⟨_, short⟩, member, rfl⟩ := Multiset.mem_map.1 present
  obtain ⟨rest, rfl⟩ := Multiset.exists_cons_of_mem member
  obtain ⟨⟨heavy, _⟩, usedBy, rfl⟩ := Multiset.mem_map.1 used
  dsimp only at *
  rcases Multiset.mem_cons.1 usedBy with same | other
  · cases same
    exact ⟨_, rest, weights_cons .., lengths_cons .., longest, by simp⟩
  · rename_i weight length
    obtain ⟨others, rfl⟩ := Multiset.exists_cons_of_mem other
    refine ⟨_, (heavy, short) ::ₘ others, by simp, ?_, longest, ?_⟩
    · simp [Multiset.cons_swap]
    · have lighter : weight ≤ heavy := lightest heavy (by simp)
      have shorter : short ≤ length := longest short (by simp)
      have swap := mul_add_mul_le_mul_add_mul lighter shorter
      simp only [price_cons]
      omega

theorem share_add_le {lengths : Multiset Nat} {longest : Nat} (within : ∀ length ∈ lengths, length ≤ longest)
    (room : share lengths < 1) : share lengths + (1 / 2 : ℚ) ^ longest ≤ 1 := by
  have scale : (0 : ℚ) < 2 ^ longest := by positivity
  have units : 2 ^ longest * share lengths = ((lengths.map fun length => 2 ^ (longest - length)).sum : Nat) := by
    rw [share, ← Multiset.sum_map_mul_left, Nat.cast_multiset_sum, Multiset.map_map]
    congr 1
    exact Multiset.map_congr rfl fun length member => (share_eq (within length member)).symm
  generalize (lengths.map fun length => 2 ^ (longest - length)).sum = total at units
  have fewer : total < 2 ^ longest := by
    have : (total : ℚ) < 2 ^ longest := by
      rw [← units]
      exact mul_lt_of_lt_one_right scale room
    exact_mod_cast this
  have next : (total : ℚ) + 1 ≤ 2 ^ longest := by exact_mod_cast fewer
  have unit : (2 : ℚ) ^ longest * (1 / 2) ^ longest = 1 := by
    rw [← mul_pow]
    norm_num
  refine le_of_mul_le_mul_left ?_ scale
  rw [mul_add, units, unit, mul_one]
  exact next

/-- Merging the two lightest weights saves their sum, whatever the lengths were. -/
theorem join {a : Assignment} {first second : Nat} {others : Multiset Nat}
    (weighted : weights a = first ::ₘ second ::ₘ others) (ordered : first ≤ second)
    (lightest : ∀ other ∈ others, second ≤ other) (bound : share (lengths a) ≤ 1) :
    ∃ joined : Assignment, weights joined = (first + second) ::ₘ others ∧ share (lengths joined) ≤ 1 ∧
      price joined + (first + second) ≤ price a := by
  -- the longest word goes to the lightest weight, and the longest of the others to the second
  have least : ∀ other ∈ weights a, first ≤ other := by
    intro other member
    rw [weighted, Multiset.mem_cons, Multiset.mem_cons] at member
    rcases member with rfl | rfl | later
    · exact le_refl _
    · exact ordered
    · exact ordered.trans (lightest other later)
  obtain ⟨long, rest, restWeights, restLengths, longest, cheaper⟩ := exchange (by simp [weighted]) least
  rw [weighted, Multiset.cons_inj_right] at restWeights
  have nextLeast : ∀ other ∈ weights rest, second ≤ other := by
    intro other member
    rw [← restWeights, Multiset.mem_cons] at member
    rcases member with rfl | later
    · exact le_refl _
    · exact lightest other later
  obtain ⟨next, kept, keptWeights, keptLengths, nextLongest, stillCheaper⟩ :=
    exchange (by simp [← restWeights]) nextLeast
  rw [← restWeights, Multiset.cons_inj_right] at keptWeights
  rw [restLengths, share_cons] at bound
  have longShare : (0 : ℚ) < (1 / 2) ^ long := by positivity
  have room : share (lengths rest) + (1 / 2 : ℚ) ^ next ≤ 1 := share_add_le nextLongest (by linarith)
  rw [keptLengths, share_cons] at bound room
  -- the second word is not empty, for there is another, and so can be shortened to serve for both
  obtain ⟨short, rfl⟩ : ∃ short, next = short + 1 := by
    refine Nat.exists_eq_succ_of_ne_zero fun zero => ?_
    have := share_nonneg (lengths kept)
    rw [zero, pow_zero] at bound
    linarith
  refine ⟨(first + second, short) ::ₘ kept, by rw [weights_cons, keptWeights], ?_, ?_⟩
  · rw [pow_succ] at room
    simp only [lengths_cons, share_cons]
    linarith
  · have longer : short + 1 ≤ long := longest _ (by simp [restLengths, keptLengths])
    have : first * (short + 1) ≤ first * long := Nat.mul_le_mul_left _ longer
    rw [Nat.mul_succ] at this stillCheaper
    simp only [price_cons, Nat.add_mul]
    omega

end Assignment

section Trees

variable {weightOf : Nat → Nat}

def symbols : MergeTree → List Nat
  | leaf index => [index]
  | node left right => symbols left ++ symbols right

def weight (weightOf : Nat → Nat) : MergeTree → Nat
  | leaf index => weightOf index
  | node left right => weight weightOf left + weight weightOf right

/-- The bits that the leaves of a tree need below its root. -/
def price (weightOf : Nat → Nat) : MergeTree → Nat
  | leaf _ => 0
  | node left right => price weightOf left + price weightOf right + (weight weightOf left + weight weightOf right)

theorem map_fst_depths (tree : MergeTree) (depth : Nat) : (depths depth tree).map (·.1) = symbols tree := by
  induction tree generalizing depth with
  | leaf index => rfl
  | node left right leftIH rightIH => rw [depths, List.map_append, leftIH, rightIH, symbols]

theorem kraft_depths (tree : MergeTree) (depth : Nat) :
    kraft ((depths depth tree).map (·.2)) = (1 / 2 : ℚ) ^ depth := by
  induction tree generalizing depth with
  | leaf index => simp [depths]
  | node left right leftIH rightIH =>
    rw [depths, List.map_append, kraft_append, leftIH, rightIH, pow_succ]
    ring

theorem sum_depths (tree : MergeTree) (depth : Nat) :
    ((depths depth tree).map fun entry => weightOf entry.1 * entry.2).sum =
      price weightOf tree + depth * weight weightOf tree := by
  induction tree generalizing depth with
  | leaf index => simp [depths, price, weight, Nat.mul_comm]
  | node left right leftIH rightIH =>
    rw [depths, List.map_append, List.sum_append, leftIH, rightIH, price, weight]
    ring

end Trees

section Queues

variable {weightOf : Nat → Nat} {queue : Queue}

theorem perm_insert (entry : Nat × MergeTree) (queue : Queue) : (insert entry queue).Perm (entry :: queue) := by
  induction queue with
  | nil => exact .refl _
  | cons head rest ih =>
    unfold insert
    split
    · exact (ih.cons head).trans (.swap ..)
    · exact .refl _

structure Sound (weightOf : Nat → Nat) (queue : Queue) : Prop where
  ordered : queue.Pairwise fun a b => a.1 ≤ b.1
  weight_eq : ∀ entry ∈ queue, entry.1 = weight weightOf entry.2

theorem pairwise_insert {entry : Nat × MergeTree} (ordered : queue.Pairwise fun a b => a.1 ≤ b.1) :
    (insert entry queue).Pairwise fun a b => a.1 ≤ b.1 := by
  induction queue with
  | nil => simp [insert]
  | cons head rest ih =>
    have ⟨least, tail⟩ := List.pairwise_cons.1 ordered
    unfold insert
    split
    · rename_i before
      refine List.pairwise_cons.2 ⟨fun other member => ?_, ih tail⟩
      rcases List.mem_cons.1 ((perm_insert entry rest).mem_iff.1 member) with rfl | later
      · exact before
      · exact least other later
    · rename_i behind
      refine List.pairwise_cons.2 ⟨fun other member => ?_, ordered⟩
      rcases List.mem_cons.1 member with rfl | later
      · omega
      · have := least other later
        omega

theorem Sound.joined {v w : Nat} {left right : MergeTree} {rest : Queue}
    (sound : Sound weightOf ((v, left) :: (w, right) :: rest)) :
    Sound weightOf (insert (v + w, node left right) rest) := by
  have ⟨_, tail⟩ := List.pairwise_cons.1 sound.ordered
  refine ⟨pairwise_insert (List.pairwise_cons.1 tail).2, fun entry member => ?_⟩
  rcases List.mem_cons.1 ((perm_insert _ _).mem_iff.1 member) with rfl | later
  · exact congrArg₂ (· + ·) (sound.weight_eq (v, left) (by simp)) (sound.weight_eq (w, right) (by simp))
  · exact sound.weight_eq entry (by simp [later])

theorem merge_eq_some (nonempty : queue ≠ []) :
    ∃ tree, merge queue = some tree ∧ (symbols tree).Perm (queue.flatMap fun entry => symbols entry.2) := by
  fun_induction merge queue with
  | case1 => exact absurd rfl nonempty
  | case2 weight tree => exact ⟨tree, rfl, by simp⟩
  | case3 v left w right rest ih =>
    obtain ⟨tree, merged, perm⟩ := ih fun none => by
      have := congrArg List.length none
      rw [length_insert] at this
      cases this
    refine ⟨tree, merged, perm.trans (((perm_insert _ _).flatMap_right _).trans ?_)⟩
    simp [symbols]

/-- No lengths for the weights of a queue cost less than its trees are still to be deepened by. -/
theorem price_merge_le {tree : MergeTree} (sound : Sound weightOf queue) (merged : merge queue = some tree)
    {a : Assignment} (weighted : a.weights = (queue.map (·.1) : Multiset Nat))
    (bound : Assignment.share a.lengths ≤ 1) :
    price weightOf tree ≤ a.price + (queue.map fun entry => price weightOf entry.2).sum := by
  fun_induction merge queue generalizing a with
  | case1 => cases merged
  | case2 weight tree => cases merged; simp
  | case3 v left w right rest ih =>
    have ⟨least, tail⟩ := List.pairwise_cons.1 sound.ordered
    have lightest : ∀ other ∈ (rest.map (·.1) : Multiset Nat), w ≤ other := by
      intro other member
      obtain ⟨entry, later, rfl⟩ := List.mem_map.1 (Multiset.mem_coe.1 member)
      exact (List.pairwise_cons.1 tail).1 entry later
    obtain ⟨joined, joinedWeights, joinedBound, saved⟩ :=
      Assignment.join (weighted.trans (by simp)) (least (w, right) (by simp)) lightest bound
    have perm := perm_insert (v + w, node left right) rest
    have later := ih sound.joined merged (a := joined)
      (by rw [joinedWeights, Multiset.coe_eq_coe.2 (perm.map _)]; simp) joinedBound
    rw [(perm.map _).sum_eq, List.map_cons, List.sum_cons, price, ← sound.weight_eq (v, left) (by simp),
      ← sound.weight_eq (w, right) (by simp)] at later
    simp only [List.map_cons, List.sum_cons]
    omega

end Queues

section Lengths

variable {weights : List Nat}

theorem perm_leaves (weights : List Nat) :
    (leaves weights).Perm ((List.range weights.length).map fun index => (valueAt weights index, leaf index)) := by
  rw [leaves, mapIdx_eq_map_range]
  exact List.mergeSort_perm ..

theorem sound_leaves (weights : List Nat) : Sound (valueAt weights) (leaves weights) where
  ordered := pairwise_mergeSort_key (fun entry : Nat × MergeTree => entry.1) _
  weight_eq entry member := by
    obtain ⟨index, -, rfl⟩ := List.mem_map.1 ((perm_leaves weights).mem_iff.1 member)
    rfl

theorem lengths_eq (several : 2 ≤ weights.length) :
    ∃ (tree : MergeTree) (entries : List (Nat × Nat)), merge (leaves weights) = some tree ∧
      entries.Perm (depths 0 tree) ∧ entries.map (·.1) = List.range weights.length ∧
      lengths weights = entries.map (·.2) := by
  have nonempty : leaves weights ≠ [] := by
    intro none
    have := (perm_leaves weights).length_eq
    rw [none, List.length_map, List.length_range, List.length_nil] at this
    omega
  obtain ⟨tree, merged, perm⟩ := merge_eq_some nonempty
  refine ⟨tree, (depths 0 tree).mergeSort fun a b => a.1 ≤ b.1, merged, List.mergeSort_perm .., ?_, ?_⟩
  · have sorted := pairwise_mergeSort_key (fun entry : Nat × Nat => entry.1) (depths 0 tree)
    apply List.Perm.eq_of_pairwise' (List.pairwise_map.2 sorted) List.pairwise_le_range
    · have all := ((perm_leaves weights).flatMap_right fun entry => symbols entry.2)
      refine ((List.mergeSort_perm ..).map _).trans ?_
      rw [map_fst_depths]
      exact perm.trans (all.trans (by simp [List.flatMap_map, symbols]))
  · rcases weights with _ | ⟨first, _ | ⟨second, rest⟩⟩
    · simp at several
    · simp at several
    · simp only [lengths, merged]

theorem length_lengths (several : 2 ≤ weights.length) : (lengths weights).length = weights.length := by
  obtain ⟨tree, entries, -, -, positions, same⟩ := lengths_eq several
  rw [same, List.length_map, ← List.length_map (f := fun entry : Nat × Nat => entry.1), positions, List.length_range]

theorem kraft_lengths (several : 2 ≤ weights.length) : kraft (lengths weights) = 1 := by
  obtain ⟨tree, entries, -, perm, -, same⟩ := lengths_eq several
  rw [same, kraft_perm (perm.map _), kraft_depths, pow_zero]

theorem cost_lengths (several : 2 ≤ weights.length) {tree : MergeTree} (merged : merge (leaves weights) = some tree) :
    cost weights (lengths weights) = price (valueAt weights) tree := by
  obtain ⟨other, entries, otherMerged, perm, positions, same⟩ := lengths_eq several
  obtain rfl : other = tree := Option.some.inj (otherMerged.symm.trans merged)
  have spelled : entries.map (fun entry => valueAt weights entry.1) = weights := by
    have mapped := congrArg (List.map (valueAt weights)) positions
    rwa [List.map_map, map_valueAt_range] at mapped
  have sum := (perm.map fun entry => valueAt weights entry.1 * entry.2).sum_eq
  rw [sum_depths, Nat.zero_mul, Nat.add_zero] at sum
  rw [← sum, cost, same]
  conv_lhs => rw [← spelled]
  rw [List.zipWith_map, List.zipWith_self]

theorem cost_lengths_le (several : 2 ≤ weights.length) {others : List Nat} (size : others.length = weights.length)
    (bound : kraft others ≤ 1) : cost weights (lengths weights) ≤ cost weights others := by
  obtain ⟨tree, -, merged, -⟩ := lengths_eq several
  let assigned : Assignment := (weights.zip others : List (Nat × Nat))
  have weighted : assigned.weights = ((leaves weights).map (·.1) : Multiset Nat) := by
    rw [Multiset.coe_eq_coe.2 ((perm_leaves weights).map _), List.map_map]
    exact congrArg _ ((List.map_fst_zip size.ge).trans (map_valueAt_range weights).symm)
  have given : assigned.lengths = (others : Multiset Nat) := congrArg _ (List.map_snd_zip size.le)
  have priced : assigned.price = cost weights others := by
    rw [Assignment.price, cost, Multiset.map_coe, Multiset.sum_coe, List.zip, List.map_zipWith]
  have least := price_merge_le (sound_leaves weights) merged weighted (by rw [given]; exact bound)
  have flat : ((leaves weights).map fun entry => price (valueAt weights) entry.2).sum = 0 := by
    rw [((perm_leaves weights).map _).sum_eq, List.map_map]
    simp [Function.comp_def, price]
  rw [cost_lengths several merged, ← priced]
  omega

theorem optimal_lengths (several : 2 ≤ weights.length) {limit : Nat}
    (within : ∀ length ∈ lengths weights, length ≤ limit) : Optimal weights limit (lengths weights) where
  admissible := by
    have bound := (kraft_lengths several).le
    have nonempty := one_le_of_kraft_le (several.trans_eq (length_lengths several).symm) bound
    exact ⟨length_lengths several, fun length member => ⟨nonempty length member, within length member⟩, bound⟩
  cost_le _ admissible := cost_lengths_le several admissible.length_eq admissible.kraft_le

end Lengths

end HuffmanStrings.MergeTree
