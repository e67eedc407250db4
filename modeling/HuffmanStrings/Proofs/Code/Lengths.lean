import Mathlib
import HuffmanStrings.Code.Canonical

/-!
Lists of code lengths: what they cost under weights, and Kraft's sum. A word of `length` bits begins the share
`2 ^ -length` of all long bit strings, and the shares of words none of which begins another add up to at most 1.
The tables hold this sum in units of `2 ^ -64`.
-/

namespace HuffmanStrings

/-- The sum of the shares of words of the given lengths. -/
def kraft (lengths : List Nat) : ℚ :=
  (lengths.map fun length => (1 / 2 : ℚ) ^ length).sum

/-- The bits needed for as many words of each length as its weight says. -/
def cost (weights lengths : List Nat) : Nat :=
  (List.zipWith (· * ·) weights lengths).sum

/-- Code lengths for as many weights, each of 1 to `limit` bits, that prefix-free words can have. -/
structure Admissible (count limit : Nat) (lengths : List Nat) : Prop where
  length_eq : lengths.length = count
  range : ∀ length ∈ lengths, 1 ≤ length ∧ length ≤ limit
  kraft_le : kraft lengths ≤ 1

structure Optimal (weights : List Nat) (limit : Nat) (lengths : List Nat) : Prop where
  admissible : Admissible weights.length limit lengths
  cost_le : ∀ others, Admissible weights.length limit others → cost weights lengths ≤ cost weights others

@[simp] theorem kraft_nil : kraft [] = 0 := rfl

@[simp] theorem kraft_cons (length : Nat) (lengths : List Nat) :
    kraft (length :: lengths) = (1 / 2 : ℚ) ^ length + kraft lengths := by
  simp [kraft]

theorem kraft_append (front back : List Nat) : kraft (front ++ back) = kraft front + kraft back := by
  simp [kraft]

theorem kraft_perm {lengths others : List Nat} (perm : lengths.Perm others) : kraft lengths = kraft others :=
  (perm.map _).sum_eq

theorem kraft_nonneg (lengths : List Nat) : 0 ≤ kraft lengths := by
  induction lengths with
  | nil => exact le_refl _
  | cons length lengths ih =>
    rw [kraft_cons]
    positivity

theorem one_le_of_kraft_le {lengths : List Nat} (several : 2 ≤ lengths.length) (bound : kraft lengths ≤ 1) :
    ∀ length ∈ lengths, 1 ≤ length := by
  intro length member
  by_contra zero
  obtain rfl : length = 0 := by omega
  have perm := List.perm_cons_erase member
  have size := perm.length_eq
  rw [kraft_perm perm, kraft_cons, pow_zero] at bound
  cases rest : lengths.erase 0 with
  | nil => rw [rest] at size; simp only [List.length_cons, List.length_nil] at size; omega
  | cons other others =>
    rw [rest, kraft_cons] at bound
    have := kraft_nonneg others
    have : (0 : ℚ) < (1 / 2) ^ other := by positivity
    linarith

theorem kraft_map_max_le (minimum : Nat) (lengths : List Nat) : kraft (lengths.map (max minimum)) ≤ kraft lengths := by
  induction lengths with
  | nil => exact le_refl _
  | cons length lengths ih =>
    rw [List.map_cons, kraft_cons, kraft_cons]
    exact add_le_add (pow_le_pow_of_le_one (by norm_num) (by norm_num) (le_max_right ..)) ih

section Positions

def valueAt (values : List Nat) (index : Nat) : Nat :=
  values.getD index 0

theorem sum_map_eq_sum_valueAt {M : Type} [AddCommMonoid M] (values : List Nat) (f : Nat → M) :
    (values.map f).sum = ∑ index ∈ Finset.range values.length, f (valueAt values index) := by
  induction values with
  | nil => rfl
  | cons value values ih =>
    rw [List.map_cons, List.sum_cons, List.length_cons, Finset.sum_range_succ', ih, add_comm]
    rfl

theorem kraft_eq_sum (lengths : List Nat) :
    kraft lengths = ∑ index ∈ Finset.range lengths.length, (1 / 2 : ℚ) ^ valueAt lengths index :=
  sum_map_eq_sum_valueAt lengths _

theorem cost_eq_sum {weights lengths : List Nat} (same : lengths.length = weights.length) :
    cost weights lengths = ∑ index ∈ Finset.range weights.length, valueAt weights index * valueAt lengths index := by
  induction weights generalizing lengths with
  | nil => simp [cost]
  | cons weight weights ih =>
    cases lengths with
    | nil => cases same
    | cons length lengths =>
      have rest := ih (Nat.succ.inj same)
      rw [cost] at rest
      rw [cost, List.zipWith_cons_cons, List.sum_cons, rest, List.length_cons, Finset.sum_range_succ', add_comm]
      rfl

theorem valueAt_mem {values : List Nat} {index : Nat} (within : index < values.length) : valueAt values index ∈ values := by
  rw [valueAt, List.getD_eq_getElem _ _ within]
  exact List.getElem_mem _

theorem valueAt_map_range {count index : Nat} (f : Nat → Nat) (within : index < count) :
    valueAt ((List.range count).map f) index = f index := by
  rw [valueAt, List.getD_eq_getElem _ _ (by simpa using within), List.getElem_map, List.getElem_range]

theorem map_valueAt_range (values : List Nat) : (List.range values.length).map (valueAt values) = values := by
  apply List.ext_getElem
  · simp
  · intro index _ within
    simp [valueAt, List.getElem?_eq_getElem within]

theorem mapIdx_eq_map_range {β : Type} (values : List Nat) (f : Nat → Nat → β) :
    values.mapIdx f = (List.range values.length).map fun index => f index (valueAt values index) := by
  apply List.ext_getElem
  · simp
  · intro index within _
    have within : index < values.length := by simpa using within
    simp [valueAt, List.getElem?_eq_getElem within]

theorem key_trans {β : Type} {key : β → Nat} (a b c : β) :
    decide (key a ≤ key b) = true → decide (key b ≤ key c) = true → decide (key a ≤ key c) = true := by
  simp only [decide_eq_true_eq]
  omega

theorem key_total {β : Type} {key : β → Nat} (a b : β) : (decide (key a ≤ key b) || decide (key b ≤ key a)) = true := by
  simp only [Bool.or_eq_true, decide_eq_true_eq]
  omega

theorem pairwise_mergeSort_key {β : Type} (key : β → Nat) (items : List β) :
    (items.mergeSort fun a b => key a ≤ key b).Pairwise fun a b => key a ≤ key b := by
  simpa only [decide_eq_true_eq] using List.pairwise_mergeSort key_trans key_total items

end Positions

section Units

variable {α : Type} {entries : List (α × Nat)}

theorem share_eq {length scale : Nat} (within : length ≤ scale) :
    ((2 ^ (scale - length) : Nat) : ℚ) = 2 ^ scale * (1 / 2) ^ length := by
  rw [Nat.cast_pow, Nat.cast_ofNat, pow_sub₀ _ (by norm_num) within, one_div, inv_pow]

theorem kraftSum_eq (within : ∀ entry ∈ entries, entry.2 ≤ maximumCodeLength) :
    (kraftSum entries : ℚ) = 2 ^ maximumCodeLength * kraft (entries.map (·.2)) := by
  induction entries with
  | nil => simp [kraftSum]
  | cons entry rest ih =>
    rw [List.forall_mem_cons] at within
    rw [kraftSum, Nat.one_shiftLeft, Nat.cast_add, share_eq within.1, ih within.2, List.map_cons, kraft_cons, mul_add]

theorem kraftSum_le_iff (within : ∀ entry ∈ entries, entry.2 ≤ maximumCodeLength) :
    kraftSum entries ≤ 1 <<< maximumCodeLength ↔ kraft (entries.map (·.2)) ≤ 1 := by
  have scale : (0 : ℚ) < 2 ^ maximumCodeLength := by positivity
  rw [← Nat.cast_le (α := ℚ), kraftSum_eq within, Nat.one_shiftLeft, Nat.cast_pow, Nat.cast_ofNat]
  exact mul_le_iff_le_one_right scale

end Units

end HuffmanStrings
