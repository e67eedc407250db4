import Mathlib
import HuffmanStrings.Bits.Basic

/-!
The two views of a bit field agree: a list of bits and the number it spells determine each other, and cutting the
list is dividing the number.
-/

namespace HuffmanStrings.Bits

@[simp] theorem toNat_nil : toNat [] = 0 := rfl

theorem toNat_append_singleton (bits : List Bool) (bit : Bool) :
    toNat (bits ++ [bit]) = 2 * toNat bits + bit.toNat := by
  simp only [toNat, List.foldl_append, List.foldl_cons, List.foldl_nil]

theorem toNat_lt (bits : List Bool) : toNat bits < 2 ^ bits.length := by
  induction bits using List.reverseRecOn with
  | nil => simp
  | append_singleton bits bit ih =>
    rw [toNat_append_singleton, List.length_append, List.length_singleton, pow_succ]
    have := bit.toNat_lt
    omega

theorem ofNat_add (high low value : Nat) :
    ofNat (high + low) value = ofNat high (value / 2 ^ low) ++ ofNat low value := by
  induction high with
  | zero => simp [ofNat]
  | succ high ih =>
    rw [Nat.add_right_comm]
    simp only [ofNat, ih, List.cons_append, Nat.testBit_div_two_pow]

theorem drop_ofNat {count missing : Nat} (value : Nat) (within : missing ≤ count) :
    (ofNat count value).drop missing = ofNat (count - missing) value := by
  have split := ofNat_add missing (count - missing) value
  rw [Nat.add_sub_cancel' within] at split
  rw [split, List.drop_left' (length_ofNat ..)]

theorem ofNat_succ (count value : Nat) :
    ofNat (count + 1) value = ofNat count (value / 2) ++ [value.testBit 0] := by
  simpa [ofNat] using ofNat_add count 1 value

theorem toNat_ofNat (count value : Nat) : toNat (ofNat count value) = value % 2 ^ count := by
  induction count generalizing value with
  | zero => simp [ofNat, Nat.mod_one]
  | succ count ih =>
    rw [ofNat_succ, toNat_append_singleton, ih, Nat.toNat_testBit, pow_zero, Nat.div_one,
      pow_succ', Nat.mod_mul, add_comm]

theorem ofNat_toNat (bits : List Bool) : ofNat bits.length (toNat bits) = bits := by
  induction bits using List.reverseRecOn with
  | nil => rfl
  | append_singleton bits bit ih =>
    have half : (2 * toNat bits + bit.toNat) / 2 = toNat bits := by
      have := bit.toNat_lt
      omega
    rw [List.length_append, List.length_singleton, ofNat_succ, toNat_append_singleton, half, ih]
    cases bit <;> simp [Nat.testBit_zero, Nat.add_mod]

theorem getElem_ofNat {count value index : Nat} (within : index < (ofNat count value).length) :
    (ofNat count value)[index] = value.testBit (count - 1 - index) := by
  induction count generalizing index with
  | zero => exact absurd within (Nat.not_lt_zero index)
  | succ count ih =>
    cases index with
    | zero => rfl
    | succ index =>
      have later : count + 1 - 1 - (index + 1) = count - 1 - index := by omega
      simp only [ofNat, List.getElem_cons_succ, ih, later]

theorem ofNat_mod (count value : Nat) : ofNat count (value % 2 ^ count) = ofNat count value := by
  apply List.ext_getElem
  · rw [length_ofNat, length_ofNat]
  · intro index within _
    rw [length_ofNat] at within
    have low : count - 1 - index < count := by omega
    rw [getElem_ofNat, getElem_ofNat, Nat.testBit_mod_two_pow, decide_eq_true low, Bool.true_and]

theorem toNat_append (front back : List Bool) : toNat (front ++ back) = toNat front * 2 ^ back.length + toNat back := by
  induction back using List.reverseRecOn with
  | nil => simp
  | append_singleton back bit ih =>
    rw [← List.append_assoc, toNat_append_singleton, toNat_append_singleton, ih, List.length_append,
      List.length_singleton, pow_succ]
    ring

theorem toNat_cons (bit : Bool) (bits : List Bool) : toNat (bit :: bits) = bit.toNat * 2 ^ bits.length + toNat bits := by
  have split := toNat_append [bit] bits
  simpa [toNat] using split

/-- The number that bits spell in two's complement. -/
def toInt : List Bool → Int
  | [] => 0
  | sign :: bits => toNat bits - if sign then 2 ^ bits.length else 0

theorem toNat_inj {front back : List Bool} (lengths : front.length = back.length)
    (values : toNat front = toNat back) : front = back := by
  rw [← ofNat_toNat front, ← ofNat_toNat back, lengths, values]

theorem lt_of_toNat_lt {front back : List Bool} (lengths : front.length = back.length)
    (values : toNat front < toNat back) : front < back := by
  induction front generalizing back with
  | nil =>
    cases back with
    | nil => exact absurd values (Nat.lt_irrefl _)
    | cons bit back => cases lengths
  | cons bit front ih =>
    cases back with
    | nil => cases lengths
    | cons other back =>
      have same := Nat.succ.inj lengths
      have short := toNat_lt front
      have otherShort := toNat_lt back
      rw [toNat_cons, toNat_cons, same] at values
      rw [same] at short
      rw [List.cons_lt_cons_iff]
      cases bit <;> cases other
      · exact .inr ⟨rfl, ih same (by simpa using values)⟩
      · exact .inl rfl
      · simp only [Bool.toNat_true, Bool.toNat_false] at values
        omega
      · exact .inr ⟨rfl, ih same (by simpa using values)⟩

/-- The bits of a number begin with those of its leading part only. -/
theorem ofNat_prefix_iff {short long value other : Nat} (fits : value < 2 ^ short) (otherFits : other < 2 ^ long) :
    ofNat short value <+: ofNat long other ↔ short ≤ long ∧ other / 2 ^ (long - short) = value := by
  constructor
  · intro begins
    have shorter : short ≤ long := by simpa only [length_ofNat] using begins.length_le
    refine ⟨shorter, ?_⟩
    obtain ⟨rest, same⟩ := begins
    have split := ofNat_add short (long - short) other
    rw [Nat.add_sub_cancel' shorter, ← same] at split
    have heads := (List.append_inj split (by rw [length_ofNat, length_ofNat])).1
    have values := congrArg toNat heads
    rw [toNat_ofNat, toNat_ofNat, Nat.mod_eq_of_lt fits] at values
    rw [values, Nat.mod_eq_of_lt]
    rwa [Nat.div_lt_iff_lt_mul (Nat.two_pow_pos _), ← pow_add, Nat.add_sub_cancel' shorter]
  · rintro ⟨shorter, rfl⟩
    have split := ofNat_add short (long - short) other
    rw [Nat.add_sub_cancel' shorter] at split
    exact ⟨_, split.symm⟩

section Shifts

variable {count : Nat}

theorem toNat_shiftRight_ofNat (word : UInt64) (small : count < 64) :
    (word >>> UInt64.ofNat count).toNat = word.toNat / 2 ^ count := by
  rw [UInt64.toNat_shiftRight, UInt64.toNat_ofNat_of_lt' (small.trans (by decide)), Nat.mod_eq_of_lt small,
    Nat.shiftRight_eq_div_pow]

theorem toNat_shiftLeft_ofNat {word : UInt64} (small : count < 64) (room : word.toNat * 2 ^ count < 2 ^ 64) :
    (word <<< UInt64.ofNat count).toNat = word.toNat * 2 ^ count := by
  rw [UInt64.toNat_shiftLeft, UInt64.toNat_ofNat_of_lt' (small.trans (by decide)), Nat.mod_eq_of_lt small,
    Nat.shiftLeft_eq, Nat.mod_eq_of_lt room]

theorem toNat_shiftLeft_or {word low : UInt64} (small : count < 64) (room : (word.toNat + 1) * 2 ^ count ≤ 2 ^ 64)
    (fits : low.toNat < 2 ^ count) : ((word <<< UInt64.ofNat count) ||| low).toNat = word.toNat * 2 ^ count + low.toNat := by
  rw [Nat.add_mul, Nat.one_mul] at room
  rw [UInt64.toNat_or, toNat_shiftLeft_ofNat small (by omega), ← Nat.shiftLeft_eq, ← Nat.shiftLeft_add_eq_or_of_lt fits]

end Shifts

end HuffmanStrings.Bits
