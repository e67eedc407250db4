import Mathlib
import HuffmanStrings.Proofs.Symbol.Ranking

/-!
What is counted. The count of a symbol is the sum of all that was supplied for it, up to the largest count there is, so
counts do not depend on the order in which they are supplied; and as long as they are not cut off, a sum over what was
supplied is the sum over the counts.
-/

namespace HuffmanStrings

theorem toNat_addSaturating (a b : UInt64) : (addSaturating a b).toNat = min (a.toNat + b.toNat) (2 ^ 64 - 1) := by
  have fits : min (a.toNat + b.toNat) (UInt64.size - 1) < UInt64.size :=
    lt_of_le_of_lt (min_le_right ..) (by decide)
  rw [addSaturating, UInt64.toNat_ofNat_of_lt' fits]
  rfl

theorem addSaturating_zero_left (a : UInt64) : addSaturating 0 a = a := by
  apply UInt64.toNat_inj.1
  have := a.toNat_lt
  rw [toNat_addSaturating, UInt64.toNat_zero]
  omega

/-- What is written altogether, if a symbol takes `lengths` bits each time. -/
def weigh {α : Type} (lengths : α → Nat) (frequencies : List (α × UInt64)) : Nat :=
  (frequencies.map fun entry => entry.2.toNat * lengths entry.1).sum

section Weights

variable {α : Type} {lengths : α → Nat}

theorem weigh_cons (entry : α × UInt64) (rest : List (α × UInt64)) :
    weigh lengths (entry :: rest) = entry.2.toNat * lengths entry.1 + weigh lengths rest := rfl

theorem weigh_append (front back : List (α × UInt64)) :
    weigh lengths (front ++ back) = weigh lengths front + weigh lengths back := by
  simp [weigh]

theorem weigh_perm {frequencies others : List (α × UInt64)} (perm : frequencies.Perm others) :
    weigh lengths frequencies = weigh lengths others :=
  (perm.map _).sum_eq

theorem weigh_map {β : Type} (name : β → α) (frequencies : List (β × UInt64)) :
    weigh lengths (frequencies.map fun entry => (name entry.1, entry.2)) = weigh (lengths ∘ name) frequencies := by
  rw [weigh, weigh, List.map_map]
  rfl

theorem weigh_ones (symbols : List α) : weigh lengths (symbols.map (·, 1)) = (symbols.map lengths).sum := by
  rw [weigh, List.map_map]
  refine congrArg List.sum (List.map_congr_left fun symbol _ => ?_)
  exact Nat.one_mul _

theorem nodup_map_name {β : Type} {name : β → α} (injective : Function.Injective name) {frequencies : List (β × UInt64)}
    (distinct : (frequencies.map (·.1)).Nodup) :
    ((frequencies.map fun entry => (name entry.1, entry.2)).map (·.1)).Nodup := by
  have named := distinct.map injective
  rw [List.map_map] at named ⊢
  exact named

end Weights

namespace Counter

variable {α : Type} [DecidableEq α] {frequencies others : List (α × UInt64)}

/-- What is supplied for a symbol altogether. -/
def supplied (frequencies : List (α × UInt64)) (symbol : α) : Nat :=
  (frequencies.map fun entry => if entry.1 = symbol then entry.2.toNat else 0).sum

section Supply

theorem supplied_append (front back : List (α × UInt64)) (symbol : α) :
    supplied (front ++ back) symbol = supplied front symbol + supplied back symbol := by
  simp [supplied]

theorem supplied_perm (perm : frequencies.Perm others) (symbol : α) :
    supplied frequencies symbol = supplied others symbol :=
  (perm.map _).sum_eq

theorem supplied_ones (symbols : List α) (symbol : α) :
    supplied (symbols.map (·, 1)) symbol = symbols.count symbol := by
  induction symbols with
  | nil => rfl
  | cons other rest ih =>
    have first : supplied ((other :: rest).map (·, 1)) symbol =
        (if other = symbol then 1 else 0) + supplied (rest.map (·, 1)) symbol := rfl
    rw [first, ih, List.count_cons]
    simp only [beq_iff_eq, Nat.add_comm]

theorem supplied_eq_zero {symbol : α} (absent : symbol ∉ frequencies.map (·.1)) : supplied frequencies symbol = 0 := by
  rw [supplied, List.sum_eq_zero_iff, List.forall_mem_map]
  intro entry member
  exact if_neg fun same => absent (List.mem_map.2 ⟨entry, member, same⟩)

theorem supplied_lt_of_nodup (distinct : (frequencies.map (·.1)).Nodup) (symbol : α) :
    supplied frequencies symbol < 2 ^ 64 := by
  induction frequencies with
  | nil => exact Nat.two_pow_pos 64
  | cons entry rest ih =>
    rw [List.map_cons, List.nodup_cons] at distinct
    have first : supplied (entry :: rest) symbol =
        (if entry.1 = symbol then entry.2.toNat else 0) + supplied rest symbol := rfl
    rw [first]
    split
    · rename_i same
      rw [supplied_eq_zero (same ▸ distinct.1), Nat.add_zero]
      exact entry.2.toNat_lt
    · rw [Nat.zero_add]
      exact ih distinct.2

end Supply

section Counts

theorem ofCounts_append (front back : List (α × UInt64)) :
    ofCounts (front ++ back) = back.foldl (fun c entry => c.addCount entry.1 entry.2) (ofCounts front) :=
  List.foldl_append

theorem ofCounts_concat (frequencies : List (α × UInt64)) (entry : α × UInt64) :
    ofCounts (frequencies ++ [entry]) = (ofCounts frequencies).addCount entry.1 entry.2 :=
  ofCounts_append frequencies [entry]

theorem ofList_eq_ofCounts (symbols : List α) : ofList symbols = ofCounts (symbols.map (·, 1)) := by
  rw [ofCounts, List.foldl_map]
  rfl

@[simp] theorem countOf_nil (symbol : α) : countOf ⟨[]⟩ symbol = 0 := rfl

@[simp] theorem countOf_cons_self (symbol : α) (count : UInt64) (rest : List (α × UInt64)) :
    countOf ⟨(symbol, count) :: rest⟩ symbol = count := by
  rw [countOf, List.lookup_cons_self, Option.getD_some]

theorem countOf_cons_of_ne {symbol other : α} (different : other ≠ symbol) (count : UInt64) (rest : List (α × UInt64)) :
    countOf ⟨(symbol, count) :: rest⟩ other = countOf ⟨rest⟩ other := by
  rw [countOf, List.lookup_cons, beq_eq_false_iff_ne.2 different]
  rfl

theorem nodup_ofList (symbols : List α) : ((ofList symbols).counts.map (·.1)).Nodup :=
  ofList_eq_ofCounts symbols ▸ nodup_ofCounts _

theorem mem_ofList {symbols : List α} {symbol : α} :
    symbol ∈ (ofList symbols).counts.map (·.1) ↔ symbol ∈ symbols := by
  rw [ofList_eq_ofCounts, mem_ofCounts, List.map_map]
  exact Iff.of_eq (congrArg (symbol ∈ ·) (List.map_id _))

theorem countOf_raise (counts : List (α × UInt64)) (symbol other : α) (count : UInt64) :
    countOf ⟨raise symbol count counts⟩ other =
      if other = symbol then addSaturating (countOf ⟨counts⟩ symbol) count else countOf ⟨counts⟩ other := by
  induction counts with
  | nil =>
    unfold raise
    split
    · rename_i same
      rw [same, countOf_cons_self, countOf_nil, addSaturating_zero_left]
    · rename_i different
      rw [countOf_cons_of_ne different]
  | cons entry rest ih =>
    obtain ⟨first, known⟩ := entry
    unfold raise
    by_cases here : first = symbol
    · subst here
      rw [if_pos rfl]
      split
      · rename_i same
        rw [same, countOf_cons_self, countOf_cons_self]
      · rename_i different
        rw [countOf_cons_of_ne different, countOf_cons_of_ne different]
    · rw [if_neg here, countOf_cons_of_ne (Ne.symm here)]
      by_cases same : other = first
      · subst same
        rw [countOf_cons_self, countOf_cons_self, if_neg here]
      · rw [countOf_cons_of_ne same, countOf_cons_of_ne same, ih]

theorem countOf_addCount (c : Counter α) (symbol other : α) (count : UInt64) : (c.addCount symbol count).countOf other =
    if other = symbol then addSaturating (c.countOf symbol) count else c.countOf other :=
  countOf_raise ..

/-- The count of a symbol in closed form. -/
theorem toNat_countOf_ofCounts (frequencies : List (α × UInt64)) (symbol : α) :
    ((ofCounts frequencies).countOf symbol).toNat = min (supplied frequencies symbol) (2 ^ 64 - 1) := by
  induction frequencies using List.reverseRecOn with
  | nil => rfl
  | append_singleton front entry ih =>
    have last : supplied [entry] symbol = if entry.1 = symbol then entry.2.toNat else 0 := Nat.add_zero _
    rw [ofCounts_concat, countOf_addCount, supplied_append, last]
    by_cases same : entry.1 = symbol
    · subst same
      rw [if_pos rfl, if_pos rfl, toNat_addSaturating, ih]
      omega
    · rw [if_neg (Ne.symm same), if_neg same, ih, Nat.add_zero]

theorem mem_counts_iff {c : Counter α} (distinct : (c.counts.map (·.1)).Nodup) {symbol : α} {count : UInt64} :
    (symbol, count) ∈ c.counts ↔ symbol ∈ c.counts.map (·.1) ∧ c.countOf symbol = count := by
  rw [← lookup_eq_some_iff distinct, countOf]
  constructor
  · intro found
    rw [found]
    exact ⟨List.mem_map_of_mem (f := (·.1)) ((lookup_eq_some_iff distinct).1 found), rfl⟩
  · rintro ⟨member, rfl⟩
    obtain ⟨⟨_, known⟩, listed, rfl⟩ := List.mem_map.1 member
    rw [(lookup_eq_some_iff distinct).2 listed]
    rfl

theorem perm_ofCounts (perm : frequencies.Perm others) :
    (ofCounts frequencies).counts.Perm (ofCounts others).counts := by
  have distinct (supply : List (α × UInt64)) : (ofCounts supply).counts.Nodup := (nodup_ofCounts supply).of_map
  rw [List.perm_ext_iff_of_nodup (distinct _) (distinct _)]
  rintro ⟨symbol, count⟩
  rw [mem_counts_iff (nodup_ofCounts _), mem_counts_iff (nodup_ofCounts _), mem_ofCounts, mem_ofCounts,
    (perm.map _).mem_iff, ← UInt64.toNat_inj, ← UInt64.toNat_inj, toNat_countOf_ofCounts, toNat_countOf_ofCounts,
    supplied_perm perm]

theorem perm_ofList {symbols others : List α} (perm : symbols.Perm others) :
    (ofList symbols).counts.Perm (ofList others).counts := by
  rw [ofList_eq_ofCounts, ofList_eq_ofCounts]
  exact perm_ofCounts (perm.map _)

end Counts

section Weights

variable {lengths : α → Nat}

theorem weigh_addCount {c : Counter α} {symbol : α} {count : UInt64}
    (fits : (c.countOf symbol).toNat + count.toNat < 2 ^ 64) :
    weigh lengths (c.addCount symbol count).counts = weigh lengths c.counts + count.toNat * lengths symbol := by
  obtain ⟨counts⟩ := c
  unfold addCount
  induction counts with
  | nil => exact Nat.add_comm ..
  | cons entry rest ih =>
    obtain ⟨first, known⟩ := entry
    unfold raise
    by_cases here : first = symbol
    · subst here
      rw [countOf_cons_self] at fits
      have sum : (addSaturating known count).toNat = known.toNat + count.toNat := by
        rw [toNat_addSaturating]
        omega
      rw [if_pos rfl, weigh_cons, weigh_cons, sum, Nat.add_mul, Nat.add_right_comm]
    · rw [countOf_cons_of_ne (Ne.symm here)] at fits
      rw [if_neg here, weigh_cons, weigh_cons, ih fits, Nat.add_assoc]

/-- Counting loses nothing as long as no count is cut off. -/
theorem weigh_ofCounts (fits : ∀ symbol, supplied frequencies symbol < 2 ^ 64) :
    weigh lengths (ofCounts frequencies).counts = weigh lengths frequencies := by
  induction frequencies using List.reverseRecOn with
  | nil => rfl
  | append_singleton front entry ih =>
    have last (symbol : α) : supplied (front ++ [entry]) symbol =
        supplied front symbol + if entry.1 = symbol then entry.2.toNat else 0 := supplied_append ..
    have before (symbol : α) : supplied front symbol < 2 ^ 64 := by
      have := fits symbol
      rw [last] at this
      omega
    have room : ((ofCounts front).countOf entry.1).toNat + entry.2.toNat < 2 ^ 64 := by
      have := fits entry.1
      rw [last, if_pos rfl] at this
      rw [toNat_countOf_ofCounts]
      omega
    rw [ofCounts_concat, weigh_addCount room, ih before, weigh_append]
    rfl

theorem weigh_ofList {symbols : List α} (fits : ∀ symbol, symbols.count symbol < 2 ^ 64) :
    weigh lengths (ofList symbols).counts = (symbols.map lengths).sum := by
  rw [ofList_eq_ofCounts, weigh_ofCounts fun symbol => supplied_ones symbols symbol ▸ fits symbol, weigh_ones]

end Weights

end Counter

end HuffmanStrings
