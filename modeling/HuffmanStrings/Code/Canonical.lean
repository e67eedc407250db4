import HuffmanStrings.Bits.Basic

/-!
The canonical code of a list of code lengths. Symbols are grouped by length, shorter ones first and each group
in the order of the list, and then get consecutive words: the value grows by one, and is shifted left where the
length grows. The words of one length form a bucket of consecutive values, which is all that decoding needs. A word is
the low `length` bits of its value, the most significant first.
-/

namespace HuffmanStrings

structure CodeWord where
  value : UInt64
  length : Nat
  deriving DecidableEq, Repr

namespace CodeWord

def toBits (w : CodeWord) : List Bool :=
  Bits.ofNat w.length w.value.toNat

def text (w : CodeWord) : String :=
  Bits.text w.toBits

def isPrefixOf (w other : CodeWord) : Bool :=
  w.length ≤ other.length && other.value >>> UInt64.ofNat (other.length - w.length) = w.value

def writeTo {σ : Type} [BitOutput σ] (w : CodeWord) : EStateM Failure σ Unit :=
  BitOutput.write w.value w.length

/-- The word that follows `previous` in a canonical code, for a symbol whose word has `length` bits. -/
def successor (previous : CodeWord) (length : Nat) : CodeWord where
  value := (previous.value + 1) <<< UInt64.ofNat (length - previous.length)
  length := length

end CodeWord

def maximumCodeLength : Nat := 64

/-- The words of one length: `count` of them, of values from `first` on, the first word being number `offset`. -/
structure Bucket where
  first : UInt64
  offset : Nat
  count : Nat
  deriving DecidableEq, Repr

/-- The share of all words of `maximumCodeLength` bits that begin with a word of one of the given lengths, if no
word begins another. -/
def kraftSum {α : Type} : List (α × Nat) → Nat
  | [] => 0
  | entry :: rest => 1 <<< (maximumCodeLength - entry.2) + kraftSum rest

theorem kraftSum_perm {α : Type} {a b : List (α × Nat)} (perm : a.Perm b) : kraftSum a = kraftSum b := by
  induction perm with
  | nil => rfl
  | cons _ _ ih => simp only [kraftSum, ih]
  | swap => simp only [kraftSum]; omega
  | trans _ _ first second => exact first.trans second

namespace Canonical

variable {α : Type}

/-- Entries by ascending length, those of one length in the order of the list. -/
def order (entries : List (α × Nat)) : List (α × Nat) :=
  (List.range' 1 maximumCodeLength).flatMap fun length => entries.filter fun entry => entry.2 = length

def assignFrom : Option CodeWord → List (α × Nat) → List (α × CodeWord)
  | _, [] => []
  | none, (symbol, length) :: rest => (symbol, ⟨0, length⟩) :: assignFrom (some ⟨0, length⟩) rest
  | some previous, (symbol, length) :: rest =>
    (symbol, previous.successor length) :: assignFrom (some (previous.successor length)) rest

def assign (entries : List (α × Nat)) : List (α × CodeWord) :=
  assignFrom none entries

def bucket (codes : List (α × CodeWord)) (length : Nat) : Bucket where
  first := ((codes.find? fun entry => entry.2.length = length).map (·.2.value)).getD 0
  offset := codes.countP fun entry => entry.2.length < length
  count := codes.countP fun entry => entry.2.length = length

/-- The buckets of the lengths from 1 to that of the last word. -/
def buckets (codes : List (α × CodeWord)) : List Bucket :=
  (List.range' 1 ((codes.getLast?.map (·.2.length)).getD 0)).map (bucket codes)

theorem pairwise_order (entries : List (α × Nat)) : (order entries).Pairwise fun a b => a.2 ≤ b.2 := by
  unfold order
  rw [List.pairwise_flatMap]
  constructor
  · intro length _
    refine List.pairwise_of_forall_mem_list fun a memberA b memberB => ?_
    simp only [List.mem_filter, decide_eq_true_eq] at memberA memberB
    omega
  · refine List.Pairwise.imp ?_ (List.pairwise_lt_range' (s := 1) (n := maximumCodeLength))
    intro i j less a memberA b memberB
    simp only [List.mem_filter, decide_eq_true_eq] at memberA memberB
    omega

section Grouping

variable {β : Type} (key : β → Nat) {k : Nat} {keys : List Nat}

theorem flatMap_filter_without (absent : k ∉ keys) (list : List β) :
    (keys.flatMap fun j => (list.filter fun item => !decide (key item = k)).filter fun item => key item = j) =
      keys.flatMap fun j => list.filter fun item => key item = j := by
  rw [List.flatMap_def, List.flatMap_def]
  refine congrArg List.flatten (List.map_congr_left fun j member => ?_)
  rw [List.filter_filter]
  refine List.filter_congr fun item _ => ?_
  by_cases equal : key item = j
  · have : j ≠ k := fun again => absent (again ▸ member)
    simp [equal, this]
  · simp [equal]

theorem perm_flatMap_filter (distinct : keys.Nodup) {list : List β} (covered : ∀ item ∈ list, key item ∈ keys) :
    (keys.flatMap fun k => list.filter fun item => key item = k).Perm list := by
  induction keys generalizing list with
  | nil => cases list with
    | nil => exact .nil
    | cons item rest => exact absurd (covered item (List.mem_cons_self ..)) (by simp)
  | cons k keys ih =>
    rw [List.nodup_cons] at distinct
    have others := @ih distinct.2 (list.filter fun item => !decide (key item = k)) <| by
      intro item member
      simp only [List.mem_filter, Bool.not_eq_true', decide_eq_false_iff_not] at member
      exact (List.mem_cons.1 (covered item member.1)).resolve_left member.2
    rw [flatMap_filter_without key distinct.1] at others
    rw [List.flatMap_cons]
    exact (others.append_left _).trans (List.filter_append_perm _ _)

end Grouping

theorem perm_order {entries : List (α × Nat)}
    (range : ∀ entry ∈ entries, 1 ≤ entry.2 ∧ entry.2 ≤ maximumCodeLength) : (order entries).Perm entries := by
  refine perm_flatMap_filter (fun entry : α × Nat => entry.2) List.nodup_range' fun entry member => ?_
  have := range entry member
  rw [List.mem_range'_1]
  omega

end Canonical

def Bucket.index? (b : Bucket) (value : UInt64) : Option Nat :=
  if b.first ≤ value ∧ (value - b.first).toNat < b.count then
    some (b.offset + (value - b.first).toNat)
  else
    none

end HuffmanStrings
