import HuffmanStrings.Code.Canonical
import HuffmanStrings.Code.Optimal
import HuffmanStrings.Symbol.Ranking

/-!
Code tables. A table is its code lengths in canonical order and its escape symbol; words and buckets follow
from them and are kept for use. A table holds only lengths that a prefix-free code can have, so that reading a
word needs no look-ahead and every symbol has its word.
-/

namespace HuffmanStrings

structure Realisable {α : Type} (lengths : List (α × Nat)) : Prop where
  nonempty : lengths ≠ []
  distinct : (lengths.map (·.1)).Nodup
  range : ∀ entry ∈ lengths, 1 ≤ entry.2 ∧ entry.2 ≤ maximumCodeLength
  kraft : kraftSum lengths ≤ 1 <<< maximumCodeLength

namespace Realisable

variable {α : Type} [DecidableEq α]

/-- The first entry that has a length out of range, or repeats a symbol of `seen` or of an earlier entry. -/
def firstFlaw (seen : List α) : List (α × Nat) → Option TableFlaw
  | [] => none
  | (symbol, length) :: rest =>
    if length = 0 ∨ maximumCodeLength < length then some (.lengthOutOfRange length)
    else if symbol ∈ seen then some .duplicateSymbol
    else firstFlaw (symbol :: seen) rest

theorem distinct_of_firstFlaw {seen : List α} {entries : List (α × Nat)} (clean : firstFlaw seen entries = none) :
    (entries.map (·.1)).Nodup ∧ ∀ symbol ∈ entries.map (·.1), symbol ∉ seen := by
  induction entries generalizing seen with
  | nil => simp
  | cons entry rest ih =>
    simp only [firstFlaw] at clean
    split at clean
    · cases clean
    · split at clean
      · cases clean
      · rename_i unseen
        have ⟨distinct, fresh⟩ := ih clean
        simp only [List.map_cons, List.nodup_cons, List.mem_cons, forall_eq_or_imp]
        exact ⟨⟨fun again => fresh _ again (List.mem_cons_self ..), distinct⟩, unseen,
          fun symbol member again => fresh symbol member (List.mem_cons_of_mem _ again)⟩

theorem range_of_firstFlaw {seen : List α} {entries : List (α × Nat)} (clean : firstFlaw seen entries = none) :
    ∀ entry ∈ entries, 1 ≤ entry.2 ∧ entry.2 ≤ maximumCodeLength := by
  induction entries generalizing seen with
  | nil => simp
  | cons entry rest ih =>
    simp only [firstFlaw] at clean
    split at clean
    · cases clean
    · rename_i within
      split at clean
      · cases clean
      · rw [List.forall_mem_cons]
        exact ⟨by omega, ih clean⟩

end Realisable

structure CodeTable (α : Type) where
  lengths : List (α × Nat)
  /-- The symbol that announces one without a word of its own. -/
  escape : Option α
  realisable : Realisable lengths
  ordered : lengths.Pairwise fun a b => a.2 ≤ b.2
  escape_mem : ∀ symbol ∈ escape, symbol ∈ lengths.map (·.1)
  codes : List (α × CodeWord) := Canonical.assign lengths
  codes_eq : codes = Canonical.assign lengths := by rfl
  buckets : List Bucket := Canonical.buckets codes
  buckets_eq : buckets = Canonical.buckets codes := by rfl
  deriving DecidableEq

namespace CodeTable

variable {α : Type} [DecidableEq α]

omit [DecidableEq α] in
theorem realisable_order {entries : List (α × Nat)} (realisable : Realisable entries) :
    Realisable (Canonical.order entries) where
  nonempty := fun none => realisable.nonempty
    (List.Perm.nil_eq (none ▸ Canonical.perm_order realisable.range)).symm
  distinct := ((Canonical.perm_order realisable.range).map _).nodup_iff.2 realisable.distinct
  range entry member := realisable.range entry ((Canonical.perm_order realisable.range).mem_iff.1 member)
  kraft := kraftSum_perm (Canonical.perm_order realisable.range) ▸ realisable.kraft

/-- The code of a list of lengths, in any order; of symbols with equal lengths the earlier gets the smaller word. -/
def ofLengths (entries : List (α × Nat)) (escape : Option α) : Except Failure (CodeTable α) :=
  if nonempty : entries = [] then
    .error .emptyAlphabet
  else match clean : Realisable.firstFlaw [] entries with
    | some flaw => .error (.invalidTable flaw)
    | none =>
      if kraft : kraftSum entries ≤ 1 <<< maximumCodeLength then
        if member : ∀ symbol ∈ escape, symbol ∈ entries.map (·.1) then
          have range := Realisable.range_of_firstFlaw clean
          .ok {
            lengths := Canonical.order entries
            escape
            realisable := realisable_order ⟨nonempty, (Realisable.distinct_of_firstFlaw clean).1, range, kraft⟩
            ordered := Canonical.pairwise_order entries
            escape_mem := fun symbol given =>
              ((Canonical.perm_order range).map _).mem_iff.2 (member symbol given) }
        else
          .error (.invalidTable .escapeWithoutCode)
      else
        .error (.invalidTable .kraftSum)

def optimalLengths (weights : List Nat) (maximum : Nat) : List Nat :=
  let unbounded := MergeTree.lengths weights
  if ∃ length ∈ unbounded, maximum < length then Coin.lengths weights maximum else unbounded

/-- An optimal code under the bounds on its lengths; lengths below the minimum are raised to it. -/
def build (ranking : Ranking α) (maximum : Nat) : Except Failure (CodeTable α) :=
  if maximum = 0 ∨ maximumCodeLength < maximum then
    .error (.invalidBounds (.maximumOutOfRange maximum))
  else if maximum < ranking.minimum then
    .error (.invalidBounds (.minimumAboveMaximum ranking.minimum maximum))
  else if 1 <<< maximum < ranking.size then
    .error (.codeTooLong ranking.size maximum)
  else
    let optimal := optimalLengths (ranking.frequencies.map (·.toNat)) maximum
    ofLengths (ranking.symbols.zip (optimal.map (max ranking.minimum))) ranking.escape

omit [DecidableEq α] in
def size (t : CodeTable α) : Nat :=
  t.lengths.length

omit [DecidableEq α] in
def symbols (t : CodeTable α) : List α :=
  t.lengths.map (·.1)

omit [DecidableEq α] in
def longest (t : CodeTable α) : Nat :=
  t.buckets.length

def codeOf (t : CodeTable α) (symbol : α) : Option CodeWord :=
  t.codes.lookup symbol

def contains (t : CodeTable α) (symbol : α) : Bool :=
  (t.codeOf symbol).isSome

def escapeCode (t : CodeTable α) : Option CodeWord :=
  t.escape.bind t.codeOf

def encode {σ : Type} [BitOutput σ] (t : CodeTable α) (symbol : α) : EStateM Failure σ Bool :=
  match t.codeOf symbol with
  | some word => do
    word.writeTo
    return true
  | none => return false

omit [DecidableEq α] in
def pick? (t : CodeTable α) (bucket : Bucket) (value : UInt64) : Option (α × CodeWord) :=
  (bucket.index? value).bind (t.codes[·]?)

omit [DecidableEq α] in
/-- Reads on, one bit for each bucket, until the bits read are a word. -/
def decodeFrom {σ : Type} [BitInput σ] (t : CodeTable α) (start : Nat) :
    List Bucket → UInt64 → EStateM Failure σ (α × CodeWord)
  | [], _ => throw (.unknownCode start)
  | bucket :: longer, value => do
    let bit ← BitInput.read 1
    let value := 2 * value + bit
    match t.pick? bucket value with
    | some entry => pure entry
    | none => decodeFrom t start longer value

omit [DecidableEq α] in
def decode {σ : Type} [BitInput σ] (t : CodeTable α) : EStateM Failure σ (α × CodeWord) := fun input =>
  t.decodeFrom (BitInput.position input) t.buckets 0 input

omit [DecidableEq α] in
theorem remaining_decodeFrom {σ : Type} [BitInput σ] {t : CodeTable α} {start : Nat} {buckets : List Bucket}
    {value : UInt64} {s s' : σ} {entry : α × CodeWord}
    (done : t.decodeFrom start buckets value s = .ok entry s') :
    BitInput.remaining s' < BitInput.remaining s := by
  induction buckets generalizing value s with
  | nil => cases done
  | cons bucket longer ih =>
    obtain ⟨bit, s₁, read, done⟩ := bind_eq_ok_iff.1 done
    have := BitInput.remaining_read read
    cases picked : t.pick? bucket (2 * value + bit) with
    | some entry => simp only [picked] at done; cases done; exact this
    | none => simp only [picked] at done; exact Nat.lt_trans (ih done) this

omit [DecidableEq α] in
theorem remaining_decode {σ : Type} [BitInput σ] {t : CodeTable α} {s s' : σ} {entry : α × CodeWord}
    (done : t.decode s = .ok entry s') : BitInput.remaining s' < BitInput.remaining s :=
  remaining_decodeFrom done

end CodeTable

end HuffmanStrings
