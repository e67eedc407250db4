import Mathlib
import HuffmanStrings.Codebook.Basic
import HuffmanStrings.Proofs.Text.Format

/-!
The binary form is exact. Each reader takes off the front of its input just the bytes in which a value is written, and
takes them for nothing else; so codebooks are read back from their bytes whatever follows these, no bytes but theirs
are read as them, and bytes that were cut off are refused.
-/

namespace HuffmanStrings

theorem length_littleEndian (count value : Nat) : (littleEndian count value).length = count := by
  induction count generalizing value with
  | zero => rfl
  | succ count ih => rw [littleEndian, List.length_cons, ih]

theorem ofLittleEndian_eq_iff {bytes : List UInt8} {value : Nat} :
    ofLittleEndian bytes = value ↔ value < 256 ^ bytes.length ∧ bytes = littleEndian bytes.length value := by
  induction bytes generalizing value with
  | nil =>
    simp only [ofLittleEndian, littleEndian, List.length_nil, pow_zero, and_true]
    omega
  | cons byte bytes ih =>
    have small := byte.toNat_lt
    have later := @ih (value / 256)
    rw [ofLittleEndian, List.length_cons, littleEndian, List.cons.injEq, pow_succ]
    constructor
    · intro same
      have rest : ofLittleEndian bytes = value / 256 := by omega
      obtain ⟨bound, digits⟩ := later.1 rest
      refine ⟨by omega, ?_, digits⟩
      rw [← UInt8.toNat_inj, UInt8.toNat_ofNat']
      omega
    · rintro ⟨bound, rfl, digits⟩
      have rest := later.2 ⟨by omega, digits⟩
      rw [UInt8.toNat_ofNat']
      omega

/-- The number of the text's bytes is a 64-bit number, as for all texts in memory. -/
def Text.Addressable (text : String) : Prop :=
  (Utf8.encode text).length < 2 ^ 64

def Phrase.Addressable : Phrase → Prop
  | .text s => Text.Addressable s
  | .escape => True

structure StoredTable.Addressable {α : Type} (symbols : α → Prop) (stored : StoredTable α) : Prop where
  length_lt : stored.entries.length < 2 ^ 64
  entries : ∀ entry ∈ stored.entries, symbols entry.1
  escape : ∀ symbol ∈ stored.escape, symbols symbol

structure Codebook.Addressable (book : Codebook) : Prop where
  characters : book.characters.Addressable fun _ => True
  texts : book.texts.Addressable Phrase.Addressable

namespace Binary

variable {α β : Type}

/-- The reader takes the written form of a value that fits off the front of its input, and takes nothing else. -/
def Exact (read : Reader α) (write : α → List UInt8) (fits : α → Prop) : Prop :=
  ∀ bytes value rest, read bytes = some (value, rest) ↔ fits value ∧ bytes = write value ++ rest

theorem bind_eq_some_iff {first : Reader α} {next : α → Reader β} {bytes rest : List UInt8} {result : β} :
    (first >>= next) bytes = some (result, rest) ↔
      ∃ value middle, first bytes = some (value, middle) ∧ next value middle = some (result, rest) := by
  simp [Bind.bind, StateT.bind, Option.bind_eq_some_iff]

section Steps

variable {read : Reader α} {write other : α → List UInt8} {fits admits : α → Prop}

theorem Exact.congr (exact : Exact read write fits) (same : ∀ value, admits value ↔ fits value)
    (written : ∀ value, fits value → other value = write value) : Exact read other admits := by
  intro bytes value rest
  rw [exact, same]
  constructor
  · rintro ⟨fit, rfl⟩
    exact ⟨fit, by rw [written value fit]⟩
  · rintro ⟨fit, rfl⟩
    exact ⟨fit, by rw [written value fit]⟩

theorem exact_pure (value : α) : Exact (pure value) (fun _ => []) (· = value) := by
  intro bytes other rest
  have read : (pure value : Reader α) bytes = some (value, bytes) := rfl
  simp only [read, Option.some.injEq, Prod.mk.injEq, List.nil_append, eq_comm]

theorem exact_failure : Exact failure write fun _ => False := by
  intro bytes value rest
  have read : (failure : Reader α) bytes = none := rfl
  simp [read]

theorem Exact.wrap (exact : Exact read write fits) (later : β → List UInt8) (wrap : α → β)
    (written : ∀ value, later (wrap value) = write value) :
    Exact (read >>= fun value => pure (wrap value)) later fun result => ∃ value, wrap value = result ∧ fits value := by
  intro bytes result rest
  simp only [bind_eq_some_iff, exact_pure _ _ _ _]
  constructor
  · rintro ⟨value, middle, begun, rfl, rfl⟩
    obtain ⟨fit, rfl⟩ := (exact _ _ _).1 begun
    exact ⟨⟨value, rfl, fit⟩, by rw [written]⟩
  · rintro ⟨⟨value, rfl, fit⟩, rfl⟩
    exact ⟨value, rest, (exact _ _ _).2 ⟨fit, by rw [written]⟩, rfl, rfl⟩

/-- Of two readers in a row the first reads what `part` gives of the whole. -/
theorem Exact.bind {first : Reader α} {next : α → Reader β} (exact : Exact first write fits) (part : β → α)
    (later : β → List UInt8) (whole : β → Prop)
    (follows : ∀ value, Exact (next value) later fun result => part result = value ∧ whole result) :
    Exact (first >>= next) (fun result => write (part result) ++ later result)
      fun result => fits (part result) ∧ whole result := by
  intro bytes result rest
  rw [bind_eq_some_iff]
  constructor
  · rintro ⟨value, middle, begun, ended⟩
    obtain ⟨fit, rfl⟩ := (exact _ _ _).1 begun
    obtain ⟨⟨rfl, all⟩, rfl⟩ := (follows _ _ _ _).1 ended
    exact ⟨⟨fit, all⟩, by rw [List.append_assoc]⟩
  · rintro ⟨⟨fit, all⟩, rfl⟩
    refine ⟨part result, later result ++ rest, (exact _ _ _).2 ⟨fit, by rw [List.append_assoc]⟩, ?_⟩
    exact (follows _ _ _ _).2 ⟨⟨rfl, all⟩, rfl⟩

end Steps

section Primitives

theorem exact_readByte : Exact readByte (fun byte => [byte]) fun _ => True := by
  intro bytes byte rest
  cases bytes with
  | nil => simp [readByte]
  | cons first others => simp [readByte]

theorem exact_readMany {read : Reader α} {write : α → List UInt8} {fits : α → Prop} (exact : Exact read write fits)
    (count : Nat) : Exact (readMany read count) (·.flatMap write)
      fun values => values.length = count ∧ ∀ value ∈ values, fits value := by
  induction count with
  | zero =>
    refine (exact_pure []).congr (fun values => ?_) fun values none => by rw [none]; rfl
    simp +contextual [List.length_eq_zero_iff]
  | succ count ih =>
    intro bytes values rest
    simp only [readMany, bind_eq_some_iff, exact_pure _ _ _ _]
    constructor
    · rintro ⟨value, middle, begun, others, last, ended, rfl, rfl⟩
      obtain ⟨fit, rfl⟩ := (exact _ _ _).1 begun
      obtain ⟨⟨rfl, fitToo⟩, rfl⟩ := (ih _ _ _).1 ended
      refine ⟨⟨rfl, List.forall_mem_cons.2 ⟨fit, fitToo⟩⟩, ?_⟩
      rw [List.flatMap_cons, List.append_assoc]
    · rintro ⟨⟨length, fit⟩, rfl⟩
      cases values with
      | nil => cases length
      | cons value others =>
        rw [List.forall_mem_cons] at fit
        rw [List.flatMap_cons, List.append_assoc]
        exact ⟨value, _, (exact _ _ _).2 ⟨fit.1, rfl⟩, others, _, (ih _ _ _).2 ⟨⟨Nat.succ.inj length, fit.2⟩, rfl⟩,
          rfl, rfl⟩

theorem readBytes_eq_readMany (count : Nat) : readBytes count = readMany readByte count := by
  induction count with
  | zero => rfl
  | succ count ih => rw [readBytes, readMany, ih]

theorem exact_readBytes (count : Nat) : Exact (readBytes count) id fun bytes => bytes.length = count := by
  rw [readBytes_eq_readMany]
  refine (exact_readMany exact_readByte count).congr (fun bytes => by simp) fun bytes _ => ?_
  rw [List.flatMap_singleton', id]

theorem exact_readNat (count : Nat) : Exact (readNat count) (littleEndian count) (· < 256 ^ count) := by
  intro bytes value rest
  have steps : readNat count bytes = some (value, rest) ↔
      ∃ front, readBytes count bytes = some (front, rest) ∧ ofLittleEndian front = value := by
    simp [readNat, Functor.map, StateT.map, Option.bind_eq_some_iff]
  rw [steps]
  simp only [exact_readBytes count _ _ _, ofLittleEndian_eq_iff]
  constructor
  · rintro ⟨front, ⟨rfl, rfl⟩, bound, digits⟩
    exact ⟨bound, by rw [← digits]; rfl⟩
  · rintro ⟨bound, rfl⟩
    have length := length_littleEndian count value
    exact ⟨_, ⟨length, rfl⟩, by rwa [length], by rw [length]⟩

theorem exact_elim (result : Option α) :
    Exact (result.elim failure pure) (fun _ => []) fun value => result = some value := by
  cases result with
  | none => exact exact_failure.congr (by simp) fun _ _ => rfl
  | some value => exact (exact_pure value).congr (fun other => by simp [eq_comm]) fun _ _ => rfl

end Primitives

theorem exact_length : Exact (readNat 8) (littleEndian 8) (· < 2 ^ 64) :=
  (exact_readNat 8).congr (fun value => by norm_num) fun _ _ => rfl

section Parts

variable {read : Reader α} {write : α → List UInt8} {fits : α → Prop}

theorem exact_readList (exact : Exact read write fits) :
    Exact (readList read) (writeList write) fun values => values.length < 2 ^ 64 ∧ ∀ value ∈ values, fits value :=
  exact_length.bind List.length _ _ fun count => exact_readMany exact count

theorem exact_readOption (exact : Exact read write fits) :
    Exact (readOption read) (writeOption write) fun value => ∀ given ∈ value, fits given := by
  let tag (value : Option α) : UInt8 := if value.isSome then 1 else 0
  let content (value : Option α) : List UInt8 := value.elim [] write
  refine (exact_readByte.bind tag content (∀ given ∈ ·, fits given) fun byte => ?_).congr (by simp) fun value _ => ?_
  · split
    · exact (exact_pure none).congr (fun value => by cases value <;> simp [tag]) fun value none => by rw [none]; rfl
    · refine (exact.wrap content some fun _ => rfl).congr (fun value => ?_) fun _ _ => rfl
      cases value <;> simp [tag]
    · rename_i notZero notOne
      refine exact_failure.congr (fun value => iff_of_false ?_ id) fun _ _ => rfl
      rintro ⟨rfl, -⟩
      cases value with
      | none => exact notZero rfl
      | some value => exact notOne rfl
  · cases value <;> rfl

end Parts

section Texts

theorem exact_readText : Exact readText writeText Text.Addressable := by
  have decoded (bytes : List UInt8) : Exact ((Utf8.decode? bytes).elim failure pure) (fun _ => [])
      fun text => Utf8.encode text = bytes ∧ True :=
    (exact_elim _).congr (fun text => by rw [and_true, Utf8.decode?_eq_some_iff, eq_comm]) fun _ _ => rfl
  have counted := exact_length.bind (fun text => (Utf8.encode text).length) _ _
    fun count => (exact_readBytes count).bind Utf8.encode _ _ decoded
  refine counted.congr (fun text => by simp [Text.Addressable]) fun text _ => ?_
  rw [writeText, List.append_nil]
  rfl

theorem exact_readChar : Exact readChar Utf8.encodeChar fun _ => True := by
  intro bytes c rest
  simp only [readChar, bind_eq_some_iff, exact_readByte _ _ _, exact_elim _ _ _ _, exact_readBytes _ _ _ _,
    Utf8.decodeChar?_eq_some_iff]
  obtain ⟨first, others, spelled, width⟩ := Utf8.width?_encodeChar c
  constructor
  · rintro ⟨byte, _, ⟨-, rfl⟩, count, _, ⟨-, rfl⟩, tail, _, ⟨length, rfl⟩, same, rfl⟩
    exact ⟨trivial, by rw [← same]; rfl⟩
  · rintro ⟨-, rfl⟩
    refine ⟨first, others ++ rest, ⟨trivial, by rw [spelled]; rfl⟩, others.length + 1, _, ⟨width, rfl⟩, others, rest,
      ⟨rfl, rfl⟩, spelled.symm, rfl⟩

end Texts

section Forms

def letterTag : Letter → Nat
  | .char _ => 0
  | .escape => 1
  | .endOfString => 2

def letterContent : Letter → List UInt8
  | .char c => Utf8.encodeChar c
  | .escape => []
  | .endOfString => []

theorem exact_letter : Exact (Form.read : Reader Letter) Form.write fun _ => True := by
  refine ((exact_readNat 4).bind letterTag letterContent (fun _ => True) fun tag => ?_).congr (fun letter => ?_)
    fun letter _ => ?_
  · split
    · refine (exact_readChar.wrap letterContent .char fun _ => rfl).congr (fun letter => ?_) fun _ _ => rfl
      cases letter <;> simp [letterTag]
    · refine (exact_pure Letter.escape).congr (fun letter => ?_) fun letter same => by rw [same]; rfl
      cases letter <;> simp [letterTag]
    · refine (exact_pure Letter.endOfString).congr (fun letter => ?_) fun letter same => by rw [same]; rfl
      cases letter <;> simp [letterTag]
    · rename_i notChar notEscape notEnd
      refine exact_failure.congr (fun letter => iff_of_false ?_ id) fun _ _ => rfl
      rintro ⟨rfl, -⟩
      cases letter with
      | char c => exact notChar rfl
      | escape => exact notEscape rfl
      | endOfString => exact notEnd rfl
  · cases letter <;> simp [letterTag]
  · cases letter <;> simp [letterTag, letterContent, Form.write]

def phraseTag : Phrase → Nat
  | .text _ => 0
  | .escape => 1

def phraseContent : Phrase → List UInt8
  | .text s => writeText s
  | .escape => []

theorem exact_phrase : Exact (Form.read : Reader Phrase) Form.write Phrase.Addressable := by
  refine ((exact_readNat 4).bind phraseTag phraseContent Phrase.Addressable fun tag => ?_).congr (fun phrase => ?_)
    fun phrase _ => ?_
  · split
    · refine (exact_readText.wrap phraseContent .text fun _ => rfl).congr (fun phrase => ?_) fun _ _ => rfl
      cases phrase <;> simp [phraseTag, Phrase.Addressable]
    · refine (exact_pure Phrase.escape).congr (fun phrase => ?_) fun phrase same => by rw [same]; rfl
      cases phrase <;> simp [phraseTag, Phrase.Addressable]
    · rename_i notText notEscape
      refine exact_failure.congr (fun phrase => iff_of_false ?_ id) fun _ _ => rfl
      rintro ⟨rfl, -⟩
      cases phrase with
      | text s => exact notText rfl
      | escape => exact notEscape rfl
  · cases phrase <;> simp [phraseTag]
  · cases phrase <;> simp [phraseTag, phraseContent, Form.write]

variable [Form α] {fits : α → Prop}

theorem exact_entry (exact : Exact (Form.read : Reader α) Form.write fits) :
    Exact (readEntry : Reader (α × UInt8)) writeEntry fun entry => fits entry.1 := by
  have follows (symbol : α) : Exact (do return (symbol, ← readByte)) (fun entry : α × UInt8 => [entry.2])
      fun entry => entry.1 = symbol ∧ True :=
    (exact_readByte.wrap (fun entry => [entry.2]) (fun length => (symbol, length)) fun _ => rfl).congr
      (fun entry => by simp [Prod.ext_iff, eq_comm]) fun _ _ => rfl
  exact (exact.bind Prod.fst _ _ follows).congr (fun entry => by simp) fun _ _ => rfl

theorem exact_table (exact : Exact (Form.read : Reader α) Form.write fits) :
    Exact (Form.read : Reader (StoredTable α)) Form.write (StoredTable.Addressable fits) := by
  let escape (stored : StoredTable α) : List UInt8 := writeOption Form.write stored.escape
  have follows (entries : List (α × UInt8)) : Exact (do return { entries, escape := ← readOption Form.read }) escape
      fun stored => stored.entries = entries ∧ ∀ symbol ∈ stored.escape, fits symbol := by
    refine ((exact_readOption exact).wrap escape (StoredTable.mk entries) fun _ => rfl).congr (fun stored => ?_)
      fun _ _ => rfl
    constructor
    · rintro ⟨rfl, fit⟩
      exact ⟨_, rfl, fit⟩
    · rintro ⟨escape, rfl, fit⟩
      exact ⟨rfl, fit⟩
  refine ((exact_readList (exact_entry exact)).bind StoredTable.entries _ _ follows).congr (fun stored => ?_)
    fun _ _ => rfl
  exact ⟨fun ⟨length, entries, escape⟩ => ⟨⟨length, entries⟩, escape⟩,
    fun ⟨⟨length, entries⟩, escape⟩ => ⟨length, entries, escape⟩⟩

theorem exact_codebook : Exact (Form.read : Reader Codebook) Form.write Codebook.Addressable := by
  let texts (book : Codebook) : List UInt8 := Form.write book.texts
  have follows (characters : StoredTable Letter) : Exact (do return { characters, texts := ← Form.read }) texts
      fun book => book.characters = characters ∧ book.texts.Addressable Phrase.Addressable := by
    refine ((exact_table exact_phrase).wrap texts (Codebook.mk characters) fun _ => rfl).congr (fun book => ?_)
      fun _ _ => rfl
    constructor
    · rintro ⟨rfl, fit⟩
      exact ⟨_, rfl, fit⟩
    · rintro ⟨texts, rfl, fit⟩
      exact ⟨rfl, fit⟩
  refine ((exact_table exact_letter).bind Codebook.characters _ _ follows).congr (fun book => ?_) fun _ _ => rfl
  exact ⟨fun ⟨characters, texts⟩ => ⟨characters, texts⟩, fun ⟨characters, texts⟩ => ⟨characters, texts⟩⟩

end Forms

section Decoding

variable [Form α] {fits : α → Prop}

theorem Exact.decode_eq_ok_iff (exact : Exact (Form.read : Reader α) Form.write fits) {bytes : List UInt8} {value : α} :
    decode bytes = .ok value ↔ fits value ∧ Form.write value <+: bytes := by
  have step : decode bytes = .ok value ↔ ∃ rest, (Form.read : Reader α) bytes = some (value, rest) := by
    unfold decode
    split
    · rename_i other rest read
      simp [read, eq_comm]
    · rename_i none
      simp [none]
  rw [step]
  constructor
  · rintro ⟨rest, read⟩
    obtain ⟨fit, rfl⟩ := (exact _ _ _).1 read
    exact ⟨fit, List.prefix_append ..⟩
  · rintro ⟨fit, rest, rfl⟩
    exact ⟨rest, (exact _ _ _).2 ⟨fit, rfl⟩⟩

theorem decode_eq_error_or {α : Type} [Form α] (bytes : List UInt8) :
    (∃ value : α, decode bytes = .ok value) ∨ (decode bytes : Except Failure α) = .error .malformedBinary := by
  unfold decode
  split
  · exact .inl ⟨_, rfl⟩
  · exact .inr rfl

theorem Exact.decode_eq_error (exact : Exact (Form.read : Reader α) Form.write fits) {value : α} (fit : fits value)
    {bytes : List UInt8} (front : bytes <+: Form.write value) (cut : bytes ≠ Form.write value) :
    (decode bytes : Except Failure α) = .error .malformedBinary := by
  refine (decode_eq_error_or bytes).resolve_left ?_
  rintro ⟨other, decoded⟩
  obtain ⟨fitToo, begins⟩ := exact.decode_eq_ok_iff.1 decoded
  have again := exact.decode_eq_ok_iff.2 ⟨fitToo, begins.trans front⟩
  have itself := exact.decode_eq_ok_iff.2 ⟨fit, List.prefix_refl _⟩
  obtain rfl : other = value := Except.ok.inj (again.symm.trans itself)
  exact cut (front.eq_of_length_le begins.length_le)

end Decoding

section Sizes

def Sized [Form α] (fits : α → Prop) : Prop :=
  ∀ value, (Form.write value).length < 2 ^ 64 → fits value

theorem sized_text : Sized Text.Addressable := by
  intro text short
  have size : (Form.write text).length = 8 + (Utf8.encode text).length := by
    rw [← length_littleEndian 8 (Utf8.encode text).length, ← List.length_append]
    rfl
  rw [Text.Addressable]
  omega

theorem sized_phrase : Sized Phrase.Addressable := by
  intro phrase short
  cases phrase with
  | escape => trivial
  | text s =>
    have size : (Form.write (Phrase.text s)).length = 4 + (Form.write s).length := by
      rw [← length_littleEndian 4 0, ← List.length_append]
      rfl
    exact sized_text s (by omega)

theorem sized_table [Form α] {fits : α → Prop} (sized : Sized fits) : Sized (StoredTable.Addressable fits) := by
  intro stored short
  have size : (Form.write stored).length = 8 + (stored.entries.flatMap writeEntry).length +
      (writeOption Form.write stored.escape).length := by
    rw [← length_littleEndian 8 stored.entries.length, ← List.length_append, ← List.length_append]
    rfl
  rw [List.length_flatMap] at size
  have lengths : ∀ entry : α × UInt8, (writeEntry entry).length = (Form.write entry.1).length + 1 := fun entry =>
    List.length_append
  refine ⟨?_, fun entry member => sized _ ?_, fun symbol given => sized _ ?_⟩
  · have least := List.length_le_sum_of_one_le (stored.entries.map fun entry => (writeEntry entry).length) <| by
      rw [List.forall_mem_map]
      intro entry _
      rw [lengths]
      omega
    rw [List.length_map] at least
    omega
  · have part := List.single_le_sum (fun _ _ => Nat.zero_le _) _
      (List.mem_map_of_mem (f := fun entry => (writeEntry entry).length) member)
    rw [lengths] at part
    omega
  · rw [Option.mem_def.1 given, writeOption, List.length_cons] at size
    omega

theorem sized_codebook : Sized Codebook.Addressable := by
  intro book short
  have size : (Form.write book).length = (Form.write book.characters).length + (Form.write book.texts).length :=
    List.length_append
  exact ⟨sized_table (fun _ _ => trivial) _ (by omega), sized_table sized_phrase _ (by omega)⟩

end Sizes

/-- A binary form without a second reading. Values that are addressable, as all are of which the form has fewer than
`2 ^ 64` bytes, are decoded from it whatever follows; where it was cut off it is refused; and whatever bytes are decoded
begin with the form of the value. -/
structure Faithful (write : α → List UInt8) (decode : List UInt8 → Except Failure α) (fits : α → Prop) : Prop where
  fits_of_length : ∀ value, (write value).length < 2 ^ 64 → fits value
  decode_append : ∀ value, fits value → ∀ rest, decode (write value ++ rest) = .ok value
  decode_cut : ∀ value, fits value → ∀ bytes, bytes <+: write value → bytes ≠ write value →
    decode bytes = .error .malformedBinary
  prefix_of_decode : ∀ bytes value, decode bytes = .ok value → fits value ∧ write value <+: bytes

theorem Exact.faithful [Form α] {fits : α → Prop} (exact : Exact (Form.read : Reader α) Form.write fits)
    (sized : Sized fits) : Faithful (Form.write : α → List UInt8) decode fits where
  fits_of_length := sized
  decode_append _ fit _ := exact.decode_eq_ok_iff.2 ⟨fit, List.prefix_append ..⟩
  decode_cut _ fit _ front cut := exact.decode_eq_error fit front cut
  prefix_of_decode _ _ decoded := exact.decode_eq_ok_iff.1 decoded

/-- The binary form of codebooks is faithful, whatever their tables hold, and so is that of a table of texts. -/
theorem faithful_codebook :
    Faithful Codebook.toBytes Codebook.ofBytes Codebook.Addressable ∧
      Faithful (Form.write : StoredTable String → List UInt8) decode (StoredTable.Addressable Text.Addressable) :=
  ⟨exact_codebook.faithful sized_codebook, (exact_table exact_readText).faithful (sized_table sized_text)⟩

end Binary

end HuffmanStrings
