import Mathlib
import HuffmanStrings.Proofs.Bits.Frame
import HuffmanStrings.Proofs.Coder.Truncation
import HuffmanStrings.Proofs.Text.Format
import HuffmanStrings.Proofs.Tool.Work

/-!
Packing the lines of a text and unpacking them again. Whatever the codebook and the text, packing succeeds, and from
what it has written the tools unpack all lines, or the first few; they refuse to unpack more lines than there are.
-/

namespace HuffmanStrings

theorem ListCoder.sum_textLength (coder : ListCoder) (items : List String) :
    (items.map coder.texts.textLength).sum = coder.listLength items :=
  coder.texts.sum_textLength items

namespace Tool

section Coding

variable (coder : ListCoder) (lines : List String)

theorem exists_pack : ∃ store statistics, pack coder lines = .ok (store, statistics) ∧ store.Valid ∧
    store.toBits = coder.texts.textsBits lines ∧ store.size = coder.listLength lines := by
  obtain ⟨store, written, valid, held, size⟩ := coder.exists_encodeList (ω := Statistics) lines
  exact ⟨store, _, by rw [pack, written], valid, held, size⟩

variable {coder lines}

theorem unpack_eq_ok {store : BitStore} (held : store.toBits = coder.texts.textsBits lines) (count : Option Nat) :
    unpack coder store count = .ok (count.elim lines lines.take) := by
  by_cases none : count = some 0
  · rw [none]
    rfl
  · rw [unpack, coder.collect_eq_ok held none]

end Coding

section Running

variable {σ : Type} [FileSystem (StateM σ)] {codebook input output : String} {coder : ListCoder} {lines : List String}
  {store : BitStore} {s s₁ s₂ s₃ : σ}

theorem outcome_encode {statistics : Statistics} (loaded : outcome (loadCoder codebook) s = (.ok coder, s₁))
    (read : outcome (readLines input) s₁ = (.ok lines, s₂)) (packed : pack coder lines = .ok (store, statistics))
    (written : writeIn output store.frame s₂ = (.ok (), s₃)) :
    ∃ summary, outcome (encode codebook input output) s = (.ok (.summary summary), s₃) := by
  rw [encode, outcome_bind_of_ok loaded, outcome_bind_of_ok read, outcome_step_bind packed,
    outcome_bind_of_ok (outcome_writeBytes_eq_ok.2 written)]
  exact ⟨_, rfl⟩

variable {content : List UInt8} (loaded : outcome (loadCoder codebook) s = (.ok coder, s₁))
  (read : readIn input s₁ = (.ok content, s₂)) (framed : BitStore.ofFrame? content = .ok store)
  (held : store.toBits = coder.texts.textsBits lines)
include loaded read framed held

theorem outcome_decode {count : Option Nat} (enough : ∀ most ∈ count, most ≤ lines.length)
    (written : writeIn output (Utf8.encode (Text.unlines (count.elim lines lines.take))) s₂ = (.ok (), s₃)) :
    outcome (decode codebook input output count) s = (.ok (.text ""), s₃) := by
  have wrote : outcome (writeText "writing output" output _) s₂ = (.ok (), s₃) := outcome_writeBytes_eq_ok.2 written
  rw [decode, outcome_bind_of_ok loaded, outcome_bind_of_ok (outcome_readBytes_eq_ok.2 read),
    outcome_step_bind framed, outcome_step_bind (unpack_eq_ok held count)]
  cases count with
  | none => exact (outcome_bind_of_ok wrote).trans rfl
  | some most =>
    have all : ¬((some most).elim lines lines.take).length < most := by
      rw [Option.elim_some, List.length_take, Nat.min_eq_left (enough most rfl)]
      exact Nat.lt_irrefl most
    dsimp only
    rw [if_neg all]
    exact (outcome_bind_of_ok wrote).trans rfl

theorem outcome_decode_tooFew {count : Nat} (few : lines.length < count) (output : String) :
    outcome (decode codebook input output (some count)) s = (.error (.tooFew lines.length count), s₂) := by
  have all : (some count).elim lines lines.take = lines := List.take_of_length_le few.le
  have unpacked := unpack_eq_ok held (some count)
  rw [all] at unpacked
  rw [decode, outcome_bind_of_ok loaded, outcome_bind_of_ok (outcome_readBytes_eq_ok.2 read),
    outcome_step_bind framed, outcome_step_bind unpacked]
  dsimp only
  rw [if_pos few]
  rfl

end Running

section Directories

variable {d : Directory} {codebook input packed : String} {bytes content : List UInt8} {book : Codebook}
  {coder : ListCoder} {text : String}

theorem exists_encoded (found : d.find? codebook = some bytes) (loads : Codebook.ofBytes bytes = .ok book)
    (rebuilds : book.toCoder = .ok coder) (given : d.find? input = some content)
    (spells : Utf8.decode? content = some text) (writable : '/' ∉ packed.toList) :
    ∃ (store : BitStore) (d' : Directory) (summary : PackingSummary),
      outcome (run (.encode codebook input packed)) d = (.ok (.summary summary), d') ∧
      d.Updated packed store.frame d' ∧ store.Valid ∧
      store.toBits = coder.texts.textsBits (Text.lines text) ∧ store.size = coder.listLength (Text.lines text) := by
  have loaded := outcome_loadCoder_eq_ok.2 ⟨bytes, book, Directory.readIn_eq found, loads, rebuilds⟩
  have read := outcome_readLines (Directory.readIn_eq given) spells
  obtain ⟨store, statistics, packs, valid, held, size⟩ := exists_pack coder (Text.lines text)
  obtain ⟨d', written, updated⟩ := Directory.exists_writeIn writable store.frame d
  obtain ⟨summary, encoded⟩ := outcome_encode loaded read packs written
  exact ⟨store, d', summary, encoded, updated, valid, held, size⟩

theorem exists_decoded {store : BitStore} {lines : List String} {count : Option Nat} {output : String}
    (found : d.find? codebook = some bytes) (loads : Codebook.ofBytes bytes = .ok book)
    (rebuilds : book.toCoder = .ok coder) (given : d.find? packed = some store.frame) (valid : store.Valid)
    (fits : store.size < 2 ^ 64) (held : store.toBits = coder.texts.textsBits lines)
    (enough : ∀ most ∈ count, most ≤ lines.length) (writable : '/' ∉ output.toList) : ∃ d',
      outcome (run (.decode codebook packed output count)) d = (.ok (.text ""), d') ∧
      d.Updated output (Utf8.encode (Text.unlines (count.elim lines lines.take))) d' := by
  have loaded := outcome_loadCoder_eq_ok.2 ⟨bytes, book, Directory.readIn_eq found, loads, rebuilds⟩
  have framed := valid.ofFrame?_frame fits
  obtain ⟨d', wrote, updated⟩ := Directory.exists_writeIn writable
    (Utf8.encode (Text.unlines (count.elim lines lines.take))) d
  exact ⟨d', outcome_decode loaded (Directory.readIn_eq given) framed held enough wrote, updated⟩

/-- Whatever a directory holds besides, a text is packed with any codebook that loads, into as many bytes as hold the bits
of its lines, behind eight bytes for their number. Unless there are more bits than eight bytes can count, these say how
many there are; and wherever this file and the codebook are found together, all lines are unpacked, or the first ones,
each with a newline behind it, while nothing is written where more lines are asked for than there are. -/
theorem decode_packed (found : d.find? codebook = some bytes) (loads : Codebook.ofBytes bytes = .ok book)
    (rebuilds : book.toCoder = .ok coder) (given : d.find? input = some content)
    (spells : Utf8.decode? content = some text) (writable : '/' ∉ packed.toList) :
    let lines := Text.lines text
    let bits := (lines.map coder.texts.textLength).sum
    outcome (readLines input) d = (.ok lines, d) ∧
    ∃ (frame : List UInt8) (d' : Directory) (summary : PackingSummary),
      outcome (run (.encode codebook input packed)) d = (.ok (.summary summary), d') ∧
      d.Updated packed frame d' ∧ frame.length = 8 + (bits + 7) / 8 ∧
      (bits < 2 ^ 64 → ofBigEndian (frame.take 8) = bits ∧
        ∀ e : Directory, e.find? codebook = some bytes → e.find? packed = some frame → ∀ output : String,
          (∀ count, (∀ most ∈ count, most ≤ lines.length) → '/' ∉ output.toList → ∃ e',
            outcome (run (.decode codebook packed output count)) e = (.ok (.text ""), e') ∧
            e.Updated output (Utf8.encode (Text.unlines (count.elim lines lines.take))) e') ∧
          ∀ count, lines.length < count →
            outcome (run (.decode codebook packed output (some count))) e =
              (.error (.tooFew lines.length count), e)) := by
  intro lines bits
  obtain ⟨store, d', summary, encoded, updated, valid, held, size⟩ :=
    exists_encoded found loads rebuilds given spells writable
  rw [← ListCoder.sum_textLength] at size
  have length : store.frame.length = 8 + (bits + 7) / 8 := by
    rw [valid.length_frame, size]
    rfl
  refine ⟨outcome_readLines (Directory.readIn_eq given) spells, store.frame, d', summary, encoded, updated, length,
    fun fits => ?_⟩
  have small := size.trans_lt fits
  refine ⟨(BitStore.ofBigEndian_size small).trans size, fun e foundToo packedToo output => ⟨?_, ?_⟩⟩
  · intro count enough writableToo
    exact exists_decoded foundToo loads rebuilds packedToo valid small held enough writableToo
  · intro count few
    have loaded := outcome_loadCoder_eq_ok.2 ⟨bytes, book, Directory.readIn_eq foundToo, loads, rebuilds⟩
    exact outcome_decode_tooFew loaded (Directory.readIn_eq packedToo) (valid.ofFrame?_frame small) held few output

/-- A codebook with no words but those of the escapes and of the end of a text. -/
def barest : Codebook where
  characters := ⟨[(.endOfString, 1), (.escape, 1)], some .escape⟩
  texts := ⟨[(.escape, 1)], some .escape⟩

theorem ofBytes_barest : Codebook.ofBytes barest.toBytes = .ok barest :=
  rfl

/-- Where every letter is escaped, a line of one letter takes three bytes behind the eight. -/
theorem decode_packed_letter :
    ∃ (coder : ListCoder) (frame : List UInt8) (d' : Directory) (summary : PackingSummary),
      barest.toCoder = .ok coder ∧
      outcome (run (.encode "book" "lines" "packed")) ⟨[("book", barest.toBytes), ("lines", [97, 10])]⟩ =
        (.ok (.summary summary), d') ∧
      d'.find? "packed" = some frame ∧ frame.length = 11 ∧
      ∃ e', outcome (run (.decode "book" "packed" "unpacked" none)) d' = (.ok (.text ""), e') ∧
        e'.find? "unpacked" = some (Utf8.encode "a\n") := by
  have found : Directory.find? ⟨[("book", barest.toBytes), ("lines", [97, 10])]⟩ "book" = some barest.toBytes := rfl
  have given : Directory.find? ⟨[("book", barest.toBytes), ("lines", [97, 10])]⟩ "lines" = some [97, 10] := rfl
  have spells : Utf8.decode? [97, 10] = some "a\n" := Utf8.decode?_encode "a\n"
  obtain ⟨-, frame, d', summary, encoded, updated, length, unpacks⟩ :=
    decode_packed found ofBytes_barest rfl given spells (by decide : '/' ∉ "packed".toList)
  have kept : d'.find? "book" = some barest.toBytes := (updated.find?_of_ne (by decide)).trans found
  obtain ⟨e', decoded, updatedToo⟩ :=
    ((unpacks (by decide)).2 d' kept updated.find?_self "unpacked").1 none (by simp) (by decide)
  exact ⟨_, frame, d', summary, rfl, encoded, updated.find?_self, length, e', decoded, updatedToo.find?_self⟩

end Directories

end Tool

end HuffmanStrings
