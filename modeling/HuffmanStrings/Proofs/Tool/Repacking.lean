import Mathlib
import HuffmanStrings.Proofs.Tool.Packing

/-!
Packing what was unpacked. The lines of an unpacked file are those that were packed, but for a carriage return at the end
of a line: behind it the newline now makes it a part of the line's end. Lines without such a return are packed into the
same bytes again.
-/

namespace HuffmanStrings

theorem TextCoder.textsBits_injective (coder : TextCoder) : Function.Injective coder.textsBits := by
  intro texts others same
  have readBack (items : List String) (held : (BitStore.empty.putAll (coder.textsBits texts)).toBits =
      coder.textsBits items) : Tool.unpack ⟨coder⟩ (BitStore.empty.putAll (coder.textsBits texts)) none = .ok items :=
    Tool.unpack_eq_ok held none
  have held := BitStore.toBits_putAll_empty (coder.textsBits texts)
  have first := readBack texts held
  have second := readBack others (held.trans same)
  exact Except.ok.inj (first.symm.trans second)

theorem Text.map_withoutReturn {lines : List String} :
    lines.map withoutReturn = lines ↔ ∀ line ∈ lines, line.toList.getLast? ≠ some '\r' := by
  conv_lhs => rw [← List.map_id lines, List.map_map]
  rw [List.map_inj_left]
  exact forall₂_congr fun line _ => withoutReturn_eq_self

namespace Tool

section Directories

variable {d : Directory} {codebook input packed output repacked : String} {bytes content : List UInt8}
  {book : Codebook} {coder : ListCoder} {text : String} (found : d.find? codebook = some bytes)
  (loads : Codebook.ofBytes bytes = .ok book) (rebuilds : book.toCoder = .ok coder)
  (given : d.find? input = some content) (spells : Utf8.decode? content = some text)
  (fits : coder.listLength (Text.lines text) < 2 ^ 64) (writable : '/' ∉ packed.toList)
  (writableThen : '/' ∉ output.toList) (writableLast : '/' ∉ repacked.toList) (kept : codebook ≠ packed)
  (keptThen : codebook ≠ output)
include found loads rebuilds given spells fits writable writableThen writableLast kept keptThen

theorem exists_repacked :
    let lines := Text.lines text
    ∃ (frame frame' : List UInt8) (d₁ d₂ d₃ : Directory) (summary summary' : PackingSummary),
      outcome (run (.encode codebook input packed)) d = (.ok (.summary summary), d₁) ∧ d.Updated packed frame d₁ ∧
      outcome (run (.decode codebook packed output none)) d₁ = (.ok (.text ""), d₂) ∧
      d₁.Updated output (Utf8.encode (Text.unlines lines)) d₂ ∧
      outcome (readLines output) d₂ = (.ok (lines.map Text.withoutReturn), d₂) ∧
      outcome (run (.encode codebook output repacked)) d₂ = (.ok (.summary summary'), d₃) ∧
      d₂.Updated repacked frame' d₃ ∧ (frame' = frame ↔ lines.map Text.withoutReturn = lines) := by
  intro lines
  obtain ⟨store, d₁, summary, encoded, updated, valid, held, size⟩ :=
    exists_encoded found loads rebuilds given spells writable
  have foundThen : d₁.find? codebook = some bytes := (updated.find?_of_ne kept).trans found
  have all : ∀ most ∈ (none : Option Nat), most ≤ lines.length := by simp
  obtain ⟨d₂, decoded, updatedThen⟩ := exists_decoded foundThen loads rebuilds updated.find?_self valid
    (size.trans_lt fits) held all writableThen
  have foundLast : d₂.find? codebook = some bytes := (updatedThen.find?_of_ne keptThen).trans foundThen
  have spellsLast : Utf8.decode? (Utf8.encode (Text.unlines lines)) = some (Text.unlines lines) :=
    Utf8.decode?_encode (Text.unlines lines)
  have linesLast : Text.lines (Text.unlines lines) = lines.map Text.withoutReturn :=
    Text.lines_unlines (Text.not_mem_lines text)
  have read := outcome_readLines (Directory.readIn_eq updatedThen.find?_self) spellsLast
  obtain ⟨store', d₃, summary', encodedLast, updatedLast, valid', held', -⟩ :=
    exists_encoded foundLast loads rebuilds updatedThen.find?_self spellsLast writableLast
  rw [linesLast] at read held'
  refine ⟨store.frame, store'.frame, d₁, d₂, d₃, summary, summary', encoded, updated, decoded, updatedThen, read,
    encodedLast, updatedLast, ?_⟩
  calc
    store'.frame = store.frame
      ↔ store'.toBits = store.toBits := valid'.frame_eq_iff valid
    _ ↔ lines.map Text.withoutReturn = lines := by rw [held', held, coder.texts.textsBits_injective.eq_iff]

/-- A text is packed, unpacked and packed again. The lines of the unpacked file are those of the text, except that a
carriage return at the end of a line is gone; so if no line ends with one, and only then, the lines are the same, and so
are the packed files. The number of bits is taken to fit into the eight bytes for it, and the codebook not to be
overwritten. -/
theorem repack :
    let lines := Text.lines text
    let plain := ∀ line ∈ lines, line.toList.getLast? ≠ some '\r'
    ∃ (frame frame' : List UInt8) (d₁ d₂ d₃ : Directory) (summary summary' : PackingSummary),
      outcome (run (.encode codebook input packed)) d = (.ok (.summary summary), d₁) ∧ d.Updated packed frame d₁ ∧
      outcome (run (.decode codebook packed output none)) d₁ = (.ok (.text ""), d₂) ∧
      outcome (readLines output) d₂ = (.ok (lines.map Text.withoutReturn), d₂) ∧
      outcome (run (.encode codebook output repacked)) d₂ = (.ok (.summary summary'), d₃) ∧
      d₂.Updated repacked frame' d₃ ∧ (lines.map Text.withoutReturn = lines ↔ plain) ∧ (frame' = frame ↔ plain) := by
  intro lines plain
  obtain ⟨frame, frame', d₁, d₂, d₃, summary, summary', encoded, updated, decoded, -, read, encodedLast, updatedLast,
    same⟩ := exists_repacked found loads rebuilds given spells fits writable writableThen writableLast kept keptThen
  exact ⟨frame, frame', d₁, d₂, d₃, summary, summary', encoded, updated, decoded, read, encodedLast, updatedLast,
    Text.map_withoutReturn, same.trans Text.map_withoutReturn⟩

end Directories

/-- A text of two lines, of which the last has no newline, is packed into the same bytes again. -/
theorem repack_letters :
    ∃ (frame : List UInt8) (d₁ d₂ d₃ : Directory) (summary summary' : PackingSummary),
      outcome (run (.encode "book" "lines" "packed")) ⟨[("book", barest.toBytes), ("lines", [97, 10, 98])]⟩ =
        (.ok (.summary summary), d₁) ∧
      outcome (run (.decode "book" "packed" "unpacked" none)) d₁ = (.ok (.text ""), d₂) ∧
      outcome (run (.encode "book" "unpacked" "repacked")) d₂ = (.ok (.summary summary'), d₃) ∧
      d₁.find? "packed" = some frame ∧ d₃.find? "repacked" = some frame := by
  have found : Directory.find? ⟨[("book", barest.toBytes), ("lines", [97, 10, 98])]⟩ "book" = some barest.toBytes := rfl
  have given : Directory.find? ⟨[("book", barest.toBytes), ("lines", [97, 10, 98])]⟩ "lines" = some [97, 10, 98] := rfl
  have spells : Utf8.decode? [97, 10, 98] = some "a\nb" := Utf8.decode?_encode "a\nb"
  obtain ⟨frame, frame', d₁, d₂, d₃, summary, summary', encoded, updated, decoded, -, encodedLast, updatedLast, -, same⟩ :=
    repack found ofBytes_barest rfl given spells (by decide) (by decide : '/' ∉ "packed".toList)
      (by decide : '/' ∉ "unpacked".toList) (by decide : '/' ∉ "repacked".toList) (by decide) (by decide)
  have plain : ∀ line ∈ Text.lines "a\nb", line.toList.getLast? ≠ some '\r' := by decide
  have again : frame' = frame := same.2 plain
  exact ⟨frame, d₁, d₂, d₃, summary, summary', encoded, decoded, encodedLast, updated.find?_self,
    again ▸ updatedLast.find?_self⟩

/-- A carriage return that ends a text ends its line, and is lost. -/
theorem repack_return :
    ∃ (d d₁ d₂ d₃ : Directory) (summary summary' : PackingSummary),
      d = ⟨[("book", barest.toBytes), ("lines", [13])]⟩ ∧
      outcome (run (.encode "book" "lines" "packed")) d = (.ok (.summary summary), d₁) ∧
      outcome (run (.decode "book" "packed" "unpacked" none)) d₁ = (.ok (.text ""), d₂) ∧
      outcome (run (.encode "book" "unpacked" "repacked")) d₂ = (.ok (.summary summary'), d₃) ∧
      outcome (readLines "lines") d = (.ok ["\r"], d) ∧
      outcome (readLines "unpacked") d₂ = (.ok [""], d₂) ∧ d₁.find? "packed" ≠ d₃.find? "repacked" := by
  have found : Directory.find? ⟨[("book", barest.toBytes), ("lines", [13])]⟩ "book" = some barest.toBytes := rfl
  have given : Directory.find? ⟨[("book", barest.toBytes), ("lines", [13])]⟩ "lines" = some [13] := rfl
  have spells : Utf8.decode? [13] = some "\r" := Utf8.decode?_encode "\r"
  obtain ⟨frame, frame', d₁, d₂, d₃, summary, summary', encoded, updated, decoded, -, read, encodedLast, updatedLast,
    same⟩ := exists_repacked found ofBytes_barest rfl given spells (by decide) (by decide : '/' ∉ "packed".toList)
      (by decide : '/' ∉ "unpacked".toList) (by decide : '/' ∉ "repacked".toList) (by decide) (by decide)
  have differ : d₁.find? "packed" ≠ d₃.find? "repacked" := by
    intro equal
    rw [updated.find?_self, updatedLast.find?_self, Option.some.injEq, eq_comm, same] at equal
    exact absurd equal (by decide)
  exact ⟨_, d₁, d₂, d₃, summary, summary', rfl, encoded, decoded, encodedLast,
    outcome_readLines (Directory.readIn_eq given) spells, read, differ⟩

end Tool

end HuffmanStrings
