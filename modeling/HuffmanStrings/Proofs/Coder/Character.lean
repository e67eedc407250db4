import Mathlib
import HuffmanStrings.Coder.Character
import HuffmanStrings.Proofs.Coder.Delivery

/-!
The bits of characters and texts. A text is written as the bits of its characters and of its end, and is read from
these bits wherever they stand.
-/

namespace HuffmanStrings.CharCoder

variable (coder : CharCoder)

def charBits (c : Char) : List Bool :=
  match coder.table.codeOf (.char c) with
  | some word => word.toBits
  | none => coder.escapeWord.toBits ++ Bits.ofNat literalWidth c.toNat

def textBits (text : String) : List Bool :=
  text.toList.flatMap coder.charBits ++ coder.endWord.toBits

def charCodes (c : Char) : List (Nat × Bool) :=
  match coder.table.codeOf (.char c) with
  | some word => [(word.length, false)]
  | none => [(coder.escapeWord.length + literalWidth, true)]

def textCodes (text : String) : List (Nat × Bool) :=
  text.toList.flatMap coder.charCodes ++ [(coder.endWord.length, false)]

theorem length_charBits (c : Char) : (coder.charBits c).length = coder.charLength c := by
  cases coded : coder.table.codeOf (.char c) with
  | some word => simp only [charBits, charLength, coded, CodeWord.length_toBits]
  | none =>
    simp only [charBits, charLength, coded, List.length_append, CodeWord.length_toBits, Bits.length_ofNat]

theorem length_flatMap_charBits (cs : List Char) : (cs.flatMap coder.charBits).length = coder.charsLength cs := by
  induction cs with
  | nil => rfl
  | cons c cs ih => rw [List.flatMap_cons, List.length_append, length_charBits, ih, charsLength]

theorem length_textBits (text : String) : (coder.textBits text).length = coder.textLength text := by
  rw [textBits, List.length_append, length_flatMap_charBits, CodeWord.length_toBits, textLength]

section Literals

theorem toNat_lt_literal (c : Char) : c.toNat < 2 ^ literalWidth := by
  have valid := c.valid
  simp only [UInt32.isValidChar, Nat.isValidChar] at valid
  simp only [Char.toNat, literalWidth]
  omega

theorem literal?_toNat (c : Char) : literal? (UInt64.ofNat c.toNat) = some c := by
  have small := toNat_lt_literal c
  have same : (UInt64.ofNat c.toNat).toNat = c.toNat :=
    UInt64.toNat_ofNat_of_lt' (small.trans (by decide))
  have valid : (UInt64.ofNat c.toNat).toNat.isValidChar := by
    rw [same]
    exact c.valid
  rw [literal?, dif_pos valid]
  refine congrArg some (Char.ext (UInt32.toNat_inj.1 ?_))
  exact same

end Literals

section Emitting

variable {σ ω : Type} [BitOutput σ] [Observer ω]
  {Emits : EStateM Failure (Session σ ω) Unit → List Bool → List CodeEvent → Prop} (emission : Session.Emission Emits)
include emission

theorem emits_encodeChar (c : Char) :
    Emits (coder.encodeChar c) (coder.charBits c) (encodings (coder.charCodes c)) := by
  cases coded : coder.table.codeOf (.char c) with
  | some word =>
    simp only [encodeChar, charBits, charCodes, coded]
    exact emission.noted (emission.word coded) _
  | none =>
    have number : c.val.toUInt64.toNat = c.toNat := UInt32.toNat_toUInt64 _
    simp only [encodeChar, charBits, charCodes, coded, ← number]
    exact emission.bind (emission.word coder.escapeWord_eq) (emission.noted (emission.field (by decide)) _)

theorem emits_encodeChars (cs : List Char) :
    Emits (coder.encodeChars cs) (cs.flatMap coder.charBits) (encodings (cs.flatMap coder.charCodes)) := by
  induction cs with
  | nil => exact emission.pure
  | cons c cs ih =>
    rw [List.flatMap_cons, List.flatMap_cons, encodings_append]
    exact emission.bind (coder.emits_encodeChar emission c) ih

theorem emits_encodeEnd :
    Emits coder.encodeEnd coder.endWord.toBits (encodings [(coder.endWord.length, false)]) :=
  emission.noted (emission.word coder.endWord_eq) _

theorem emits_encodeText (text : String) :
    Emits (coder.encodeText text) (coder.textBits text) (encodings (coder.textCodes text)) := by
  rw [textCodes, encodings_append]
  exact emission.bind (coder.emits_encodeChars emission text.toList) (coder.emits_encodeEnd emission)

end Emitting

section Writing

variable {ω : Type} [Observer ω]

theorem writes_encodeChar (c : Char) :
    Session.Writes (coder.encodeChar c : EStateM Failure (Session BitStore ω) Unit) (coder.charBits c)
      (encodings (coder.charCodes c)) :=
  coder.emits_encodeChar Session.emission_writes c

theorem writes_encodeEnd :
    Session.Writes (coder.encodeEnd : EStateM Failure (Session BitStore ω) Unit) coder.endWord.toBits
      (encodings [(coder.endWord.length, false)]) :=
  coder.emits_encodeEnd Session.emission_writes

theorem writes_encodeText (text : String) :
    Session.Writes (coder.encodeText text : EStateM Failure (Session BitStore ω) Unit) (coder.textBits text)
      (encodings (coder.textCodes text)) :=
  coder.emits_encodeText Session.emission_writes text

end Writing

section Reading

variable {ω : Type} [Observer ω]

theorem reads_decodeLiteral (word : CodeWord) (c : Char) :
    Session.Reads (decodeLiteral word : EStateM Failure (Session BitStore ω) Char) (Bits.ofNat literalWidth c.toNat) c
      (decodings [(word.length + literalWidth, true)]) := by
  apply (Session.reads_field (by decide) (toNat_lt_literal c)).noted
  rw [literal?_toNat]

theorem reads_decodeChar (c : Char) :
    Session.Reads (coder.decodeChar : EStateM Failure (Session BitStore ω) (Option Char)) (coder.charBits c) (some c)
      (decodings (coder.charCodes c)) := by
  cases coded : coder.table.codeOf (.char c) with
  | some word =>
    simp only [charBits, charCodes, coded]
    exact (Session.reads_word coded).noted rfl
  | none =>
    simp only [charBits, charCodes, coded]
    exact (Session.reads_word coder.escapeWord_eq).bind ((reads_decodeLiteral coder.escapeWord c).map some)

theorem reads_end :
    Session.Reads (coder.decodeChar : EStateM Failure (Session BitStore ω) (Option Char)) coder.endWord.toBits none
      (decodings [(coder.endWord.length, false)]) :=
  (Session.reads_word coder.endWord_eq).noted rfl

theorem takes_writer (index : Nat) (text : String) (cs : List Char) :
    writer.Takes index text cs (text ++ String.ofList cs) := by
  induction cs generalizing index text with
  | nil =>
    have none : writer.Takes index text [] text := .nil ..
    simpa using none
  | cons c cs ih =>
    refine .cons rfl ?_
    have later := ih (index + 1) (text.push c)
    have same : text.push c ++ String.ofList cs = text ++ String.ofList (c :: cs) := by
      apply String.toList_inj.1
      simp
    rwa [same] at later

theorem reads_decodeText (text : String) :
    Session.Reads (coder.decodeText : EStateM Failure (Session BitStore ω) String) (coder.textBits text) text
      (decodings (coder.textCodes text)) := by
  have takes := takes_writer 0 "" text.toList
  rw [String.empty_append, String.ofList_toList] at takes
  rw [textCodes, decodings_append, decodings_flatMap]
  exact Decoder.reads_run coder.reads_decodeChar coder.reads_end takes

end Reading

end HuffmanStrings.CharCoder
