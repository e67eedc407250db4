import Mathlib
import HuffmanStrings.Proofs.Coder.Text

/-!
Encoding what is produced. A producer yields a list of symbols, and feeding it to an encoder is encoding that list. So
all ways to write a list of texts write the same bits, as many as the lengths of its texts say.
-/

namespace HuffmanStrings

namespace Producer

variable {τ π α : Type}

/-- From the state `p` on the producer gives these symbols, and it ends in `last`. -/
inductive Yields (producer : Producer π α) : π → List α → π → Prop
  | none {p last : π} : producer.hasNext p = (false, last) → Yields producer p [] last
  | dry {p asked last : π} : producer.hasNext p = (true, asked) → producer.next asked = (none, last) →
      Yields producer p [] last
  | cons {p asked given last : π} {symbol : α} {symbols : List α} : producer.hasNext p = (true, asked) →
      producer.next asked = (some symbol, given) → Yields producer given symbols last →
      Yields producer p (symbol :: symbols) last

theorem yields_ofList (items : List α) : ofList.Yields items items [] := by
  induction items with
  | nil => exact .none rfl
  | cons item items ih => exact .cons rfl rfl ih

theorem feedFrom_eq (producer : Producer π α) (encode : α → EStateM Failure τ Unit) (p : π) (s : τ) :
    producer.feedFrom encode p s =
      match producer.hasNext p with
      | (false, asked) => .ok () (s, asked)
      | (true, asked) => match producer.next asked with
        | (none, given) => .ok () (s, given)
        | (some symbol, given) => match encode symbol s with
          | .ok _ s' => producer.feedFrom encode given s'
          | .error failure s' => .error failure (s', given) := by
  rw [feedFrom]
  split
  · rename_i asking
    simp only [asking]
  · rename_i asking
    split
    · rename_i giving
      simp only [asking, giving]
    · rename_i symbol given giving
      cases encoded : encode symbol s with
      | ok _ s' => simp only [asking, giving, encoded]
      | error failure s' => simp only [asking, giving, encoded]

theorem feedFrom_eq_ok {producer : Producer π α} {encode : α → EStateM Failure τ Unit} {p last : π} {symbols : List α}
    (yields : producer.Yields p symbols last) {s s' : τ} (encoded : symbols.forM encode s = .ok ⟨⟩ s') :
    producer.feedFrom encode p s = .ok () (s', last) := by
  induction yields generalizing s with
  | none asking =>
    cases encoded
    simp only [feedFrom_eq, asking]
  | dry asking giving =>
    cases encoded
    simp only [feedFrom_eq, asking, giving]
  | cons asking giving _ ih =>
    obtain ⟨_, middle, first, others⟩ := bind_eq_ok_iff.1 encoded
    rw [feedFrom_eq]
    simp only [asking, giving, first, ih others]

end Producer

namespace Session

def Advances {ω : Type} (act : EStateM Failure (Session BitStore ω) Unit) (count : Nat) : Prop :=
  ∀ store observer, ∃ store' observer', act ⟨store, observer⟩ = .ok () ⟨store', observer'⟩ ∧
    store'.cursor = store.cursor + count

theorem Writes.advances {ω : Type} [Observer ω] {act : EStateM Failure (Session BitStore ω) Unit} {bits : List Bool}
    {events : List CodeEvent} (writes : Writes act bits events) : Advances act bits.length :=
  fun store observer => ⟨_, _, writes store observer, BitStore.cursor_putAll store bits⟩

end Session

namespace CharCoder

variable {σ ω : Type} [BitOutput σ] [Observer ω] (coder : CharCoder)

theorem encodeChars_eq_forM (cs : List Char) :
    (coder.encodeChars cs : EStateM Failure (Session σ ω) Unit) = cs.forM coder.encodeChar := by
  induction cs with
  | nil => rfl
  | cons c cs ih =>
    rw [encodeChars, ih]
    rfl

theorem encodeFrom_eq_ok {π : Type} {producer : Producer π Char} {p last : π} {cs : List Char}
    (yields : producer.Yields p cs last) {s s' : Session σ ω} (encoded : coder.encodeChars cs s = .ok () s') :
    coder.encodeFrom producer (s, p) = .ok () (s', last) := by
  rw [encodeChars_eq_forM] at encoded
  exact Producer.feedFrom_eq_ok yields encoded

end CharCoder

namespace TextCoder

variable {σ ω : Type} [BitOutput σ] [Observer ω] (coder : TextCoder)

theorem encodeTexts_eq_forM (texts : List String) :
    (coder.encodeTexts texts : EStateM Failure (Session σ ω) Unit) = texts.forM coder.encodeText := by
  induction texts with
  | nil => rfl
  | cons text texts ih =>
    rw [encodeTexts, ih]
    rfl

theorem encodeTexts_append (front back : List String) :
    (coder.encodeTexts (front ++ back) : EStateM Failure (Session σ ω) Unit) = (do
      coder.encodeTexts front
      coder.encodeTexts back) := by
  induction front with
  | nil => rfl
  | cons text texts ih => rw [List.cons_append, encodeTexts, encodeTexts, ih, bind_assoc]

theorem encodeFrom_eq_ok {π : Type} {producer : Producer π String} {p last : π} {texts : List String}
    (yields : producer.Yields p texts last) {s s' : Session σ ω} (encoded : coder.encodeTexts texts s = .ok () s') :
    coder.encodeFrom producer (s, p) = .ok () (s', last) := by
  rw [encodeTexts_eq_forM] at encoded
  exact Producer.feedFrom_eq_ok yields encoded

end TextCoder

namespace ListCoder

/-- The encoders of texts write the same bits, as many as the lengths of the texts say. -/
structure Coherent (ω : Type) [Observer ω] (coder : ListCoder) : Prop where
  listLength_eq (items : List String) : coder.listLength items = (items.map coder.texts.textLength).sum
  /-- Whatever the store, it is the same one after all ways to write the items into it, and the one that is made for
  them if it was empty before. -/
  encodes {π : Type} (producer : Producer π String) {p last : π} {items : List String} :
    producer.Yields p items last → ∀ s : Session BitStore ω, ∃ s',
      s'.medium.cursor = s.medium.cursor + coder.listLength items ∧
      coder.texts.encodeTexts items s = .ok () s' ∧
      coder.texts.encodeFrom producer (s, p) = .ok () (s', last) ∧
      coder.encodeFrom producer (s, p) = .ok () (s', last) ∧
      (s.medium = .empty → coder.encodeList items s.observer = .ok s'.medium.rewound s'.observer)
  encodeTexts_append (front back : List String) :
    (coder.texts.encodeTexts (front ++ back) : EStateM Failure (Session BitStore ω) Unit) = (do
      coder.texts.encodeTexts front
      coder.texts.encodeTexts back)
  encodeList_append (front back : List String) (observer : ω) :
    ∃ (first second whole : BitStore) (heard heardToo heardAll : ω),
      coder.encodeList front observer = .ok first heard ∧ coder.encodeList back observer = .ok second heardToo ∧
      coder.encodeList (front ++ back) observer = .ok whole heardAll ∧ whole.toBits = first.toBits ++ second.toBits

theorem coherent {ω : Type} [Observer ω] (coder : ListCoder) : coder.Coherent ω where
  listLength_eq items := (coder.texts.sum_textLength items).symm
  encodes {π} producer p last items yields s := by
    obtain ⟨store, observer⟩ := s
    have encoded := coder.texts.writes_encodeTexts items store observer
    have fed := coder.texts.encodeFrom_eq_ok yields encoded
    refine ⟨_, ?_, encoded, fed, fed, ?_⟩
    · rw [BitStore.cursor_putAll, TextCoder.length_textsBits]
      rfl
    · rintro rfl
      exact coder.encodeList_eq_ok items observer
  encodeTexts_append front back := coder.texts.encodeTexts_append front back
  encodeList_append front back observer := by
    obtain ⟨first, wrote, -, held, -⟩ := coder.exists_encodeList (ω := ω) front
    obtain ⟨second, wroteToo, -, heldToo, -⟩ := coder.exists_encodeList (ω := ω) back
    obtain ⟨whole, wroteAll, -, heldAll, -⟩ := coder.exists_encodeList (ω := ω) (front ++ back)
    refine ⟨first, second, whole, _, _, _, wrote observer, wroteToo observer, wroteAll observer, ?_⟩
    rw [heldAll, held, heldToo, TextCoder.textsBits_append]

end ListCoder

/-- Encoding into a store always succeeds, and takes just the bits that were predicted for it: for the characters of a
text with their end, for a text, and for a list of texts, however the list comes. -/
theorem encode_predicted {ω : Type} [Observer ω] :
    (∀ (coder : CharCoder) (text : String),
      Session.Advances (coder.encodeText text : EStateM Failure (Session BitStore ω) Unit) (coder.textLength text)) ∧
    (∀ (coder : TextCoder) (text : String),
      Session.Advances (coder.encodeText text : EStateM Failure (Session BitStore ω) Unit) (coder.textLength text)) ∧
    ∀ coder : ListCoder, coder.Coherent ω := by
  refine ⟨fun coder text => ?_, fun coder text => ?_, fun coder => coder.coherent⟩
  · exact coder.length_textBits text ▸ (coder.writes_encodeText text).advances
  · exact coder.length_textBits text ▸ (coder.writes_encodeText text).advances

end HuffmanStrings
