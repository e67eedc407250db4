import HuffmanStrings.Json.Reader
import HuffmanStrings.Proofs.Json.Token

/-!
Printed documents are read back. The tokens of a document take the reader from the place of a value to where that
value is complete, and the printed text of a document whose numbers are digits has just these tokens.
-/

namespace HuffmanStrings.Json

@[elab_as_elim]
theorem inductionOn {motive : Json → Prop} (document : Json) (null : motive .null)
    (bool : ∀ value, motive (.bool value)) (number : ∀ lexeme, motive (.number lexeme))
    (string : ∀ content, motive (.string content))
    (array : ∀ items, (∀ item ∈ items, motive item) → motive (.array items))
    (object : ∀ members, (∀ member ∈ members, motive member.2) → motive (.object members)) : motive document := by
  match document with
  | .null => exact null
  | .bool value => exact bool value
  | .number lexeme => exact number lexeme
  | .string content => exact string content
  | .array items =>
    exact array items fun item _ => inductionOn item null bool number string array object
  | .object members =>
    exact object members fun member member_mem => inductionOn member.2 null bool number string array object
termination_by sizeOf document
decreasing_by
  · have := List.sizeOf_lt_of_mem ‹item ∈ items›
    simp only [Json.array.sizeOf_spec]
    omega
  · have := List.sizeOf_lt_of_mem ‹member ∈ members›
    have : sizeOf member.2 < sizeOf member := by
      cases member
      simp only [Prod.mk.sizeOf_spec]
      omega
    simp only [Json.object.sizeOf_spec]
    omega

section Running

mutual

def tokens : Json → List Token
  | null => [.null]
  | bool value => [.bool value]
  | number lexeme => [.number lexeme]
  | string content => [.string content]
  | array [] => [.openBracket, .closeBracket]
  | array (item :: items) => .openBracket :: (tokens item ++ itemTokens items)
  | object [] => [.openBrace, .closeBrace]
  | object ((key, item) :: members) => .openBrace :: .string key :: .colon :: (tokens item ++ memberTokens members)

def itemTokens : List Json → List Token
  | [] => [.closeBracket]
  | item :: items => .comma :: (tokens item ++ itemTokens items)

def memberTokens : List (Content × Json) → List Token
  | [] => [.closeBrace]
  | (key, item) :: members => .comma :: .string key :: .colon :: (tokens item ++ memberTokens members)

end

def State.run (state : State) (tokens : List Token) : Option State :=
  tokens.foldlM State.step state

theorem State.run_append (state : State) (front back : List Token) :
    state.run (front ++ back) = (state.run front).bind (·.run back) :=
  List.foldlM_append

/-- A document is read where a value may come. -/
def Readable (document : Json) : Prop :=
  ∀ context : Context, (State.value context).run document.tokens = some (context.complete document)

/-- The first item of an array is read as the others are: it does not begin with a closing bracket. -/
theorem run_arrayStart (outer : Context) (document : Json) :
    (State.arrayStart outer).run document.tokens = (State.value (.array [] outer)).run document.tokens := by
  unfold tokens
  split <;> rfl

theorem run_itemTokens {items : List Json} (readable : ∀ item ∈ items, Readable item) (before : List Json)
    (outer : Context) : (State.arrayNext before outer).run (itemTokens items) =
      some (outer.complete (.array (before.reverse ++ items))) := by
  induction items generalizing before with
  | nil =>
    rw [itemTokens, List.append_nil]
    rfl
  | cons item items ih =>
    have first : (State.value (.array before outer)).run item.tokens = some (.arrayNext (item :: before) outer) :=
      readable item (List.mem_cons_self ..) (.array before outer)
    have others := ih (fun item member => readable item (List.mem_cons_of_mem _ member)) (item :: before)
    calc (State.arrayNext before outer).run (itemTokens (item :: items))
        = (State.value (.array before outer)).run (item.tokens ++ itemTokens items) := by rw [itemTokens]; rfl
      _ = (State.arrayNext (item :: before) outer).run (itemTokens items) := by
        rw [State.run_append, first, Option.bind_some]
      _ = _ := by rw [others, List.reverse_cons, List.append_assoc, List.singleton_append]

theorem run_memberTokens {members : List (Content × Json)} (readable : ∀ member ∈ members, Readable member.2)
    (before : List (Content × Json)) (outer : Context) : (State.objectNext before outer).run (memberTokens members) =
      some (outer.complete (.object (before.reverse ++ members))) := by
  induction members generalizing before with
  | nil =>
    rw [memberTokens, List.append_nil]
    rfl
  | cons member members ih =>
    obtain ⟨key, item⟩ := member
    have first : (State.value (.object before key outer)).run item.tokens =
        some (.objectNext ((key, item) :: before) outer) :=
      readable (key, item) (List.mem_cons_self ..) (.object before key outer)
    have others := ih (fun member found => readable member (List.mem_cons_of_mem _ found)) ((key, item) :: before)
    calc (State.objectNext before outer).run (memberTokens ((key, item) :: members))
        = (State.value (.object before key outer)).run (item.tokens ++ memberTokens members) := by
          rw [memberTokens]; rfl
      _ = (State.objectNext ((key, item) :: before) outer).run (memberTokens members) := by
        rw [State.run_append, first, Option.bind_some]
      _ = _ := by rw [others, List.reverse_cons, List.append_assoc, List.singleton_append]

theorem readable (document : Json) : Readable document := by
  intro context
  induction document using inductionOn generalizing context with
  | null | bool | number | string => unfold tokens; rfl
  | array items ih =>
    cases items with
    | nil => unfold tokens; rfl
    | cons item items =>
      have first := ih item (List.mem_cons_self ..) (.array [] context)
      have others := run_itemTokens (fun item member => ih item (List.mem_cons_of_mem _ member)) [item] context
      calc (State.value context).run (tokens (.array (item :: items)))
          = (State.arrayStart context).run (item.tokens ++ itemTokens items) := by rw [tokens]; rfl
        _ = (State.arrayNext [item] context).run (itemTokens items) := by
          rw [State.run_append, run_arrayStart, first, Option.bind_some, Context.complete]
        _ = _ := others
  | object members ih =>
    cases members with
    | nil => unfold tokens; rfl
    | cons member members =>
      obtain ⟨key, item⟩ := member
      have first := ih (key, item) (List.mem_cons_self ..) (.object [] key context)
      have others := run_memberTokens (fun member found => ih member (List.mem_cons_of_mem _ found))
        [(key, item)] context
      calc (State.value context).run (tokens (.object ((key, item) :: members)))
          = (State.value (.object [] key context)).run (item.tokens ++ memberTokens members) := by rw [tokens]; rfl
        _ = (State.objectNext [(key, item)] context).run (memberTokens members) := by
          rw [State.run_append, first, Option.bind_some, Context.complete]
        _ = _ := others

theorem ofTokens?_tokens (document : Json) : ofTokens? document.tokens = some document := by
  have whole : document.tokens.foldlM State.step (.value .document) = some (.finished document) :=
    readable document .document
  rw [ofTokens?, whole]

end Running

section Lexing

theorem tokens?_blank {c : Char} (blank : isBlank c = true) (rest : List Char) :
    tokens? (c :: rest) = tokens? rest := by
  rw [tokens?, if_pos blank]

theorem tokens?_newline (depth : Nat) (rest : List Char) : tokens? (newline depth ++ rest) = tokens? rest := by
  rw [newline, List.cons_append, tokens?_blank rfl]
  induction 2 * depth with
  | zero => rfl
  | succ blanks ih => rw [List.replicate_succ, List.cons_append, tokens?_blank rfl, ih]

theorem scan_blank {c : Char} (blank : isBlank c = true) (rest : List Char) : scan (c :: rest) = none := by
  simp only [isBlank, Bool.or_eq_true, decide_eq_true_eq] at blank
  rcases blank with ((rfl | rfl) | rfl) | rfl <;> rfl

theorem tokens?_of_scan {text rest : List Char} {token : Token} (scanned : scan text = some (token, rest)) :
    tokens? text = (tokens? rest).map (token :: ·) := by
  cases text with
  | nil => cases scanned
  | cons c text =>
    have other : ¬isBlank c = true := fun blank => by
      rw [scan_blank blank] at scanned
      cases scanned
    rw [tokens?, if_neg other]
    split
    · rename_i nothing
      rw [scanned] at nothing
      cases nothing
    · rename_i found
      rw [scanned] at found
      cases found
      rfl

/-- Documents all numbers of which are digits, as far as the reader can tell from digits alone. -/
inductive Spelled : Json → Prop
  | null : Spelled .null
  | bool (value : Bool) : Spelled (.bool value)
  | ofNat (n : Nat) : Spelled (.ofNat n)
  | string (content : Content) : Spelled (.string content)
  | array {items : List Json} (spelled : ∀ item ∈ items, Spelled item) : Spelled (.array items)
  | object {members : List (Content × Json)} (spelled : ∀ member ∈ members, Spelled member.2) :
    Spelled (.object members)

/-- Text has certain tokens wherever it stands before text that does not go on with a number. -/
def Lexes (text : List Char) (spelled : List Token) : Prop :=
  ∀ rest, Apart rest → tokens? (text ++ rest) = (tokens? rest).map (spelled ++ ·)

theorem apart_comma (rest : List Char) : Apart (',' :: rest) := by
  rintro c ⟨⟩
  decide

theorem apart_newline (depth : Nat) (rest : List Char) : Apart (newline depth ++ rest) := by
  rintro c ⟨⟩
  decide

theorem apart_printItems (depth : Nat) (items : List Json) (rest : List Char) :
    Apart (printItems depth items ++ rest) := by
  cases items with
  | nil => exact List.append_assoc .. ▸ apart_newline depth _
  | cons => exact apart_comma _

theorem apart_printMembers (depth : Nat) (members : List (Content × Json)) (rest : List Char) :
    Apart (printMembers depth members ++ rest) := by
  cases members with
  | nil => exact List.append_assoc .. ▸ apart_newline depth _
  | cons => exact apart_comma _

theorem lexes_printItems {items : List Json} (depth : Nat)
    (lexes : ∀ item ∈ items, ∀ depth, Lexes (print depth item) item.tokens) :
    Lexes (printItems depth items) (itemTokens items) := by
  intro rest apart
  induction items with
  | nil =>
    rw [printItems, List.append_assoc, tokens?_newline, itemTokens]
    exact tokens?_of_scan rfl
  | cons item items ih =>
    have first := lexes item (List.mem_cons_self ..) (depth + 1) _ (apart_printItems depth items rest)
    have others := ih fun item member => lexes item (List.mem_cons_of_mem _ member)
    rw [printItems, itemTokens, List.cons_append, tokens?_of_scan rfl, List.append_assoc, List.append_assoc,
      tokens?_newline, first, others]
    simp only [Option.map_map, Function.comp_def, List.append_assoc, List.cons_append]

theorem tokens?_member {depth : Nat} {item : Json} (key : Content) (lexes : Lexes (print depth item) item.tokens)
    {rest : List Char} (apart : Apart rest) : tokens? (printString key ++ ':' :: ' ' :: (print depth item ++ rest)) =
      (tokens? rest).map (.string key :: .colon :: item.tokens ++ ·) := by
  rw [tokens?_of_scan (scan_printString key _), tokens?_of_scan rfl, tokens?_blank rfl, lexes rest apart]
  simp only [Option.map_map, Function.comp_def, List.cons_append]

theorem lexes_printMembers {members : List (Content × Json)} (depth : Nat)
    (lexes : ∀ member ∈ members, ∀ depth, Lexes (print depth member.2) member.2.tokens) :
    Lexes (printMembers depth members) (memberTokens members) := by
  intro rest apart
  induction members with
  | nil =>
    rw [printMembers, List.append_assoc, tokens?_newline, memberTokens]
    exact tokens?_of_scan rfl
  | cons member members ih =>
    obtain ⟨key, item⟩ := member
    have first := tokens?_member key (lexes (key, item) (List.mem_cons_self ..) (depth + 1))
      (apart_printMembers depth members rest)
    have others := ih fun member found => lexes member (List.mem_cons_of_mem _ found)
    rw [printMembers, memberTokens, List.cons_append, tokens?_of_scan rfl]
    simp only [List.append_assoc, List.cons_append, List.nil_append, tokens?_newline, first, others]
    simp only [Option.map_map, Function.comp_def]

theorem Spelled.lexes {document : Json} (spelled : Spelled document) (depth : Nat) :
    Lexes (print depth document) document.tokens := by
  induction spelled generalizing depth with
  | null =>
    intro rest _
    rw [print, tokens]
    exact tokens?_of_scan rfl
  | bool value =>
    intro rest _
    cases value <;> rw [print, tokens] <;> exact tokens?_of_scan rfl
  | ofNat n =>
    intro rest apart
    rw [Json.ofNat, print, tokens]
    exact tokens?_of_scan (scan_toDigits n apart)
  | string content =>
    intro rest _
    rw [print, tokens]
    exact tokens?_of_scan (scan_printString content rest)
  | @array items _ ih =>
    intro rest apart
    cases items with
    | nil =>
      rw [print, tokens, List.cons_append, tokens?_of_scan rfl, List.cons_append, tokens?_of_scan rfl, Option.map_map]
      rfl
    | cons item items =>
      have first := ih item (List.mem_cons_self ..) (depth + 1) _ (apart_printItems depth items rest)
      have others := lexes_printItems depth fun item member => ih item (List.mem_cons_of_mem _ member)
      rw [print, tokens, List.cons_append, tokens?_of_scan rfl, List.append_assoc, List.append_assoc,
        tokens?_newline, first, others rest apart]
      simp only [Option.map_map, Function.comp_def, List.append_assoc, List.cons_append]
  | @object members _ ih =>
    intro rest apart
    cases members with
    | nil =>
      rw [print, tokens, List.cons_append, tokens?_of_scan rfl, List.cons_append, tokens?_of_scan rfl, Option.map_map]
      rfl
    | cons member members =>
      obtain ⟨key, item⟩ := member
      have first := tokens?_member key (ih (key, item) (List.mem_cons_self ..) (depth + 1))
        (apart_printMembers depth members rest)
      have others := lexes_printMembers depth fun member found => ih member (List.mem_cons_of_mem _ found)
      rw [print, tokens, List.cons_append, tokens?_of_scan rfl]
      simp only [List.append_assoc, List.cons_append, List.nil_append, tokens?_newline, first, others rest apart]
      simp only [Option.map_map, Function.comp_def]

theorem Spelled.parse?_pretty {document : Json} (spelled : Spelled document) :
    parse? document.pretty = some document := by
  have lexed := spelled.lexes 0 [] fun c none => by cases none
  rw [List.append_nil, tokens?, Option.map_some, List.append_nil] at lexed
  rw [parse?, pretty, String.toList_ofList, lexed, Option.bind_some, ofTokens?_tokens]

end Lexing

end HuffmanStrings.Json
