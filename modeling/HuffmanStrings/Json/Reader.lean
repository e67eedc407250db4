import HuffmanStrings.Json.Token

/-!
Reading a document from its tokens, one token after another. The state of reading is what has been opened around
the place reached, and what may come next there.
-/

namespace HuffmanStrings.Json

/-- What is open around a value, the items and members before it in reverse. -/
inductive Context
  | document
  | array (before : List Json) (outer : Context)
  | object (before : List (Content × Json)) (key : Content) (outer : Context)
  deriving Repr

inductive State
  | value (context : Context)
  | arrayStart (outer : Context)
  | arrayNext (items : List Json) (outer : Context)
  | objectStart (outer : Context)
  | memberKey (members : List (Content × Json)) (outer : Context)
  | colon (members : List (Content × Json)) (key : Content) (outer : Context)
  | objectNext (members : List (Content × Json)) (outer : Context)
  | finished (document : Json)
  deriving Repr

def Context.complete (v : Json) : Context → State
  | document => .finished v
  | array before outer => .arrayNext (v :: before) outer
  | object before key outer => .objectNext ((key, v) :: before) outer

def Context.begin (context : Context) : Token → Option State
  | .null => some (context.complete .null)
  | .bool value => some (context.complete (.bool value))
  | .number lexeme => some (context.complete (.number lexeme))
  | .string content => some (context.complete (.string content))
  | .openBracket => some (.arrayStart context)
  | .openBrace => some (.objectStart context)
  | _ => none

def State.step : State → Token → Option State
  | value context, token => context.begin token
  | arrayStart outer, .closeBracket => some (outer.complete (.array []))
  | arrayStart outer, token => (Context.array [] outer).begin token
  | arrayNext items outer, .comma => some (.value (.array items outer))
  | arrayNext items outer, .closeBracket => some (outer.complete (.array items.reverse))
  | objectStart outer, .closeBrace => some (outer.complete (.object []))
  | objectStart outer, .string key => some (.colon [] key outer)
  | memberKey members outer, .string key => some (.colon members key outer)
  | colon members key outer, .colon => some (.value (.object members key outer))
  | objectNext members outer, .comma => some (.memberKey members outer)
  | objectNext members outer, .closeBrace => some (outer.complete (.object members.reverse))
  | _, _ => none

def ofTokens? (tokens : List Token) : Option Json :=
  match tokens.foldlM State.step (.value .document) with
  | some (.finished document) => some document
  | _ => none

def parse? (text : String) : Option Json :=
  (tokens? text.toList).bind ofTokens?

/-!
Reading values off documents. A record is written as an object, in which each member has its place by name, or
as an array of its members in order. An alternative is its name, or an object with that name for its only key.
-/

/-- A number that is written as digits alone and does not exceed `limit`. -/
def nat? (limit : Nat) : Json → Option Nat
  | number lexeme =>
    if lexeme.all Char.isDigit ∧ Nat.ofDigitChars 10 lexeme 0 ≤ limit then
      some (Nat.ofDigitChars 10 lexeme 0)
    else
      none
  | _ => none

def text? : Json → Option String
  | string content => content
  | _ => none

def items? : Json → Option (List Json)
  | array items => some items
  | _ => none

def keyed? (member : Content × Json) : Option (String × Json) :=
  member.1.map (·, member.2)

def members? : Json → Option (List (String × Json))
  | object members => members.mapM keyed?
  | _ => none

/-- What is found under a name: nothing or one member, and not several. -/
def lookup? (name : String) (members : List (String × Json)) : Option (Option Json) :=
  match members.filter fun member => member.1 = name with
  | [] => some none
  | [member] => some (some member.2)
  | _ => none

/-- The members of a record in order, `none` for one that an object lacks. -/
def fields? (names : List String) : Json → Option (List (Option Json))
  | array items => if items.length = names.length then some (items.map some) else none
  | document => do
    let members ← document.members?
    names.mapM (lookup? · members)

def variant? : Json → Option (String × Option Json)
  | string (some name) => some (name, none)
  | object [(some name, value)] => some (name, some value)
  | _ => none

/-- An alternative that comes with nothing may also be written with a null. -/
def isBare : Option Json → Bool
  | none | some null => true
  | _ => false

end HuffmanStrings.Json
