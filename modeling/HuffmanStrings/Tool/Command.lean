/-!
The command line of the tools. Options are long and take a value, after a blank or an equals sign; a value that
begins with a hyphen needs the equals sign. No option is given twice, and two hyphens end the options.
-/

namespace HuffmanStrings

structure Arguments where
  positionals : List String := []
  options : List (String × String) := []
  deriving DecidableEq, Repr

namespace Arguments

/-- Whether an argument would be taken for an option where a value may stand. -/
def isHyphenated (arg : String) : Bool :=
  arg.toList.head? = some '-' && arg ≠ "-"

def addPositional (arg : String) (rest : Arguments) : Arguments :=
  { rest with positionals := arg :: rest.positionals }

def addOption? (names : List String) (name value : String) (rest : Arguments) : Option Arguments :=
  if name ∈ names ∧ (rest.options.lookup name).isNone then
    some { rest with options := (name, value) :: rest.options }
  else
    none

def splitEquals? (arg : String) : Option (String × String) :=
  match arg.toList.span (· ≠ '=') with
  | (_, []) => none
  | (name, _ :: value) => some (String.ofList name, String.ofList value)

def parse? (names : List String) : List String → Option Arguments
  | [] => some {}
  | arg :: rest =>
    if arg = "--" then
      some { positionals := rest }
    else if isHyphenated arg then
      match splitEquals? arg with
      | some (name, value) => (parse? names rest).bind (addOption? names name value)
      | none => match rest with
        | [] => none
        | value :: rest =>
          if isHyphenated value then none else (parse? names rest).bind (addOption? names arg value)
    else
      (parse? names rest).map (addPositional arg)

end Arguments

inductive Command
  | train (samples output : String) (frequencies settings : Option String) (maximum minimum : Option Nat)
      (json : Option String)
  | encode (codebook input output : String)
  | decode (codebook input output : String) (count : Option Nat)
  | dump (codebook : String) (csv json : Option String)
  deriving DecidableEq, Repr

namespace Command

def path? (arg : String) : Option String :=
  if arg = "" then none else some arg

/-- Decimal digits, after a plus sign if there is one. -/
def count? (digits : List Char) : Option Nat :=
  let digits := match digits with
    | '+' :: rest => rest
    | _ => digits
  if digits ≠ [] ∧ digits.all Char.isDigit then some (Nat.ofDigitChars 10 digits 0) else none

def textCount? (arg : String) : Option Nat :=
  (count? arg.toList).filter (· < UInt64.size)

/-- A code length; zero may have any sign. -/
def codeLength? (arg : String) : Option Nat :=
  match arg.toList with
  | '-' :: '+' :: _ => none
  | '-' :: digits => (count? digits).filter (· = 0)
  | digits => (count? digits).filter (· < 256)

/-- The value of an option, if it is given; `none` if it is given and cannot be read. -/
def option? {α : Type} (read : String → Option α) (args : Arguments) (name : String) : Option (Option α) :=
  match args.options.lookup name with
  | none => some none
  | some value => (read value).map some

def parseTrain? (args : List String) : Option Command := do
  let args ← Arguments.parse?
    ["--frequencies", "--config", "--max-length", "--min-length", "--json"] args
  match ← args.positionals.mapM path? with
  | [samples, output] =>
    return .train samples output (← option? path? args "--frequencies") (← option? path? args "--config")
      (← option? codeLength? args "--max-length") (← option? codeLength? args "--min-length")
      (← option? path? args "--json")
  | _ => none

def parseEncode? (args : List String) : Option Command := do
  let args ← Arguments.parse? [] args
  match ← args.positionals.mapM path? with
  | [codebook, input, output] => return .encode codebook input output
  | _ => none

def parseDecode? (args : List String) : Option Command := do
  let args ← Arguments.parse? ["--count"] args
  match ← args.positionals.mapM path? with
  | [codebook, input, output] => return .decode codebook input output (← option? textCount? args "--count")
  | _ => none

def parseDump? (args : List String) : Option Command := do
  let args ← Arguments.parse? ["--csv", "--json"] args
  match ← args.positionals.mapM path? with
  | [codebook] => return .dump codebook (← option? path? args "--csv") (← option? path? args "--json")
  | _ => none

def parse? (tool : String) (args : List String) : Option Command :=
  match tool with
  | "train" => parseTrain? args
  | "encode" => parseEncode? args
  | "decode" => parseDecode? args
  | "dump" => parseDump? args
  | _ => none

end Command

end HuffmanStrings
