import HuffmanStrings.Bits.Store
import HuffmanStrings.Codebook.Basic
import HuffmanStrings.Codebook.Json
import HuffmanStrings.Failure
import HuffmanStrings.Json.Document
import HuffmanStrings.Text.Format
import HuffmanStrings.Text.Label
import HuffmanStrings.Tool.Command

/-!
The work of the tools, on any files: training a codebook, packing the lines of a text, unpacking them, and listing a
codebook. Files are whole contents under paths, and a directory in memory serves as files too.
-/

namespace HuffmanStrings

class FileSystem (m : Type → Type) where
  read (path : String) : m (Except IoFault (List UInt8))
  write (path : String) (content : List UInt8) : m (Except IoFault Unit)

instance {m : Type → Type} {ε : Type} [Monad m] [FileSystem m] : FileSystem (ExceptT ε m) where
  read path := ExceptT.lift (FileSystem.read path)
  write path content := ExceptT.lift (FileSystem.write path content)

/-- A flat directory in memory. A path with a separator leads into a directory that does not exist. -/
structure Directory where
  files : List (String × List UInt8) := []
  deriving DecidableEq, Repr

namespace Directory

def find? (d : Directory) (path : String) : Option (List UInt8) :=
  d.files.lookup path

def put (path : String) (content : List UInt8) : List (String × List UInt8) → List (String × List UInt8)
  | [] => [(path, content)]
  | (other, old) :: rest =>
    if other = path then (path, content) :: rest else (other, old) :: put path content rest

def missing : IoFault := .system 2

def read (path : String) (d : Directory) : Except IoFault (List UInt8) :=
  match d.find? path with
  | some content => .ok content
  | none => .error missing

def write (path : String) (content : List UInt8) (d : Directory) : Except IoFault Unit × Directory :=
  if '/' ∈ path.toList then (.error missing, d) else (.ok (), ⟨put path content d.files⟩)

instance : FileSystem (StateM Directory) where
  read path := do return (← get).read path
  write path content := modifyGet (write path content)

end Directory

/-! Listings of code tables: a row for each word, as aligned columns, as comma-separated values, or as JSON. -/

structure ListingRow where
  table : String
  symbol : String
  word : CodeWord
  deriving DecidableEq, Repr

def Letter.label : Letter → String
  | char c => Text.label (String.singleton c)
  | escape => "<ESCAPE>"
  | endOfString => "<END_OF_STRING>"

def Phrase.label : Phrase → String
  | text s => Text.label s
  | escape => "<ESCAPE>"

namespace ListingRow

def ofTable {α : Type} (name : String) (label : α → String) (table : CodeTable α) : List ListingRow :=
  table.codes.map fun entry => ⟨name, label entry.1, entry.2⟩

def ofTables (characters : CodeTable Letter) (texts : CodeTable Phrase) : List ListingRow :=
  ofTable "character" Letter.label characters ++ ofTable "string" Phrase.label texts

def padRight (width : Nat) (text : String) : String :=
  text ++ String.ofList (List.replicate (width - text.length) ' ')

def padLeft (width : Nat) (text : String) : String :=
  String.ofList (List.replicate (width - text.length) ' ') ++ text

def columns (r : ListingRow) : String :=
  " ".intercalate [padRight 9 r.table, padLeft 3 (toString r.word.length), padRight 24 r.word.text, r.symbol]

def csv (rows : List ListingRow) : String :=
  String.join (Csv.row ["table", "symbol", "length", "code"] ::
    rows.map fun r => Csv.row [r.table, r.symbol, toString r.word.length, r.word.text])

def toJson (r : ListingRow) : Json :=
  .object [
    (some "table", .text r.table),
    (some "symbol", .text r.symbol),
    (some "length", .ofNat r.word.length),
    (some "code", .text r.word.text)]

def json (rows : List ListingRow) : String :=
  (Json.array (rows.map toJson)).pretty

end ListingRow

/-! The tools themselves. Each stops at its first fault; what it has written by then stays. -/

structure PackingSummary where
  texts : Nat
  bits : Nat
  bytes : Nat
  escapes : UInt64
  inputBytes : Nat
  deriving DecidableEq, Repr

inductive ToolOutput
  | text (content : String)
  | summary (content : PackingSummary)
  deriving DecidableEq, Repr

namespace Tool

variable {m : Type → Type} [Monad m] [FileSystem m]

def step {α : Type} (context : String) : Except Failure α → ExceptT ToolFault m α
  | .ok value => pure value
  | .error failure => throw (.step context failure)

def textOf (content : List UInt8) : Except IoFault String :=
  match Utf8.decode? content with
  | some text => .ok text
  | none => .error .notText

def readBytes (operation path : String) : ExceptT ToolFault m (List UInt8) := do
  match ← FileSystem.read path with
  | .ok content => return content
  | .error fault => throw (.file operation path fault)

def readText (operation path : String) : ExceptT ToolFault m String := do
  match textOf (← readBytes operation path) with
  | .ok text => return text
  | .error fault => throw (.file operation path fault)

def readLines (path : String) : ExceptT ToolFault m (List String) :=
  Text.lines <$> readText "reading" path

def writeBytes (operation path : String) (content : List UInt8) : ExceptT ToolFault m Unit := do
  match ← FileSystem.write path content with
  | .ok () => return ()
  | .error fault => throw (.file operation path fault)

def writeText (operation path text : String) : ExceptT ToolFault m Unit :=
  writeBytes operation path (Utf8.encode text)

/-- A file of the library's own, a fault of the system being a failure of the step. -/
def loadBytes (context path : String) : ExceptT ToolFault m (List UInt8) := do
  step context ((← FileSystem.read path).mapError .io)

def loadCodebook (path : String) : ExceptT ToolFault m Codebook := do
  step "loading codebook" (Codebook.ofBytes (← loadBytes "loading codebook" path))

def loadCoder (path : String) : ExceptT ToolFault m ListCoder := do
  step "loading codebook" (← loadCodebook path).toCoder

def loadSettings : Option String → ExceptT ToolFault m Settings
  | none => return {}
  | some path => do
    let content ← loadBytes "loading config" path
    step "loading config" (((textOf content).mapError .io).bind Settings.ofJson)

def saveCodebook (path : String) (book : Codebook) : ExceptT ToolFault m Unit := do
  step "writing codebook" ((← FileSystem.write path book.toBytes).mapError .io)

/-- The vocabulary of a codebook with its frequencies, from a file or else from the samples. -/
def vocabulary (samples : List String) : Option String → ExceptT ToolFault m (List (String × UInt64))
  | none => return (Counter.ofList samples).counts
  | some path => do
    match Json.decode Json.frequencies? (← readText "reading frequencies" path) with
    | .ok frequencies => return frequencies
    | .error _ => throw .frequencies

def train (samples output : String) (frequencies settings : Option String) (maximum minimum : Option Nat)
    (json : Option String) : ExceptT ToolFault m ToolOutput := do
  let settings ← loadSettings settings
  let settings : Settings :=
    { maximum := maximum.getD settings.maximum, minimum := minimum.getD settings.minimum }
  let samples ← readLines samples
  let chars ← step "training characters" (CharCoder.train samples settings)
  let texts ← vocabulary samples frequencies
  let coder ← step "training strings" (TextCoder.ofFrequencies texts chars settings)
  let book := Codebook.ofCoder ⟨coder⟩
  saveCodebook output book
  if let some path := json then
    writeText "writing json" path book.toJson
  return .text ""

def pack (coder : ListCoder) (lines : List String) : Except Failure (BitStore × Statistics) :=
  match coder.encodeList lines ({} : Statistics) with
  | .ok store statistics => .ok (store, statistics)
  | .error failure _ => .error failure

def encode (codebook input output : String) : ExceptT ToolFault m ToolOutput := do
  let coder ← loadCoder codebook
  let lines ← readLines input
  let (store, statistics) ← step "encoding" (pack coder lines)
  writeBytes "writing output" output store.frame
  return .summary {
    texts := lines.length
    bits := store.size
    bytes := store.frame.length
    escapes := statistics.encoded.escapes
    inputBytes := (Text.unlines lines).utf8ByteSize }

def unpack (coder : ListCoder) (store : BitStore) (count : Option Nat) : Except Failure (List String) :=
  match coder.collect count (⟨store, ()⟩ : Session BitStore Unit) with
  | .ok texts _ => .ok texts
  | .error failure _ => .error failure

def decode (codebook input output : String) (count : Option Nat) : ExceptT ToolFault m ToolOutput := do
  let coder ← loadCoder codebook
  let content ← readBytes "reading input" input
  let store ← step "reading input" (BitStore.ofFrame? content)
  let texts ← step "decoding" (unpack coder store count)
  if let some requested := count then
    if texts.length < requested then
      throw (.tooFew texts.length requested)
  writeText "writing output" output (Text.unlines texts)
  return .text ""

def dump (codebook : String) (csv json : Option String) : ExceptT ToolFault m ToolOutput := do
  let book ← loadCodebook codebook
  let characters ← step "rebuilding character table" book.characters.toTable
  let texts ← step "rebuilding string table" book.texts.toTable
  let rows := ListingRow.ofTables characters texts
  if let some path := csv then
    writeText "creating csv" path (ListingRow.csv rows)
  if let some path := json then
    writeText "creating json" path (ListingRow.json rows)
  if csv.isNone && json.isNone then
    return .text (Text.unlines (rows.map ListingRow.columns))
  return .text ""

def run : Command → ExceptT ToolFault m ToolOutput
  | .train samples output frequencies settings maximum minimum json =>
    train samples output frequencies settings maximum minimum json
  | .encode codebook input output => encode codebook input output
  | .decode codebook input output count => decode codebook input output count
  | .dump codebook csv json => dump codebook csv json

end Tool

end HuffmanStrings
