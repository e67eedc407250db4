import HuffmanStrings.Tool.Run

/-!
The command line: the name of a tool and its arguments. The exit code is 1 where the tool fails and 2 where its
arguments are refused.
-/

namespace HuffmanStrings.CommandLine

/-- A fault by the system's number for it, which some operations report negated. -/
def systemFault (code : UInt32) : IoFault :=
  .system (min code.toNat (UInt32.size - code.toNat) : Nat)

def ioFault : IO.Error → IoFault
  | .noFileOrDirectory _ code _ => systemFault code
  | .permissionDenied _ code _ => systemFault code
  | .resourceExhausted _ code _ => systemFault code
  | .inappropriateType _ code _ => systemFault code
  | fault => .described .other (toString fault)

def attempt {α : Type} (operation : IO α) : IO (Except IoFault α) := do
  try
    return .ok (← operation)
  catch fault =>
    return .error (ioFault fault)

instance : FileSystem IO where
  read path := attempt do
    return (← IO.FS.readBinFile path).data.toList
  write path content := attempt do
    IO.FS.writeBinFile path content.toByteArray

def summaryText (summary : PackingSummary) (elapsed : Nat) : String :=
  (Json.object [
    (some "bits", .ofNat summary.bits),
    (some "bytes", .ofNat summary.bytes),
    (some "elapsed_ms", .ofNat elapsed),
    (some "escapes", .ofNat summary.escapes.toNat),
    (some "input_bytes", .ofNat summary.inputBytes),
    (some "strings", .ofNat summary.texts)]).pretty

def usage : String :=
  "usage: train SAMPLES OUTPUT [--frequencies FILE] [--config FILE] [--max-length N] [--min-length N] [--json FILE]
       encode CODEBOOK INPUT OUTPUT
       decode CODEBOOK INPUT OUTPUT [--count N]
       dump CODEBOOK [--csv FILE] [--json FILE]"

def execute (command : Command) : IO UInt32 := do
  let start ← IO.monoMsNow
  match ← (Tool.run command : ExceptT ToolFault IO ToolOutput) with
  | .error fault =>
    IO.eprintln fault.message
    return 1
  | .ok (.text content) =>
    IO.print content
    return 0
  | .ok (.summary summary) =>
    IO.println (summaryText summary ((← IO.monoMsNow) - start))
    return 0

end HuffmanStrings.CommandLine

def main (args : List String) : IO UInt32 := do
  match args with
  | tool :: rest => match HuffmanStrings.Command.parse? tool rest with
    | some command => HuffmanStrings.CommandLine.execute command
    | none =>
      IO.eprintln HuffmanStrings.CommandLine.usage
      return 2
  | [] =>
    IO.eprintln HuffmanStrings.CommandLine.usage
    return 2
