/-!
The causes for which an operation of this library fails, the sentence that reports each of them, and what the tools
advise their user to do about it.
-/

namespace HuffmanStrings

def systemTexts : List (Int × String) := [
    (0, "Success"), (1, "Operation not permitted"), (2, "No such file or directory"), (3, "No such process"),
    (4, "Interrupted system call"), (5, "Input/output error"), (6, "No such device or address"),
    (7, "Argument list too long"), (8, "Exec format error"), (9, "Bad file descriptor"),
    (10, "No child processes"), (11, "Resource temporarily unavailable"), (12, "Cannot allocate memory"),
    (13, "Permission denied"), (14, "Bad address"), (15, "Block device required"),
    (16, "Device or resource busy"), (17, "File exists"), (18, "Invalid cross-device link"),
    (19, "No such device"), (20, "Not a directory"), (21, "Is a directory"), (22, "Invalid argument"),
    (23, "Too many open files in system"), (24, "Too many open files"), (25, "Inappropriate ioctl for device"),
    (26, "Text file busy"), (27, "File too large"), (28, "No space left on device"), (29, "Illegal seek"),
    (30, "Read-only file system"), (31, "Too many links"), (32, "Broken pipe"),
    (33, "Numerical argument out of domain"), (34, "Numerical result out of range"),
    (35, "Resource deadlock avoided"), (36, "File name too long"), (37, "No locks available"),
    (38, "Function not implemented"), (39, "Directory not empty"), (40, "Too many levels of symbolic links"),
    (42, "No message of desired type"), (43, "Identifier removed"), (44, "Channel number out of range"),
    (45, "Level 2 not synchronized"), (46, "Level 3 halted"), (47, "Level 3 reset"),
    (48, "Link number out of range"), (49, "Protocol driver not attached"), (50, "No CSI structure available"),
    (51, "Level 2 halted"), (52, "Invalid exchange"), (53, "Invalid request descriptor"), (54, "Exchange full"),
    (55, "No anode"), (56, "Invalid request code"), (57, "Invalid slot"), (59, "Bad font file format"),
    (60, "Device not a stream"), (61, "No data available"), (62, "Timer expired"),
    (63, "Out of streams resources"), (64, "Machine is not on the network"), (65, "Package not installed"),
    (66, "Object is remote"), (67, "Link has been severed"), (68, "Advertise error"), (69, "Srmount error"),
    (70, "Communication error on send"), (71, "Protocol error"), (72, "Multihop attempted"),
    (73, "RFS specific error"), (74, "Bad message"), (75, "Value too large for defined data type"),
    (76, "Name not unique on network"), (77, "File descriptor in bad state"), (78, "Remote address changed"),
    (79, "Can not access a needed shared library"), (80, "Accessing a corrupted shared library"),
    (81, ".lib section in a.out corrupted"), (82, "Attempting to link in too many shared libraries"),
    (83, "Cannot exec a shared library directly"), (84, "Invalid or incomplete multibyte or wide character"),
    (85, "Interrupted system call should be restarted"), (86, "Streams pipe error"), (87, "Too many users"),
    (88, "Socket operation on non-socket"), (89, "Destination address required"), (90, "Message too long"),
    (91, "Protocol wrong type for socket"), (92, "Protocol not available"), (93, "Protocol not supported"),
    (94, "Socket type not supported"), (95, "Operation not supported"), (96, "Protocol family not supported"),
    (97, "Address family not supported by protocol"), (98, "Address already in use"),
    (99, "Cannot assign requested address"), (100, "Network is down"), (101, "Network is unreachable"),
    (102, "Network dropped connection on reset"), (103, "Software caused connection abort"),
    (104, "Connection reset by peer"), (105, "No buffer space available"),
    (106, "Transport endpoint is already connected"), (107, "Transport endpoint is not connected"),
    (108, "Cannot send after transport endpoint shutdown"), (109, "Too many references: cannot splice"),
    (110, "Connection timed out"), (111, "Connection refused"), (112, "Host is down"), (113, "No route to host"),
    (114, "Operation already in progress"), (115, "Operation now in progress"), (116, "Stale file handle"),
    (117, "Structure needs cleaning"), (118, "Not a XENIX named type file"),
    (119, "No XENIX semaphores available"), (120, "Is a named type file"), (121, "Remote I/O error"),
    (122, "Disk quota exceeded"), (123, "No medium found"), (124, "Wrong medium type"),
    (125, "Operation canceled"), (126, "Required key not available"), (127, "Key has expired"),
    (128, "Key has been revoked"), (129, "Key was rejected by service"), (130, "Owner died"),
    (131, "State not recoverable"), (132, "Operation not possible due to RF-kill"),
    (133, "Memory page has hardware error")]

/-- The words for an error number; one that the system does not use is named as such. -/
def systemText (code : Int) : String :=
  (systemTexts.lookup code).getD s!"Unknown error {code}"

inductive FaultClass
  | notFound
  | permissionDenied
  | invalidData
  | unexpectedEnd
  | writeZero
  | other
  deriving DecidableEq, Repr

/-- A stream or file operation that was refused: in words of its own, or by the system under a number. -/
inductive IoFault
  | described (kind : FaultClass) (text : String)
  | system (code : Int)
  deriving DecidableEq, Repr

namespace IoFault

def message : IoFault → String
  | described _ text => text
  | system code => s!"{systemText code} (os error {code})"

def notText : IoFault :=
  described .invalidData "stream did not contain valid UTF-8"

def nothingWritten : IoFault :=
  described .writeZero "failed to write whole buffer"

end IoFault

inductive TableFlaw
  | lengthOutOfRange (length : Nat)
  | duplicateSymbol
  | kraftSum
  | escapeWithoutCode
  | characterEscape
  | characterEscapeMissing
  | characterEndMissing
  | textEscape
  | textEscapeMissing
  | described (text : String)
  deriving DecidableEq, Repr

def TableFlaw.message : TableFlaw → String
  | lengthOutOfRange length => s!"code length {length} outside 1..=64"
  | duplicateSymbol => "duplicate symbol"
  | kraftSum => "code lengths violate the Kraft inequality"
  | escapeWithoutCode => "escape symbol has no code"
  | characterEscape => "character table must use ESCAPE as its escape symbol"
  | characterEscapeMissing => "character table lacks ESCAPE"
  | characterEndMissing => "character table lacks END_OF_STRING"
  | textEscape => "string table must use ESCAPE as its escape symbol"
  | textEscapeMissing => "string table lacks ESCAPE"
  | described text => text

inductive BoundsFlaw
  | zeroMinimum
  | maximumOutOfRange (maximum : Nat)
  | minimumAboveMaximum (minimum maximum : Nat)
  | settingsMaximum (maximum : Nat)
  | settingsMinimum (minimum maximum : Nat)
  | described (text : String)
  deriving DecidableEq, Repr

def BoundsFlaw.message : BoundsFlaw → String
  | zeroMinimum => "minimum code length must be at least 1"
  | maximumOutOfRange maximum => s!"maximum code length must be within 1..=64, got {maximum}"
  | minimumAboveMaximum minimum maximum => s!"minimum code length {minimum} exceeds maximum {maximum}"
  | settingsMaximum maximum => s!"maximum_length must be within 1..=64, got {maximum}"
  | settingsMinimum minimum maximum => s!"minimum_length must be within 1..={maximum}, got {minimum}"
  | described text => text

inductive Failure
  | emptyAlphabet
  | codeTooLong (symbols maximum : Nat)
  | outOfBits (requested available : Nat)
  | unknownCode (position : Nat)
  | unflushedBits (pending : Nat)
  | invalidBitCount (count : Nat)
  | seekPastEnd (position size : Nat)
  | unseekable
  | invalidLiteral (value : Nat)
  | invalidTable (flaw : TableFlaw)
  | invalidBounds (flaw : BoundsFlaw)
  | io (fault : IoFault)
  | malformedBinary
  | malformedJson
  deriving DecidableEq, Repr

namespace Failure

def binaryDetail : String := "malformed binary codebook"

def jsonDetail : String := "malformed JSON document"

def hexadecimal (value : Nat) : String :=
  String.ofList (Nat.toDigits 16 value)

def message : Failure → String
  | emptyAlphabet => "empty alphabet: cannot build a code table without symbols"
  | codeTooLong symbols maximum =>
    s!"{symbols} symbols cannot be coded with codes of at most {maximum} bits"
  | outOfBits requested available => s!"out of bits: requested {requested}, available {available}"
  | unknownCode position => s!"unknown code at bit position {position}"
  | unflushedBits pending => s!"stream closed with {pending} unflushed bits"
  | invalidBitCount count => s!"invalid bit count: {count}"
  | seekPastEnd position size => s!"seek to bit {position} past end of storage ({size} bits)"
  | unseekable => "bit source does not support seeking"
  | invalidLiteral value => s!"escaped literal 0x{hexadecimal value} is not a valid character"
  | invalidTable flaw => s!"invalid code table: {flaw.message}"
  | invalidBounds flaw => s!"config error: {flaw.message}"
  | io fault => s!"I/O error: {fault.message}"
  | malformedBinary => s!"bincode error: {binaryDetail}"
  | malformedJson => s!"json error: {jsonDetail}"

end Failure

/-! What the tools tell their user when they fail: what went wrong, and what to do about it. -/

def IoFault.advice : IoFault → String
  | described .notFound _ | system 2 => "Check the path; the file does not exist."
  | described .permissionDenied _ | system 13 | system 1 => "Check the file permissions."
  | described .invalidData _ => "Input must be UTF-8 text, one string per line."
  | described .unexpectedEnd _ => "The file looks truncated."
  | described .writeZero _ | system 28 => "The disk may be full."
  | _ => "Check the path and free disk space."

def Failure.hint (failure : Failure) : String :=
  match failure with
  | emptyAlphabet => "no training symbols. Provide a non-empty sample file."
  | codeTooLong .. => s!"{failure.message}. Raise --max-length or shrink the vocabulary."
  | outOfBits .. => s!"{failure.message}. Input is truncated or --count is too large."
  | unknownCode _ | invalidLiteral _ =>
    s!"{failure.message}. Input was encoded with a different codebook or is corrupt."
  | invalidTable flaw => s!"{flaw.message}. Regenerate the codebook."
  | invalidBounds flaw => s!"{flaw.message}. Invalid configuration."
  | io fault => fault.message
  | malformedBinary => s!"{binaryDetail}. Codebook file is not readable."
  | malformedJson => s!"{jsonDetail}. Check the JSON input."
  | unflushedBits _ | invalidBitCount _ | seekPastEnd .. | unseekable =>
    s!"{failure.message}. This is a bug."

inductive ToolFault
  | file (operation path : String) (fault : IoFault)
  | step (context : String) (failure : Failure)
  | tooFew (held requested : Nat)
  | frequencies
  deriving DecidableEq, Repr

def ToolFault.message : ToolFault → String
  | file operation path fault => s!"Error {operation} '{path}': {fault.message}. {fault.advice}"
  | step context failure => s!"{context}: {failure.hint}"
  | tooFew held requested => s!"input holds {held} strings, {requested} requested"
  | frequencies => Failure.jsonDetail

end HuffmanStrings
