import TapeElf.Location
import TapeElf.Text.Escape

/-!
# Diagnostics

* `Kind`: what sort of failure; its `id` is stable and stands in every report.
* `Diagnostic`: a failure with its message and whatever was known when it happened: the position in
  the source, the instruction, the file.
* `Cause`: the failures this compiler itself finds, each with its kind and its wording.
* `Fault`: how a step can stop: with a diagnostic, or because a promise between two parts of the compiler
  was broken (`defect`), which no input should bring about.

A diagnostic is shown as one line of text (`report`) or as one line of JSON (`json`).
-/

namespace TapeElf

/-- The sorts of failure. -/
inductive Kind where
  | badSourceExtension | failedRead | failedWrite | openReadFailed | openWriteFailed
  | jumpTooLong | invalidJumpAlignment | immediateTooLarge | tooManyInstructions
  | unmatchedOpen | unmatchedClose | invalidIr
  | tapeSizeZero | tapeTooLarge | unknownArch | unsupportedArch
  | allocationFailed
deriving DecidableEq, Repr

namespace Kind

def all : List Kind :=
  [badSourceExtension, failedRead, failedWrite, openReadFailed, openWriteFailed, jumpTooLong,
    invalidJumpAlignment, immediateTooLarge, tooManyInstructions, unmatchedOpen, unmatchedClose, invalidIr,
    tapeSizeZero, tapeTooLarge, unknownArch, unsupportedArch, allocationFailed]

def name : Kind → String
  | badSourceExtension => "BadSourceExtension"
  | failedRead => "FailedRead"
  | failedWrite => "FailedWrite"
  | openReadFailed => "OpenReadFailed"
  | openWriteFailed => "OpenWriteFailed"
  | jumpTooLong => "JumpTooLong"
  | invalidJumpAlignment => "InvalidJumpAlignment"
  | immediateTooLarge => "ImmediateTooLarge"
  | tooManyInstructions => "TooManyInstructions"
  | unmatchedOpen => "UnmatchedOpen"
  | unmatchedClose => "UnmatchedClose"
  | invalidIr => "InvalidIr"
  | tapeSizeZero => "TapeSizeZero"
  | tapeTooLarge => "TapeTooLarge"
  | unknownArch => "UnknownArch"
  | unsupportedArch => "UnsupportedArch"
  | allocationFailed => "AllocationFailed"

/-- A fatal failure ends the whole run, any other only the file at hand. -/
def isFatal (k : Kind) : Bool := k == allocationFailed

/-- The identifier shown to the user: the name, but a fatal kind is marked as such. -/
def id : Kind → String
  | allocationFailed => "Fatal:AllocFailure"
  | k => k.name

end Kind

/-- A failure and its context. -/
structure Diagnostic where
  kind : Kind
  message : String
  location : Option Location := none
  instruction : Option Char := none
  file : Option String := none
deriving DecidableEq, Repr

namespace Diagnostic

def withLocation (d : Diagnostic) (loc : Location) : Diagnostic := { d with location := some loc }

def withInstruction (d : Diagnostic) (c : Char) : Diagnostic := { d with instruction := some c }

/-- Attaches a file name, unless there is one already. -/
def inFile (d : Diagnostic) (name : String) : Diagnostic := { d with file := d.file <|> some name }

/-- Fills in the instruction and the position where they are missing. -/
def orContext (d : Diagnostic) (c : Char) (loc : Option Location) : Diagnostic :=
  { d with instruction := d.instruction <|> some c, location := d.location <|> loc }

/-- A fatal failure ends the whole run. -/
def isFatal (d : Diagnostic) : Bool := d.kind.isFatal

/-! ## One line of text -/

/-- The kind and the message alone. -/
def summary (d : Diagnostic) : String := d.kind.id ++ ": " ++ d.message

/-- The kind, where it happened, and the message. -/
def report (d : Diagnostic) : String :=
  let file := d.file.elim "" (" in file " ++ ·)
  let place := d.location.elim "" fun loc =>
    " at line " ++ loc.line.repr ++ ", column " ++ loc.column.repr
  let instruction := d.instruction.elim "" fun c =>
    " (instruction " ++ String.ofList (escapeChar c) ++ ")"
  d.kind.id ++ file ++ place ++ instruction ++ ": " ++ d.message

/-! ## One line of JSON -/

/-- The members of the JSON object, in their order: what is absent has no member. -/
def jsonMembers (d : Diagnostic) : List (String × JsonScalar) :=
  [("errorId", .text d.kind.id)] ++
  (d.file.map fun name => ("file", .text name)).toList ++
  (d.location.map fun loc => ("line", .number loc.line)).toList ++
  (d.location.map fun loc => ("column", .number loc.column)).toList ++
  (d.instruction.map fun c => ("instruction", .text (String.singleton c))).toList ++
  [("message", .text d.message)]

/-- The diagnostic as a JSON object on one line, or an empty one if it cannot be written. -/
def json (d : Diagnostic) (write : JsonWriter := .standard) : List Char :=
  (write d.jsonMembers).getD ['\x7b', '\x7d']

end Diagnostic

/-! ## Causes -/

/-- Why memory could not be had. -/
inductive MemoryShortage where
  /-- The request exceeds what any container can hold. -/
  | overCapacity
  /-- The allocator refused it. -/
  | refused
deriving DecidableEq, Repr

def MemoryShortage.message : MemoryShortage → String
  | overCapacity => "memory allocation failed because the computed capacity exceeded the collection's maximum"
  | refused => "memory allocation failed because the memory allocator returned an error"

/-- What `additional` more bytes after `length` run into when `available` bytes can be had. -/
def MemoryShortage.of? (available length additional : Nat) : Option MemoryShortage :=
  if length + additional ≥ 1 <<< 63 then some overCapacity
  else if length + additional > available then some refused
  else none

/-- The failures that the compiler finds. -/
inductive Cause where
  | sourceExtension
  | read (text : String)
  | write (text : String)
  | openRead (text : String)
  | openWrite (text : String)
  | jumpTooLong (offset : Int) (bits : Nat)
  | misalignedJump (offset : Int) (alignment : Nat)
  | immediateTooLarge (value : Int)
  | countTooLarge
  | runTooLong
  | loopTooLarge
  | imageTooLarge
  | unmatchedOpen
  | unmatchedClose
  | missingCount (opcode : Char)
  | foreignByte (b : UInt8)
  | tapeSizeZero
  | tapeTooLarge
  | unknownArch (name : String)
  | unsupportedArch (name : String)
  | codeMemory (shortage : MemoryShortage)
  | loopMemory (shortage : MemoryShortage)
  | expansionMemory (shortage : MemoryShortage)
deriving DecidableEq, Repr

namespace Cause

def kind : Cause → Kind
  | sourceExtension => .badSourceExtension
  | read _ => .failedRead
  | write _ => .failedWrite
  | openRead _ => .openReadFailed
  | openWrite _ => .openWriteFailed
  | jumpTooLong .. => .jumpTooLong
  | misalignedJump .. => .invalidJumpAlignment
  | immediateTooLarge _ => .immediateTooLarge
  | countTooLarge | runTooLong | loopTooLarge | imageTooLarge => .tooManyInstructions
  | unmatchedOpen => .unmatchedOpen
  | unmatchedClose => .unmatchedClose
  | missingCount _ | foreignByte _ => .invalidIr
  | tapeSizeZero => .tapeSizeZero
  | tapeTooLarge => .tapeTooLarge
  | unknownArch _ => .unknownArch
  | unsupportedArch _ => .unsupportedArch
  | codeMemory _ | loopMemory _ | expansionMemory _ => .allocationFailed

def message : Cause → String
  | sourceExtension => "file does not end with the expected extension"
  | read text | write text | openRead text | openWrite text => text
  | jumpTooLong offset bits =>
    "jump offset " ++ toString offset ++ " is outside the range of possible " ++ bits.repr ++ "-bit signed values"
  | misalignedJump offset alignment =>
    "jump offset " ++ toString offset ++ " is not a multiple of " ++ alignment.repr
  | immediateTooLarge value => toString value ++ " does not fit in a 32-bit register"
  | countTooLarge => "repeat count does not fit in 64 bits"
  | runTooLong => "run of instructions is too long to encode"
  | loopTooLarge => "loop body is too large"
  | imageTooLarge => "Generated code does not fit in the address space of the target"
  | unmatchedOpen => "reached the end of the file with an unmatched '['"
  | unmatchedClose => "found ']' without a matching '['"
  | missingCount opcode => "'" ++ String.singleton opcode ++ "' must be followed by a lowercase hex count"
  | foreignByte b => "unexpected byte " ++ hexByte b ++ " in IR stream"
  | tapeSizeZero => "Tape size must not be zero"
  | tapeTooLarge => "Tape size is too large for the address space of the target"
  | unknownArch name => "'" ++ name ++ "' is not a recognized target architecture"
  | unsupportedArch name => "support for '" ++ name ++ "' was not enabled in this build"
  | codeMemory shortage => "failed to grow code buffer: " ++ shortage.message
  | loopMemory shortage => "failed to grow the loop stack: " ++ shortage.message
  | expansionMemory shortage => "failed to expand IR: " ++ shortage.message

/-- The diagnostic of a cause, without context. -/
def diagnostic (c : Cause) : Diagnostic := { kind := c.kind, message := c.message }

end Cause

/-! ## Faults -/

/-- How a step of the compiler can stop. -/
inductive Fault where
  /-- A failure to be shown to the user. -/
  | reported (d : Diagnostic)
  /-- A broken promise inside the compiler. -/
  | defect
deriving DecidableEq, Repr

/-- The fault that reports a cause. -/
def Cause.fault (c : Cause) : Fault := .reported c.diagnostic

/-- Fills in the context of a diagnostic. -/
def Fault.orContext (f : Fault) (c : Char) (loc : Option Location) : Fault :=
  match f with
  | .reported d => .reported (d.orContext c loc)
  | .defect => .defect

end TapeElf
