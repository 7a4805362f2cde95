import TapeElf.Elf.Header
import TapeElf.Sink

/-!
# Executables

An executable is two segments: the tape, which takes no room in the file, and the code, which is the whole
file: headers, padding and machine code.
-/

namespace TapeElf.Elf

/-- What an executable is built for. -/
structure Executable where
  elfClass : Class
  endian : Endian
  machine : UInt16
  flags : UInt32 := 0
  tapeBlocks : UInt64 := 8
deriving DecidableEq, Repr

namespace Executable

def layout (x : Executable) : Except Diagnostic Layout := Layout.of x.elfClass x.tapeBlocks

def header (x : Executable) (l : Layout) : Header :=
  { Header.executable x.elfClass x.machine with entry := UInt64.ofNat l.entry, flags := x.flags }

/-- The tape: readable and writable. -/
def tape (l : Layout) : Segment where
  type := 1
  flags := 6
  offset := 0
  vaddr := UInt64.ofNat tapeAddress
  paddr := 0
  filesz := 0
  memsz := UInt64.ofNat l.tapeSize
  align := 0x1000

/-- The code: readable and executable. -/
def text (l : Layout) (fileSize : Nat) : Segment where
  type := 1
  flags := 5
  offset := 0
  vaddr := UInt64.ofNat l.loadAddress
  paddr := 0
  filesz := UInt64.ofNat fileSize
  memsz := UInt64.ofNat fileSize
  align := 1

/-- Whether a file of a size fits the address space after the load address. The end of the file is computed
in 64 bits and stays at the largest number if it exceeds them. -/
def fitsAddressSpace (x : Executable) (l : Layout) (fileSize : Nat) : Bool :=
  fileSize < UInt64.size && min (l.loadAddress + fileSize) (UInt64.size - 1) ≤ x.elfClass.maxAddress

/-- The file with the given machine code. -/
def image (x : Executable) (code : Bytes) : Except Diagnostic Bytes :=
  match x.layout with
  | .error d => .error d
  | .ok l =>
    let fileSize := l.codeOffset + code.length
    if x.fitsAddressSpace l fileSize then
      .ok ((x.header l).encode x.elfClass x.endian ++
        (tape l).encode x.elfClass x.endian ++
        (text l fileSize).encode x.elfClass x.endian ++
        List.replicate (l.codeOffset - x.elfClass.headersSize) 0 ++
        code)
    else .error Cause.imageTooLarge.diagnostic

/-- The file in the pieces in which it is written: the fields of the headers, the padding, the machine code. -/
def pieces (x : Executable) (l : Layout) (code : Bytes) : List Bytes :=
  (x.header l).fields x.elfClass x.endian ++
  (tape l).fields x.elfClass x.endian ++
  (text l (l.codeOffset + code.length)).fields x.elfClass x.endian ++
  [List.replicate (l.codeOffset - x.elfClass.headersSize) 0, code]

/-- Writes the file with the given machine code, and gives its size. -/
def write (x : Executable) (sink : Sink) (code : Bytes) : Sink × Except Diagnostic Nat :=
  match x.layout with
  | .error d => (sink, .error d)
  | .ok l =>
    let fileSize := l.codeOffset + code.length
    if x.fitsAddressSpace l fileSize then
      match sink.writeAll (x.pieces l code) with
      | (sink, some e) => (sink, .error (Cause.write e.message).diagnostic)
      | (sink, none) =>
        match sink.flush with
        | (sink, some e) => (sink, .error (Cause.write e.message).diagnostic)
        | (sink, none) => (sink, .ok fileSize)
    else (sink, .error Cause.imageTooLarge.diagnostic)

end Executable

end TapeElf.Elf
