import TapeElf.Bytes

/-!
# ELF classes

The class of a file fixes the width of its addresses and, with it, the sizes of its headers.
-/

namespace TapeElf.Elf

inductive Class where
  | elf32 | elf64
deriving DecidableEq, Repr

namespace Class

/-- The class byte of the file identification. -/
def ident : Class → UInt8
  | elf32 => 1
  | elf64 => 2

def addressBits : Class → Nat
  | elf32 => 32
  | elf64 => 64

def maxAddress (c : Class) : Nat := 1 <<< c.addressBits - 1

def headerSize : Class → Nat
  | elf32 => 52
  | elf64 => 64

def segmentSize : Class → Nat
  | elf32 => 32
  | elf64 => 56

end Class

/-- The byte of the file identification that names the byte order. -/
def endianIdent : Endian → UInt8
  | .little => 1
  | .big => 2

end TapeElf.Elf
