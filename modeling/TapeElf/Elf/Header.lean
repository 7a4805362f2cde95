import TapeElf.Elf.Layout

/-!
# ELF headers

A file header and a program header as bytes, field by field in the order in which they are written. Addresses,
offsets and sizes have the width of the class; in the 32-bit class only their low 32 bits are written.
-/

namespace TapeElf.Elf

def Class.addressBytes (c : Class) : Nat := c.addressBits / 8

/-- The file header, without the identification in front of it. -/
structure Header where
  type : UInt16 := 2
  machine : UInt16
  version : UInt32 := 1
  entry : UInt64 := 0
  phoff : UInt64
  shoff : UInt64 := 0
  flags : UInt32 := 0
  ehsize : UInt16
  phentsize : UInt16
  phnum : UInt16 := 2
  shentsize : UInt16 := 0
  shnum : UInt16 := 0
  shstrndx : UInt16 := 0
deriving DecidableEq, Repr

/-- The header of an executable without sections. -/
def Header.executable (c : Class) (machine : UInt16) : Header where
  machine := machine
  phoff := UInt64.ofNat c.headerSize
  ehsize := UInt16.ofNat c.headerSize
  phentsize := UInt16.ofNat c.segmentSize

/-- The fields of the identification: magic number, class, byte order, version, the System V interface, padding. -/
def identFields (c : Class) (e : Endian) : List Bytes :=
  [[0x7f, 0x45, 0x4c, 0x46], [c.ident], [endianIdent e], [1], [0], [0, 0, 0, 0, 0, 0, 0, 0]]

def identification (c : Class) (e : Endian) : Bytes := (identFields c e).flatten

def Header.fields (h : Header) (c : Class) (e : Endian) : List Bytes :=
  identFields c e ++ [
    e.bytes 2 h.type.toNat,
    e.bytes 2 h.machine.toNat,
    e.bytes 4 h.version.toNat,
    e.bytes c.addressBytes h.entry.toNat,
    e.bytes c.addressBytes h.phoff.toNat,
    e.bytes c.addressBytes h.shoff.toNat,
    e.bytes 4 h.flags.toNat,
    e.bytes 2 h.ehsize.toNat,
    e.bytes 2 h.phentsize.toNat,
    e.bytes 2 h.phnum.toNat,
    e.bytes 2 h.shentsize.toNat,
    e.bytes 2 h.shnum.toNat,
    e.bytes 2 h.shstrndx.toNat]

def Header.encode (h : Header) (c : Class) (e : Endian) : Bytes := (h.fields c e).flatten

/-- A program header: a part of the file and where it is loaded. -/
structure Segment where
  type : UInt32
  flags : UInt32
  offset : UInt64
  vaddr : UInt64
  paddr : UInt64
  filesz : UInt64
  memsz : UInt64
  align : UInt64
deriving DecidableEq, Repr

/-- The fields of a program header. The place of the flags depends on the class. -/
def Segment.fields (s : Segment) (c : Class) (e : Endian) : List Bytes :=
  let address (n : UInt64) := e.bytes c.addressBytes n.toNat
  let flags := e.bytes 4 s.flags.toNat
  match c with
  | .elf32 =>
    [e.bytes 4 s.type.toNat, address s.offset, address s.vaddr, address s.paddr, address s.filesz, address s.memsz,
      flags, address s.align]
  | .elf64 =>
    [e.bytes 4 s.type.toNat, flags, address s.offset, address s.vaddr, address s.paddr, address s.filesz,
      address s.memsz, address s.align]

def Segment.encode (s : Segment) (c : Class) (e : Endian) : Bytes := (s.fields c e).flatten

end TapeElf.Elf
