import TapeElf.Proofs.Elf.Reading
import TapeElf.Sink

/-!
# Headers written and read back

Headers go to a sink field by field. A sink without a limit receives as many bytes as the class fixes, and from these
bytes alone, wherever they stand in a file, every field is read back (`headers_roundTrip`). The 32-bit class has room
for the low 32 bits of an address, an offset, a size or an alignment; the 64-bit class keeps them whole.
-/

namespace TapeElf

lemma Sink.writeAll_unlimited (badFlush : Nat) (received : Bytes) (pieces : List Bytes) :
    Sink.writeAll { badFlush, received } pieces = ({ badFlush, received := received ++ pieces.flatten }, none) := by
  rw [writeAll_eq]
  rfl

namespace Elf

/-- What a field of the class holds of an address, an offset, a size or an alignment. -/
def Class.stored (c : Class) (n : UInt64) : Nat :=
  match c with
  | .elf32 => n.toNat % 2 ^ 32
  | .elf64 => n.toNat

lemma Class.mod_eq_stored (c : Class) (n : UInt64) : n.toNat % 2 ^ c.addressBits = c.stored n := by
  cases c with
  | elf32 => rfl
  | elf64 => exact Nat.mod_eq_of_lt n.toNat_lt

/-- What was read is the header, in a file of the class and the byte order. -/
structure Header.ReadAs (h : Header) (c : Class) (e : Endian) (r : FileHeader) : Prop where
  elfClass : r.elfClass = c
  endian : r.endian = e
  type : r.type = h.type.toNat
  machine : r.machine = h.machine.toNat
  version : r.version = h.version.toNat
  entry : r.entry = c.stored h.entry
  phoff : r.phoff = c.stored h.phoff
  shoff : r.shoff = c.stored h.shoff
  flags : r.flags = h.flags.toNat
  ehsize : r.ehsize = h.ehsize.toNat
  phentsize : r.phentsize = h.phentsize.toNat
  phnum : r.phnum = h.phnum.toNat
  shentsize : r.shentsize = h.shentsize.toNat
  shnum : r.shnum = h.shnum.toNat
  shstrndx : r.shstrndx = h.shstrndx.toNat

/-- What was read is the program header, in a file of the class. -/
structure Segment.ReadAs (s : Segment) (c : Class) (r : ProgramHeader) : Prop where
  type : r.type = s.type.toNat
  flags : r.flags = s.flags.toNat
  offset : r.offset = c.stored s.offset
  vaddr : r.vaddr = c.stored s.vaddr
  paddr : r.paddr = c.stored s.paddr
  filesz : r.filesz = c.stored s.filesz
  memsz : r.memsz = c.stored s.memsz
  align : r.align = c.stored s.align

lemma Header.readAs_written (h : Header) (c : Class) (e : Endian) : h.ReadAs c e (h.written c e) := by
  constructor
  case entry | phoff | shoff => exact c.mod_eq_stored _
  all_goals rfl

lemma Segment.readAs_written (s : Segment) (c : Class) : s.ReadAs c (s.written c) := by
  constructor
  case type | flags => rfl
  all_goals exact c.mod_eq_stored _

/-- **Headers are read back as they were written,** in both classes and both byte orders. -/
theorem headers_roundTrip (c : Class) (e : Endian) (badFlush : Nat) (received : Bytes) :
    (∀ h : Header, ∃ bytes,
      Sink.writeAll { badFlush, received } (h.fields c e) = ({ badFlush, received := received ++ bytes }, none) ∧
      bytes.length = c.headerSize ∧
      ∀ rest, ∃ r, FileHeader.read? (bytes ++ rest) = some r ∧ h.ReadAs c e r) ∧
    ∀ s : Segment, ∃ bytes,
      Sink.writeAll { badFlush, received } (s.fields c e) = ({ badFlush, received := received ++ bytes }, none) ∧
      bytes.length = c.segmentSize ∧
      ∀ before rest, ∃ r, ProgramHeader.read? c e (before ++ bytes ++ rest) before.length = some r ∧ s.ReadAs c r := by
  constructor
  · intro h
    refine ⟨h.encode c e, Sink.writeAll_unlimited _ _ _, length_encode_header h c e, fun rest => ?_⟩
    exact ⟨h.written c e, FileHeader.read?_encode h c e rest, h.readAs_written c e⟩
  · intro s
    refine ⟨s.encode c e, Sink.writeAll_unlimited _ _ _, length_encode_segment s c e, fun before rest => ?_⟩
    exact ⟨s.written c, ProgramHeader.read?_encode s c e rfl rest, s.readAs_written c⟩

end Elf

end TapeElf
