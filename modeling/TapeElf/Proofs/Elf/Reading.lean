import Mathlib
import TapeElf.Elf.Header

/-!
# Reading executables back

A reader of ELF files that follows the tables of the format: every field is taken from its own offset, and the class
and the byte order are those that the file itself names. It knows nothing of how headers are written.

* `FileHeader.read?`, `ProgramHeader.read?`: the two kinds of headers;
* `File.read?`: the file header, and the program headers where it says they are;
* `FileHeader.read?_encode`, `ProgramHeader.read?_encode`: what is read from an encoded header, every field reduced to
  the width it has in the class.
-/

namespace TapeElf

/-- The number that some bytes spell. -/
def Endian.value : Endian → Bytes → Nat
  | .little, bytes => bytes.foldr (fun b n => b.toNat + 256 * n) 0
  | .big, bytes => bytes.foldl (fun n b => 256 * n + b.toNat) 0

lemma value_littleBytes (width n : Nat) : Endian.value .little (littleBytes width n) = n % 256 ^ width := by
  induction width generalizing n with
  | zero =>
    rw [pow_zero, Nat.mod_one]
    rfl
  | succ width ih =>
    have hrest : Endian.value .little (littleBytes (width + 1) n) =
        (UInt8.ofNat n).toNat + 256 * Endian.value .little (littleBytes width (n / 256)) := rfl
    have hbyte : (UInt8.ofNat n).toNat = n % 256 := UInt8.toNat_ofNat'
    rw [hrest, ih, hbyte, pow_succ', Nat.mod_mul]

lemma Endian.value_bytes (e : Endian) (width n : Nat) : e.value (e.bytes width n) = n % 256 ^ width := by
  cases e with
  | little => exact value_littleBytes width n
  | big =>
    rw [← value_littleBytes width n]
    simp only [Endian.bytes, bigBytes, Endian.value, List.foldl_reverse]
    congr 1
    funext b n
    exact Nat.add_comm _ _

namespace Elf

/-- The field of some width at an offset of a file. -/
def field (e : Endian) (file : Bytes) (offset width : Nat) : Nat := e.value ((file.drop offset).take width)

section

variable {e : Endian}

lemma field_append_of_le {a : Bytes} {offset : Nat} (h : a.length ≤ offset) (b : Bytes) (width : Nat) :
    field e (a ++ b) offset width = field e b (offset - a.length) width := by
  rw [field, List.drop_append, List.drop_of_length_le h, List.nil_append, field]

lemma field_append_add (a b : Bytes) (offset width : Nat) :
    field e (a ++ b) (a.length + offset) width = field e b offset width := by
  rw [field_append_of_le (Nat.le_add_right _ _), Nat.add_sub_cancel_left]

lemma field_bytes (width n : Nat) (rest : Bytes) : field e (e.bytes width n ++ rest) 0 width = n % 256 ^ width := by
  have htake : (e.bytes width n ++ rest).take width = e.bytes width n :=
    List.take_left' (e.length_bytes width n)
  rw [field, List.drop_zero, htake, e.value_bytes]

end

/-! ## File headers -/

structure FileHeader where
  elfClass : Class
  endian : Endian
  type : Nat
  machine : Nat
  version : Nat
  entry : Nat
  phoff : Nat
  shoff : Nat
  flags : Nat
  ehsize : Nat
  phentsize : Nat
  phnum : Nat
  shentsize : Nat
  shnum : Nat
  shstrndx : Nat
deriving DecidableEq, Repr

/-- The class and the byte order that a file names, if it starts as an ELF file does. -/
def ident? (file : Bytes) : Option (Class × Endian) :=
  match file with
  | 0x7f :: 0x45 :: 0x4c :: 0x46 :: c :: e :: 1 :: _ =>
    match c, e with
    | 1, 1 => some (.elf32, .little)
    | 1, 2 => some (.elf32, .big)
    | 2, 1 => some (.elf64, .little)
    | 2, 2 => some (.elf64, .big)
    | _, _ => none
  | _ => none

def FileHeader.read? (file : Bytes) : Option FileHeader :=
  match ident? file with
  | none => none
  | some (.elf32, e) =>
    if file.length < 52 then none
    else some {
      elfClass := .elf32
      endian := e
      type := field e file 16 2
      machine := field e file 18 2
      version := field e file 20 4
      entry := field e file 24 4
      phoff := field e file 28 4
      shoff := field e file 32 4
      flags := field e file 36 4
      ehsize := field e file 40 2
      phentsize := field e file 42 2
      phnum := field e file 44 2
      shentsize := field e file 46 2
      shnum := field e file 48 2
      shstrndx := field e file 50 2 }
  | some (.elf64, e) =>
    if file.length < 64 then none
    else some {
      elfClass := .elf64
      endian := e
      type := field e file 16 2
      machine := field e file 18 2
      version := field e file 20 4
      entry := field e file 24 8
      phoff := field e file 32 8
      shoff := field e file 40 8
      flags := field e file 48 4
      ehsize := field e file 52 2
      phentsize := field e file 54 2
      phnum := field e file 56 2
      shentsize := field e file 58 2
      shnum := field e file 60 2
      shstrndx := field e file 62 2 }

/-- What a header says once it is written: addresses and offsets have the width of the class. -/
def Header.written (h : Header) (c : Class) (e : Endian) : FileHeader where
  elfClass := c
  endian := e
  type := h.type.toNat
  machine := h.machine.toNat
  version := h.version.toNat
  entry := h.entry.toNat % 2 ^ c.addressBits
  phoff := h.phoff.toNat % 2 ^ c.addressBits
  shoff := h.shoff.toNat % 2 ^ c.addressBits
  flags := h.flags.toNat
  ehsize := h.ehsize.toNat
  phentsize := h.phentsize.toNat
  phnum := h.phnum.toNat
  shentsize := h.shentsize.toNat
  shnum := h.shnum.toNat
  shstrndx := h.shstrndx.toNat

lemma flatten_identFields (c : Class) (e : Endian) : (identFields c e).flatten = identification c e := by
  rfl

lemma ident?_identification (c : Class) (e : Endian) (rest : Bytes) :
    ident? (identification c e ++ rest) = some (c, e) := by
  cases c <;> cases e <;> rfl

@[simp] lemma length_identification (c : Class) (e : Endian) : (identification c e).length = 16 := by
  simp [identification, identFields]

@[simp] lemma length_encode_header (h : Header) (c : Class) (e : Endian) : (h.encode c e).length = c.headerSize := by
  cases c <;> simp [Header.encode, Header.fields, identFields, Class.addressBytes, Class.addressBits, Class.headerSize]

/-- Fields of the header itself have a width that is their own. -/
lemma toNat_mod_half (n : UInt16) : n.toNat % 256 ^ 2 = n.toNat := Nat.mod_eq_of_lt n.toNat_lt

lemma toNat_mod_word (n : UInt32) : n.toNat % 256 ^ 4 = n.toNat := Nat.mod_eq_of_lt n.toNat_lt

/-- **What is read from a header that was written.** -/
theorem FileHeader.read?_encode (h : Header) (c : Class) (e : Endian) (rest : Bytes) :
    read? (h.encode c e ++ rest) = some (h.written c e) := by
  have hident : ident? (h.encode c e ++ rest) = some (c, e) := by
    simp only [Header.encode, Header.fields, List.flatten_append, flatten_identFields, List.append_assoc,
      ident?_identification]
  have hlen : c.headerSize ≤ (h.encode c e ++ rest).length := by simp
  cases c with
  | elf32 =>
    have hlong : ¬ (h.encode .elf32 e ++ rest).length < 52 := Nat.not_lt.mpr hlen
    simp only [read?, hident, if_neg hlong]
    simp only [Header.encode, Header.fields, Class.addressBytes, Class.addressBits, Nat.reduceDiv,
      List.flatten_append, flatten_identFields, List.flatten_cons, List.append_assoc]
    simp (disch := simp) only [field_append_of_le, length_identification, Endian.length_bytes, Nat.reduceSub,
      field_bytes, toNat_mod_half, toNat_mod_word]
    rfl
  | elf64 =>
    have hlong : ¬ (h.encode .elf64 e ++ rest).length < 64 := Nat.not_lt.mpr hlen
    simp only [read?, hident, if_neg hlong]
    simp only [Header.encode, Header.fields, Class.addressBytes, Class.addressBits, Nat.reduceDiv,
      List.flatten_append, flatten_identFields, List.flatten_cons, List.append_assoc]
    simp (disch := simp) only [field_append_of_le, length_identification, Endian.length_bytes, Nat.reduceSub,
      field_bytes, toNat_mod_half, toNat_mod_word]
    rfl

/-! ## Program headers -/

structure ProgramHeader where
  type : Nat
  flags : Nat
  offset : Nat
  vaddr : Nat
  paddr : Nat
  filesz : Nat
  memsz : Nat
  align : Nat
deriving DecidableEq, Repr

/-- Reads the program header at an offset of a file. -/
def ProgramHeader.read? (c : Class) (e : Endian) (file : Bytes) (start : Nat) : Option ProgramHeader :=
  match c with
  | .elf32 =>
    if file.length < start + 32 then none
    else some {
      type := field e file start 4
      offset := field e file (start + 4) 4
      vaddr := field e file (start + 8) 4
      paddr := field e file (start + 12) 4
      filesz := field e file (start + 16) 4
      memsz := field e file (start + 20) 4
      flags := field e file (start + 24) 4
      align := field e file (start + 28) 4 }
  | .elf64 =>
    if file.length < start + 56 then none
    else some {
      type := field e file start 4
      flags := field e file (start + 4) 4
      offset := field e file (start + 8) 8
      vaddr := field e file (start + 16) 8
      paddr := field e file (start + 24) 8
      filesz := field e file (start + 32) 8
      memsz := field e file (start + 40) 8
      align := field e file (start + 48) 8 }

/-- What a program header says once it is written. -/
def Segment.written (s : Segment) (c : Class) : ProgramHeader where
  type := s.type.toNat
  flags := s.flags.toNat
  offset := s.offset.toNat % 2 ^ c.addressBits
  vaddr := s.vaddr.toNat % 2 ^ c.addressBits
  paddr := s.paddr.toNat % 2 ^ c.addressBits
  filesz := s.filesz.toNat % 2 ^ c.addressBits
  memsz := s.memsz.toNat % 2 ^ c.addressBits
  align := s.align.toNat % 2 ^ c.addressBits

@[simp] lemma length_encode_segment (s : Segment) (c : Class) (e : Endian) : (s.encode c e).length = c.segmentSize := by
  cases c <;> simp [Segment.encode, Segment.fields, Class.addressBytes, Class.addressBits, Class.segmentSize]

/-- **What is read from a program header that was written,** wherever it stands. -/
theorem ProgramHeader.read?_encode (s : Segment) (c : Class) (e : Endian) {before : Bytes} {start : Nat}
    (hstart : before.length = start) (rest : Bytes) :
    read? c e (before ++ s.encode c e ++ rest) start = some (s.written c) := by
  subst hstart
  have hfield (k width : Nat) : field e (before ++ s.encode c e ++ rest) (before.length + k) width =
      field e (s.encode c e ++ rest) k width := by
    rw [List.append_assoc, field_append_add]
  have hfirst := hfield 0 4
  rw [Nat.add_zero] at hfirst
  have hlen : before.length + c.segmentSize ≤ (before ++ s.encode c e ++ rest).length := by simp
  cases c with
  | elf32 =>
    have hlong : ¬ (before ++ s.encode .elf32 e ++ rest).length < before.length + 32 := Nat.not_lt.mpr hlen
    simp only [read?, if_neg hlong, hfield, hfirst]
    simp only [Segment.encode, Segment.fields, Class.addressBytes, Class.addressBits, Nat.reduceDiv,
      List.flatten_cons, List.append_assoc]
    simp (disch := simp) only [field_append_of_le, Endian.length_bytes, Nat.reduceSub, field_bytes, toNat_mod_word]
    rfl
  | elf64 =>
    have hlong : ¬ (before ++ s.encode .elf64 e ++ rest).length < before.length + 56 := Nat.not_lt.mpr hlen
    simp only [read?, if_neg hlong, hfield, hfirst]
    simp only [Segment.encode, Segment.fields, Class.addressBytes, Class.addressBits, Nat.reduceDiv,
      List.flatten_cons, List.append_assoc]
    simp (disch := simp) only [field_append_of_le, Endian.length_bytes, Nat.reduceSub, field_bytes, toNat_mod_word]
    rfl

/-! ## Files -/

structure File where
  header : FileHeader
  segments : List ProgramHeader
deriving DecidableEq, Repr

/-- Reads the headers of a file: the program headers stand where the file header says. -/
def File.read? (file : Bytes) : Option File := do
  let header ← FileHeader.read? file
  let segments ← (List.range header.phnum).mapM fun i =>
    ProgramHeader.read? header.elfClass header.endian file (header.phoff + i * header.phentsize)
  return { header, segments }

end Elf

end TapeElf
