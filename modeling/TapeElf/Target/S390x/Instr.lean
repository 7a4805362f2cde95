import TapeElf.Target.Backend

/-!
# z/Architecture instructions

Instructions have two, four or six bytes, and their immediate operands are written most significant byte
first. A memory operand is the byte that a register points to, named as an index without base or
displacement.
-/

namespace TapeElf.S390x

/-- The registers that generated code uses. `r0` is never written, so it holds zero throughout. -/
inductive Reg where
  | r0 | r1 | r2 | r3 | r4 | r5 | r8
deriving DecidableEq, Repr

namespace Reg

def all : List Reg := [r0, r1, r2, r3, r4, r5, r8]

def number : Reg → Nat
  | r0 => 0 | r1 => 1 | r2 => 2 | r3 => 3 | r4 => 4 | r5 => 5 | r8 => 8

def name (r : Reg) : String := "%r" ++ r.number.repr

end Reg

/-- The conditions of a branch. -/
inductive Mask where
  | eq | ne | always
deriving DecidableEq, Repr

/-- The field of a condition, a bit for each condition code. -/
def Mask.code : Mask → Nat
  | eq => 8
  | ne => 6
  | always => 15

/-- An instruction. Bits of a register are counted from the most significant one. -/
inductive Instr where
  | lgr (dst src : Reg)
  /-- Loads a sign-extended halfword. -/
  | lghi (r : Reg) (imm : Int16)
  /-- Loads a sign-extended word. -/
  | lgfi (r : Reg) (imm : Int32)
  /-- Replaces bits 0 to 15. -/
  | iihh (r : Reg) (imm : UInt16)
  /-- Replaces bits 16 to 31. -/
  | iihl (r : Reg) (imm : UInt16)
  /-- Replaces bits 0 to 31. -/
  | iihf (r : Reg) (imm : UInt32)
  /-- Loads a zero-extended byte. -/
  | llgc (r index : Reg)
  /-- Stores the low byte. -/
  | stc (r index : Reg)
  | aghi (r : Reg) (imm : Int16)
  | agfi (r : Reg) (imm : Int32)
  /-- Adds to bits 0 to 31 only. -/
  | aih (r : Reg) (imm : Int32)
  /-- Compares the low word with a constant. -/
  | cfi (r : Reg) (imm : Int32)
  /-- Branches by a number of halfwords from its own address. -/
  | brc (mask : Mask) (halfwords : Int16)
  | brcl (mask : Mask) (halfwords : Int32)
  | svc
  | nop
  | nopr
deriving DecidableEq, Repr

/-! ## Formats -/

def nibbles (high low : Nat) : UInt8 := UInt8.ofNat (high * 16 + low)

/-- An opcode of twelve bits, of which a field splits off the last four. -/
def head (opcode field : Nat) : Bytes := [UInt8.ofNat (opcode / 16), nibbles field (opcode % 16)]

/-- A field and a halfword. -/
def formatRI (opcode field : Nat) (imm : Nat) : Bytes := head opcode field ++ bigBytes 2 imm

/-- A field and a word. -/
def formatRIL (opcode field : Nat) (imm : Nat) : Bytes := head opcode field ++ bigBytes 4 imm

def Instr.encode : Instr → Bytes
  | lgr dst src => [0xb9, 0x04, 0x00, nibbles dst.number src.number]
  | lghi r imm => formatRI 0xa79 r.number (twos 16 imm.toInt)
  | lgfi r imm => formatRIL 0xc01 r.number (twos 32 imm.toInt)
  | iihh r imm => formatRI 0xa50 r.number imm.toNat
  | iihl r imm => formatRI 0xa51 r.number imm.toNat
  | iihf r imm => formatRIL 0xc08 r.number imm.toNat
  | llgc r index => [0xe3, nibbles r.number index.number, 0x00, 0x00, 0x00, 0x90]
  | stc r index => [0x42, nibbles r.number index.number, 0x00, 0x00]
  | aghi r imm => formatRI 0xa7b r.number (twos 16 imm.toInt)
  | agfi r imm => formatRIL 0xc28 r.number (twos 32 imm.toInt)
  | aih r imm => formatRIL 0xcc8 r.number (twos 32 imm.toInt)
  | cfi r imm => formatRIL 0xc2d r.number (twos 32 imm.toInt)
  | brc mask halfwords => formatRI 0xa74 mask.code (twos 16 halfwords.toInt)
  | brcl mask halfwords => formatRIL 0xc04 mask.code (twos 32 halfwords.toInt)
  | svc => [0x0a, 0x00]
  | nop => [0x47, 0x00, 0x00, 0x00]
  | nopr => [0x07, 0x00]

@[inherit_doc Emission.assemble]
abbrev assemble : List Instr → Emission := Emission.assemble Instr.encode

end TapeElf.S390x
