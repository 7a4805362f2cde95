import TapeElf.Target.Backend

/-!
# RISC-V instructions

Base instructions are one word, compressed ones a halfword, both written least significant byte first. A
word is the sum of its fields, each shifted to its place: the fields do not overlap. An immediate operand
is cut to the bits its field has room for.
-/

namespace TapeElf.Riscv64

/-- The registers that generated code uses. -/
inductive Reg where
  | zero | t1 | s0 | a0 | a1 | a2 | a7
deriving DecidableEq, Repr

namespace Reg

def all : List Reg := [zero, t1, s0, a0, a1, a2, a7]

def number : Reg → Nat
  | zero => 0 | t1 => 6 | s0 => 8 | a0 => 10 | a1 => 11 | a2 => 12 | a7 => 17

def name : Reg → String
  | zero => "zero" | t1 => "t1" | s0 => "s0" | a0 => "a0" | a1 => "a1" | a2 => "a2" | a7 => "a7"

end Reg

/-- The comparisons of a branch with zero. -/
inductive Cond where
  | eq | ne
deriving DecidableEq, Repr

def Cond.code : Cond → Nat
  | eq => 0
  | ne => 1

/-- An instruction; the names that start with `c` are the compressed forms. -/
inductive Instr where
  | addi (rd rs : Reg) (imm : Int)
  | addiw (rd rs : Reg) (imm : Int)
  | lui (rd : Reg) (imm : Int)
  | lb (rd rs : Reg)
  | sb (src rs : Reg)
  | branch (cond : Cond) (rs : Reg) (offset : Int)
  | jal (rd : Reg) (offset : Int)
  | ecall
  | cAddi (rd : Reg) (imm : Int)
  | cAddiw (rd : Reg) (imm : Int)
  | cLi (rd : Reg) (imm : Int)
  | cLui (rd : Reg) (imm : Int)
  | cSlli (rd : Reg) (shift : Nat)
  | cMv (rd rs : Reg)
  | cAdd (rd rs : Reg)
deriving DecidableEq, Repr

def Instr.nop : Instr := .addi .zero .zero 0

/-! ## Formats -/

/-- Bits `low` up to `low + width` of a number. -/
def bits (n low width : Nat) : Nat := n >>> low % 1 <<< width

/-- A register, a register and twelve bits. -/
def formatI (opcode : Nat) (rd rs : Reg) (imm : Int) : Nat :=
  twos 12 imm <<< 20 + rs.number <<< 15 + rd.number <<< 7 + opcode

/-- A branch: the thirteen bits of its even offset, out of order. -/
def formatB (cond : Cond) (rs : Reg) (offset : Int) : Nat :=
  let off := twos 13 offset
  bits off 12 1 <<< 31 + bits off 5 6 <<< 25 + rs.number <<< 15 + cond.code <<< 12 +
    bits off 1 4 <<< 8 + bits off 11 1 <<< 7 + 0x63

/-- A jump: the twenty-one bits of its even offset, out of order. -/
def formatJ (rd : Reg) (offset : Int) : Nat :=
  let off := twos 21 offset
  bits off 20 1 <<< 31 + bits off 1 10 <<< 21 + bits off 11 1 <<< 20 + bits off 12 8 <<< 12 +
    rd.number <<< 7 + 0x6f

/-- Compressed: a register and six bits, of which the highest stands apart. -/
def formatCI (opcode : Nat) (rd : Reg) (imm : Int) : Nat :=
  let imm := twos 6 imm
  opcode + bits imm 5 1 <<< 12 + rd.number <<< 7 + bits imm 0 5 <<< 2

/-- Compressed: two registers. -/
def formatCR (opcode : Nat) (rd rs : Reg) : Nat := opcode + rd.number <<< 7 + rs.number <<< 2

def Instr.encode : Instr → Bytes
  | addi rd rs imm => littleBytes 4 (formatI 0x13 rd rs imm)
  | addiw rd rs imm => littleBytes 4 (formatI 0x1b rd rs imm)
  | lui rd imm => littleBytes 4 (twos 20 imm <<< 12 + rd.number <<< 7 + 0x37)
  | lb rd rs => littleBytes 4 (formatI 0x03 rd rs 0)
  | sb src rs => littleBytes 4 (src.number <<< 20 + rs.number <<< 15 + 0x23)
  | branch cond rs offset => littleBytes 4 (formatB cond rs offset)
  | jal rd offset => littleBytes 4 (formatJ rd offset)
  | ecall => littleBytes 4 0x73
  | cAddi rd imm => littleBytes 2 (formatCI 0x0001 rd imm)
  | cAddiw rd imm => littleBytes 2 (formatCI 0x2001 rd imm)
  | cLi rd imm => littleBytes 2 (formatCI 0x4001 rd imm)
  | cLui rd imm => littleBytes 2 (formatCI 0x6001 rd imm)
  | cSlli rd shift => littleBytes 2 (formatCI 0x0002 rd shift)
  | cMv rd rs => littleBytes 2 (formatCR 0x8002 rd rs)
  | cAdd rd rs => littleBytes 2 (formatCR 0x9002 rd rs)

@[inherit_doc Emission.assemble]
abbrev assemble : List Instr → Emission := Emission.assemble Instr.encode

end TapeElf.Riscv64
