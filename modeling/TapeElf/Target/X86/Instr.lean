import TapeElf.Target.Backend

/-!
# x86 instructions

Instructions of both x86 targets in their 32-bit form; `wide` puts the prefix before one that makes its
operands 64 bits wide. Registers are numbers: a register field keeps the low three bits of one.

An instruction is `encodable` if its form exists. The byte that a register points to is named without
displacement, and there is no such form for the numbers 4 and 5; a register that is part of the opcode
must leave the opcode a byte.
-/

namespace TapeElf.X86

inductive Arith where
  | add | sub
deriving DecidableEq, Repr

inductive Cond where
  | zero | nonzero
deriving DecidableEq, Repr

/-- The number that selects an operation in an opcode with an immediate operand. -/
def Arith.digit : Arith → UInt8
  | add => 0
  | sub => 5

/-- The opcode of an operation between registers. -/
def Arith.opcode : Arith → UInt8
  | add => 0x01
  | sub => 0x29

/-- The low bits of the opcode of a jump. -/
def Cond.code : Cond → UInt8
  | zero => 4
  | nonzero => 5

/-! ## Operand bytes -/

/-- The prefix byte; `wide` selects 64-bit operands. -/
def rex (wide : Bool) : UInt8 := if wide then 0x48 else 0x40

/-- The operand byte: a mode, a register or opcode digit, and a register or memory operand. -/
def operand (mode reg rm : UInt8) : UInt8 := mode <<< 6 ||| (reg &&& 7) <<< 3 ||| (rm &&& 7)

/-- Two registers. -/
def direct (reg rm : UInt8) : UInt8 := operand 3 reg rm

/-- An opcode digit and the byte that a register points to. -/
def indirect (digit rm : UInt8) : UInt8 := operand 0 digit rm

/-- The registers that can point to a byte without displacement. -/
def canPoint (rm : UInt8) : Bool := rm != 4 && rm != 5

/-! ## Instructions -/

inductive Instr where
  /-- Clears a register. -/
  | xorSelf (r : UInt8)
  /-- Loads a word, the rest of a 64-bit register becoming zero. -/
  | movImm (r : UInt8) (imm : UInt32)
  /-- Loads a word, sign-extended where the operand is wide. -/
  | movSigned (r : UInt8) (imm : Int32)
  /-- Loads 64 bits. -/
  | movWide (r : UInt8) (imm : UInt64)
  | mov (dst src : UInt8)
  | inc (r : UInt8) | dec (r : UInt8)
  | arithByte (op : Arith) (r : UInt8) (imm : Int8)
  | arithWord (op : Arith) (r : UInt8) (imm : UInt32)
  | arith (op : Arith) (dst src : UInt8)
  | incMem (r : UInt8) | decMem (r : UInt8)
  | arithMem (op : Arith) (r imm : UInt8)
  | movMem (r imm : UInt8)
  | testMem (r imm : UInt8)
  /-- Jumps relative to the end of the instruction. -/
  | jcc (cond : Cond) (offset : Int32)
  /-- Traps. -/
  | ud2
  | nop
  | syscall
  | int80
  /-- The instruction with 64-bit operands. -/
  | wide (i : Instr)
deriving DecidableEq, Repr

namespace Instr

def encode : Instr → Bytes
  | xorSelf r => [0x31, direct r r]
  | movImm r imm => (0xb8 + r) :: littleBytes 4 imm.toNat
  | movSigned r imm => 0xc7 :: direct 0 r :: littleBytes 4 (twos 32 imm.toInt)
  | movWide r imm => rex true :: (0xb8 + r) :: littleBytes 8 imm.toNat
  | mov dst src => [0x89, direct src dst]
  | inc r => [0xff, direct 0 r]
  | dec r => [0xff, direct 1 r]
  | arithByte op r imm => [0x83, direct op.digit r, UInt8.ofNat (twos 8 imm.toInt)]
  | arithWord op r imm => 0x81 :: direct op.digit r :: littleBytes 4 imm.toNat
  | arith op dst src => [op.opcode, direct src dst]
  | incMem r => [0xfe, indirect 0 r]
  | decMem r => [0xfe, indirect 1 r]
  | arithMem op r imm => [0x80, indirect op.digit r, imm]
  | movMem r imm => [0xc6, indirect 0 r, imm]
  | testMem r imm => [0xf6, indirect 0 r, imm]
  | jcc cond offset => 0x0f :: (0x80 ||| cond.code) :: littleBytes 4 (twos 32 offset.toInt)
  | ud2 => [0x0f, 0x0b]
  | nop => [0x90]
  | syscall => [0x0f, 0x05]
  | int80 => [0xcd, 0x80]
  | wide i => rex true :: i.encode

/-- Whether the form of an instruction exists. -/
def encodable : Instr → Bool
  | movImm r _ | movWide r _ => r.toNat + 0xb8 < 256
  | incMem r | decMem r | arithMem _ r _ | movMem r _ | testMem r _ => canPoint r
  | wide i => i.encodable
  | _ => true

end Instr

/-- The code of a list of instructions, all of which must exist. -/
def assemble (instrs : List Instr) : Emission :=
  if instrs.all Instr.encodable then { bytes := instrs.flatMap Instr.encode } else Emission.defect

/-! ## Registers -/

inductive Reg where
  | ax | cx | dx | bx | sp | bp | si | di
deriving DecidableEq, Repr

namespace Reg

def all : List Reg := [ax, cx, dx, bx, sp, bp, si, di]

def number : Reg → UInt8
  | ax => 0 | cx => 1 | dx => 2 | bx => 3 | sp => 4 | bp => 5 | si => 6 | di => 7

/-- The name of a register without its width. -/
def name : Reg → String
  | ax => "ax" | cx => "cx" | dx => "dx" | bx => "bx" | sp => "sp" | bp => "bp" | si => "si" | di => "di"

end Reg

/-! ## Loops -/

/-- The size of a loop jump: a test of three bytes and a jump of six. -/
def jumpSize : Nat := 9

/-- A jump on the byte a register points to. -/
def loopJump (cond : Cond) (r : Reg) (offset : Int64) : Emission :=
  if fits 32 offset.toInt then assemble [.testMem r.number 0xff, .jcc cond (Int32.ofInt offset.toInt)]
  else Emission.refuse (.jumpTooLong offset.toInt 32)

/-- A trap, padded to the size of a loop jump. -/
def loopFiller : Emission := assemble (.ud2 :: List.replicate (jumpSize - 2) .nop)

end TapeElf.X86
