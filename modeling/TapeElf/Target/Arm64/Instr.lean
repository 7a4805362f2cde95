import TapeElf.Target.Backend

/-!
# ARM64 instructions

Every instruction is one word, written least significant byte first. A word is the sum of its fields, each
shifted to its place: the fields do not overlap.
-/

namespace TapeElf.Arm64

/-- A general purpose register, by number. -/
abbrev Reg := Fin 31

/-- The number that names the zero register where an instruction reads it. -/
def zeroReg : Nat := 31

/-- How a halfword is moved: inverted, with zeros around it, or keeping the rest. -/
inductive Move where
  | invert | zero | keep
deriving DecidableEq, Repr

inductive AddSub where
  | add | sub
deriving DecidableEq, Repr

inductive Cond where
  | eq | ne
deriving DecidableEq, Repr

def Move.code : Move → Nat
  | invert => 0
  | zero => 2
  | keep => 3

def Cond.code : Cond → Nat
  | eq => 0
  | ne => 1

inductive Instr where
  /-- Moves the halfword `imm` to the halfword at bit `shift`. `imm` is what the register holds there
  afterwards, also where the instruction inverts it. -/
  | movWide (kind : Move) (rd : Reg) (imm : UInt16) (shift : UInt8)
  /-- Adds twelve bits, shifted left by twelve if `high`. -/
  | addSubImm (op : AddSub) (rd rn : Reg) (imm : UInt16) (high : Bool)
  | addSub (op : AddSub) (rd rn rm : Reg)
  | mov (rd rm : Reg)
  /-- Sets the flags by the low byte of a register. -/
  | testByte (rn : Reg)
  | loadByte (rt rn : Reg)
  | storeByte (rt rn : Reg)
  | storeZero (rn : Reg)
  /-- Branches by a number of words from its own address. -/
  | branch (cond : Cond) (words : Int)
  | svc
  /-- Traps. -/
  | brk
  | nop
deriving DecidableEq, Repr

namespace Instr

/-- The word of an instruction. The four bits of a move at 21 are the halfword to move to, and a fixed bit
within them. -/
def word : Instr → Nat
  | movWide kind rd imm shift =>
    let imm := if kind = .invert then 0xffff - imm.toNat else imm.toNat
    0x92000000 + kind.code <<< 29 + (shift.toNat / 16 ||| 4) <<< 21 + imm <<< 5 + rd.val
  | addSubImm op rd rn imm high =>
    (match op with | .add => 0x91000000 | .sub => 0xd1000000) +
      (if high then 1 <<< 22 else 0) + (imm.toNat % 0x1000) <<< 10 + rn.val <<< 5 + rd.val
  | addSub op rd rn rm =>
    (match op with | .add => 0x8b000000 | .sub => 0xcb000000) + rm.val <<< 16 + rn.val <<< 5 + rd.val
  | mov rd rm => 0xaa0003e0 + rm.val <<< 16 + rd.val
  | testByte rn => 0xf2401c00 + rn.val <<< 5 + zeroReg
  | loadByte rt rn => 0x38400400 + rn.val <<< 5 + rt.val
  | storeByte rt rn => 0x38000400 + rn.val <<< 5 + rt.val
  | storeZero rn => 0x38000400 + rn.val <<< 5 + zeroReg
  | branch cond words => 0x54000000 + twos 19 words <<< 5 + cond.code
  | svc => 0xd4000001
  | brk => 0xd4200020
  | nop => 0xd503201f

def encode (i : Instr) : Bytes := littleBytes 4 i.word

end Instr

@[inherit_doc Emission.assemble]
abbrev assemble : List Instr → Emission := Emission.assemble Instr.encode

end TapeElf.Arm64
