import TapeElf.Target.Arm64.Instr

/-!
# ARM64

A constant is loaded halfword by halfword. The first instruction fills the others with zeros, or with ones
for a negative constant, so halfwords equal to that fill need no instruction of their own.

Cells are changed in `x17`, which also takes the constants too large for an immediate operand.
-/

namespace TapeElf.Arm64

/-- The register that no role uses. -/
def scratch : Reg := 17

/-- The halfword of a constant at a bit position. -/
def halfword (v : Int) (shift : Nat) : UInt16 := UInt16.ofNat (twos 16 (v >>> shift))

/-- Moves of the halfwords of `v` at the given positions that differ from `fill`, the first of them of the
kind `lead`. -/
def moves (r : Reg) (v : Int) (fill : UInt16) (lead : Move) : List UInt8 → List Instr
  | [] => []
  | shift :: shifts =>
    let h := halfword v shift.toNat
    if h = fill then moves r v fill lead shifts
    else .movWide lead r h shift :: moves r v fill .keep shifts

def load (r : Reg) (value : Int64) : List Instr :=
  let v := value.toInt
  let (fill, lead) := if v < 0 then (0xffff, Move.invert) else (0, Move.zero)
  match moves r v fill lead [0, 16, 32, 48] with
  | [] => [.movWide lead r fill 0]
  | instrs => instrs

def change (op : AddSub) (r : Reg) (n : UInt64) : List Instr :=
  if n = 0 then []
  else if n < 0x1000 then [.addSubImm op r r n.toUInt16 false]
  else if n < 0x1000000 then
    let low := n % 0x1000
    .addSubImm op r r (n / 0x1000).toUInt16 true ::
      (if low = 0 then [] else [.addSubImm op r r low.toUInt16 false])
  else load scratch n.toInt64 ++ [.addSub op r r scratch]

def changeCell (op : AddSub) (r : Reg) (n : UInt8) : List Instr :=
  [.loadByte scratch r, .addSubImm op scratch scratch n.toUInt16 false, .storeByte scratch r]

/-- A jump on the byte a register points to. The branch is the last word of the sequence. -/
def loopJump (cond : Cond) (r : Reg) (offset : Int64) : Emission :=
  let v := offset.toInt
  if v % 4 ≠ 0 then Emission.refuse (.misalignedJump v 4)
  else if fits 21 (v + 4) then
    assemble [.loadByte scratch r, .testByte scratch, .branch cond ((v + 4) / 4)]
  else Emission.refuse (.jumpTooLong v 21)

def emit : Operation Reg → Emission
  | .load r value => assemble (load r value)
  | .copy dst src => assemble [.mov dst src]
  | .syscall => assemble [.svc]
  | .loopFiller => assemble [.brk, .nop, .nop]
  | .jumpIfZero r offset => loopJump .eq r offset
  | .jumpIfNonzero r offset => loopJump .ne r offset
  | .incReg r => assemble [.addSubImm .add r r 1 false]
  | .decReg r => assemble [.addSubImm .sub r r 1 false]
  | .incCell r => assemble (changeCell .add r 1)
  | .decCell r => assemble (changeCell .sub r 1)
  | .addReg r n => assemble (change .add r n)
  | .subReg r n => assemble (change .sub r n)
  | .addCell r n => assemble (changeCell .add r n)
  | .subCell r n => assemble (changeCell .sub r n)
  | .clearCell r => assemble [.storeZero r]

def backend : Backend where
  Reg := Reg
  name := "arm64"
  registers := List.finRange 31
  regName r := "x" ++ r.val.repr
  regNumber r := r.val
  jumpSize := 12
  roles := { call := 8, arg1 := 0, arg2 := 1, arg3 := 2, tape := 19 }
  syscalls := { read := 63, write := 64, exit := 93 }
  machine := 183
  elfClass := .elf64
  flags := 0
  endian := .little
  emit := emit

end TapeElf.Arm64
