import TapeElf.Target.Riscv64.Constant

/-!
# RISC-V

Code is only aligned to halfwords, because compressed instructions are used. A branch reaches too few bytes
for a loop, so a loop jump is a branch on the opposite condition over an unconditional jump.

Cells are changed in `t1`, which also takes the constants too large for an immediate operand.
-/

namespace TapeElf.Riscv64

/-- The register that no role uses. -/
def scratch : Reg := .t1

def change (r : Reg) (v : Int) : List Instr :=
  if v = 0 then []
  else if fits 6 v then [.cAddi r v]
  else if fits 12 v then [.addi r r v]
  else constant scratch v ++ [.cAdd r scratch]

def changeCell (r : Reg) (v : Int) : List Instr :=
  if v = 0 then []
  else [.lb scratch r, if fits 6 v then .cAddi scratch v else .addi scratch scratch v, .sb scratch r]

/-- A jump on the byte a register points to, which is passed by if the byte meets `skip`. The jump is the
last word of the sequence. -/
def loopJump (skip : Cond) (r : Reg) (offset : Int64) : Emission :=
  let v := offset.toInt
  if v % 2 ≠ 0 then Emission.refuse (.misalignedJump v 2)
  else if fits 21 (v + 4) then assemble [.lb scratch r, .branch skip scratch 8, .jal .zero (v + 4)]
  else Emission.refuse (.jumpTooLong v 21)

def emit : Operation Reg → Emission
  | .load r value => assemble (constant r value.toInt)
  | .copy dst src => assemble [.cMv dst src]
  | .syscall => assemble [.ecall]
  | .loopFiller => assemble [.nop, .nop, .nop]
  | .jumpIfZero r offset => loopJump .ne r offset
  | .jumpIfNonzero r offset => loopJump .eq r offset
  | .incReg r => assemble [.cAddi r 1]
  | .decReg r => assemble [.cAddi r (-1)]
  | .incCell r => assemble (changeCell r 1)
  | .decCell r => assemble (changeCell r (-1))
  | .addReg r n => assemble (change r n.toInt64.toInt)
  | .subReg r n => assemble (change r (-n.toInt64).toInt)
  | .addCell r n => assemble (changeCell r n.toInt8.toInt)
  | .subCell r n => assemble (changeCell r (-n.toInt8).toInt)
  | .clearCell r => assemble [.sb .zero r]

/-- The RISC-V target. Its flags say that the code has compressed instructions and passes floating-point
numbers in registers. -/
def backend : Backend where
  Reg := Reg
  name := "riscv64"
  registers := Reg.all
  regName := Reg.name
  regNumber := Reg.number
  jumpSize := 12
  roles := { call := .a7, arg1 := .a0, arg2 := .a1, arg3 := .a2, tape := .s0 }
  syscalls := { read := 63, write := 64, exit := 93 }
  machine := 243
  elfClass := .elf64
  flags := 5
  endian := .little
  emit := emit

end TapeElf.Riscv64
