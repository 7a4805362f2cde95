import TapeElf.Target.X86.Instr

/-!
# x86-64

A constant is loaded in the shortest of four forms. A register is changed by an immediate operand of one
byte or one word; what fits neither goes through `cx`.
-/

namespace TapeElf.X86.Long

def load (r : Reg) (value : Int64) : List Instr :=
  let v := value.toInt
  if v = 0 then [.xorSelf r.number]
  else if 0 ≤ v ∧ v < UInt32.size then [.movImm r.number (UInt32.ofNat v.toNat)]
  else if fits 32 v then [.wide (.movSigned r.number (Int32.ofInt v))]
  else [.movWide r.number value.toUInt64]

def change (op : Arith) (r : Reg) (n : UInt64) : List Instr :=
  if n = 0 then []
  else if n ≤ 0x7f then [.wide (.arithByte op r.number n.toUInt8.toInt8)]
  else if n ≤ 0x7fffffff then [.wide (.arithWord op r.number n.toUInt32)]
  else load .cx n.toInt64 ++ [.wide (.arith op r.number Reg.cx.number)]

def emit : Operation Reg → Emission
  | .load r value => assemble (load r value)
  | .copy dst src => assemble [.wide (.mov dst.number src.number)]
  | .syscall => assemble [.syscall]
  | .loopFiller => loopFiller
  | .jumpIfZero r offset => loopJump .zero r offset
  | .jumpIfNonzero r offset => loopJump .nonzero r offset
  | .incReg r => assemble [.wide (.inc r.number)]
  | .decReg r => assemble [.wide (.dec r.number)]
  | .incCell r => assemble [.incMem r.number]
  | .decCell r => assemble [.decMem r.number]
  | .addReg r n => assemble (change .add r n)
  | .subReg r n => assemble (change .sub r n)
  | .addCell r n => assemble [.arithMem .add r.number n]
  | .subCell r n => assemble [.arithMem .sub r.number n]
  | .clearCell r => assemble [.movMem r.number 0]

def backend : Backend where
  Reg := Reg
  name := "x86_64"
  registers := Reg.all
  regName r := "r" ++ r.name
  regNumber r := r.number.toNat
  jumpSize := jumpSize
  roles := { call := .ax, arg1 := .di, arg2 := .si, arg3 := .dx, tape := .bx }
  syscalls := { read := 0, write := 1, exit := 60 }
  machine := 62
  elfClass := .elf64
  flags := 0
  endian := .little
  emit := emit

end TapeElf.X86.Long
