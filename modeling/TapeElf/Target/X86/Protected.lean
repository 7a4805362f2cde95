import TapeElf.Target.X86.Instr

/-!
# i386

Registers hold 32 bits. A number that does not fit is cut to its low word; the code for that word is
emitted, and the failure reported after it.
-/

namespace TapeElf.X86.Protected

/-- The emission, followed by a failure if `value` does not fit a register. -/
def checked (ok : Bool) (value : Int) (e : Emission) : Emission :=
  if ok then e else { e with fault := e.fault <|> some (Cause.immediateTooLarge value).fault }

def load (r : Reg) (value : Int64) : Emission :=
  let v := value.toInt
  if v = 0 then assemble [.xorSelf r.number]
  else checked (-0x80000000 ≤ v && v < UInt32.size) v (assemble [.movImm r.number value.toUInt64.toUInt32])

def change (op : Arith) (r : Reg) (n : UInt64) : Emission :=
  if n = 0 then assemble []
  else if n ≤ 0x7f then assemble [.arithByte op r.number n.toUInt8.toInt8]
  else checked (n.toNat < UInt32.size) n.toNat (assemble [.arithWord op r.number n.toUInt32])

def emit : Operation Reg → Emission
  | .load r value => load r value
  | .copy dst src => assemble [.mov dst.number src.number]
  | .syscall => assemble [.int80]
  | .loopFiller => loopFiller
  | .jumpIfZero r offset => loopJump .zero r offset
  | .jumpIfNonzero r offset => loopJump .nonzero r offset
  | .incReg r => assemble [.inc r.number]
  | .decReg r => assemble [.dec r.number]
  | .incCell r => assemble [.incMem r.number]
  | .decCell r => assemble [.decMem r.number]
  | .addReg r n => change .add r n
  | .subReg r n => change .sub r n
  | .addCell r n => assemble [.arithMem .add r.number n]
  | .subCell r n => assemble [.arithMem .sub r.number n]
  | .clearCell r => assemble [.movMem r.number 0]

def backend : Backend where
  Reg := Reg
  name := "i386"
  registers := Reg.all
  regName r := "e" ++ r.name
  regNumber r := r.number.toNat
  jumpSize := jumpSize
  roles := { call := .ax, arg1 := .bx, arg2 := .cx, arg3 := .dx, tape := .si }
  syscalls := { read := 3, write := 4, exit := 1 }
  machine := 3
  elfClass := .elf32
  flags := 0
  endian := .little
  emit := emit

end TapeElf.X86.Protected
