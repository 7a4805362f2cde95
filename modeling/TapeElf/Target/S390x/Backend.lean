import TapeElf.Target.S390x.Instr

/-!
# s390x

Zero is copied from `r0`, which generated code never writes. A large constant is loaded as a sign-extended
low word; then whatever of the high word that did not set is inserted.

Cells are changed in `r5`.
-/

namespace TapeElf.S390x

/-- The register that no role uses. -/
def scratch : Reg := .r5

def loadWord (r : Reg) (v : Int) : Instr :=
  if v = 0 then .lgr r .r0
  else if fits 16 v then .lghi r (Int16.ofInt v)
  else .lgfi r (Int32.ofInt v)

/-- Inserts the high word of a constant over copies of the sign of its low word. -/
def insertHigh (r : Reg) (low : Int) (high : Nat) : Instr :=
  let fill := if low < 0 then 0xffff else 0
  if high >>> 16 = fill then .iihl r (UInt16.ofNat high)
  else if high % 0x10000 = fill then .iihh r (UInt16.ofNat (high >>> 16))
  else .iihf r (UInt32.ofNat high)

def load (r : Reg) (value : Int64) : List Instr :=
  let v := value.toInt
  if fits 32 v then [loadWord r v]
  else
    let low := signed 32 v
    [loadWord r low, insertHigh r low (twos 32 (v / 0x100000000))]

def changeWord (r : Reg) (v : Int) : Instr :=
  if fits 16 v then .aghi r (Int16.ofInt v) else .agfi r (Int32.ofInt v)

/-- Adds a signed number to a register: a sign-extended low word, and to the high word what is left. -/
def change (r : Reg) (v : Int) : List Instr :=
  if fits 32 v then [changeWord r v]
  else
    let low := signed 32 v
    (if low = 0 then [] else [changeWord r low]) ++ [.aih r (Int32.ofInt ((v - low) / 0x100000000))]

def changeCell (r : Reg) (v : Int) : List Instr := .llgc scratch r :: change scratch v ++ [.stc scratch r]

/-- A jump on the byte a register points to. The branch is the last six bytes of the sequence. -/
def loopJump (mask : Mask) (r : Reg) (offset : Int64) : Emission :=
  let v := offset.toInt
  if v % 2 ≠ 0 then Emission.refuse (.misalignedJump v 2)
  else if fits 33 (v + 6) then
    assemble [.llgc scratch r, .cfi scratch 0, .brcl mask (Int32.ofInt ((v + 6) / 2))]
  else Emission.refuse (.jumpTooLong v 33)

def emit : Operation Reg → Emission
  | .load r value => assemble (load r value)
  | .copy dst src => assemble [.lgr dst src]
  | .syscall => assemble [.svc]
  | .loopFiller => assemble [.brc .always 1, .nop, .nop, .nop, .nopr]
  | .jumpIfZero r offset => loopJump .eq r offset
  | .jumpIfNonzero r offset => loopJump .ne r offset
  | .incReg r => assemble (change r 1)
  | .decReg r => assemble (change r (-1))
  | .incCell r => assemble (changeCell r 1)
  | .decCell r => assemble (changeCell r (-1))
  | .addReg r n => assemble (change r n.toInt64.toInt)
  | .subReg r n => assemble (change r (-n.toInt64).toInt)
  | .addCell r n => assemble (changeCell r n.toNat)
  | .subCell r n => assemble (changeCell r (-n.toNat))
  | .clearCell r => assemble [.stc .r0 r]

/-- The s390x target, the only one whose executables are big-endian. -/
def backend : Backend where
  Reg := Reg
  name := "s390x"
  registers := Reg.all
  regName := Reg.name
  regNumber := Reg.number
  jumpSize := 18
  roles := { call := .r1, arg1 := .r2, arg2 := .r3, arg3 := .r4, tape := .r8 }
  syscalls := { read := 3, write := 4, exit := 1 }
  machine := 22
  elfClass := .elf64
  flags := 0
  endian := .big
  emit := emit

end TapeElf.S390x
