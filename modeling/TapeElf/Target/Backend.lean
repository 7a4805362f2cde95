import TapeElf.Diagnostic
import TapeElf.Elf.Class

/-!
# What a target provides

* `Operation`: what generated code can be made of, the same on every target. Jump offsets are measured in
  bytes from the end of the jump sequence.
* `Emission`: the bytes an operation leaves in the code, and why it stopped, if it did. An operation may
  leave bytes and fail.
* `Backend`: the registers, the system calls and the executable format of a target, and the encoding of
  every operation.
-/

namespace TapeElf

/-! ## Operations -/

/-- An operation on the registers `Reg` of a target. `cell` operations act on the byte that a register
points to. -/
inductive Operation (Reg : Type) where
  | load (r : Reg) (value : Int64)
  | copy (dst src : Reg)
  | syscall
  /-- What stands in for the opening jump of a loop until the loop is closed. -/
  | loopFiller
  | jumpIfZero (r : Reg) (offset : Int64)
  | jumpIfNonzero (r : Reg) (offset : Int64)
  | incReg (r : Reg) | decReg (r : Reg)
  | incCell (r : Reg) | decCell (r : Reg)
  | addReg (r : Reg) (n : UInt64) | subReg (r : Reg) (n : UInt64)
  | addCell (r : Reg) (n : UInt8) | subCell (r : Reg) (n : UInt8)
  | clearCell (r : Reg)

/-! ## Emissions -/

/-- The outcome of encoding: the bytes to append, and the fault after them. -/
structure Emission where
  bytes : Bytes
  fault : Option Fault := none
deriving DecidableEq, Repr

namespace Emission

/-- Nothing is left but a failure. -/
def refuse (c : Cause) : Emission := { bytes := [], fault := some c.fault }

/-- A promise was broken before anything could be encoded. -/
def defect : Emission := { bytes := [], fault := some .defect }

/-- The code of a list of instructions. -/
def assemble {Instr : Type} (encode : Instr → Bytes) (instrs : List Instr) : Emission :=
  { bytes := instrs.flatMap encode }

section

variable {Instr : Type} {encode : Instr → Bytes}

theorem bytes_assemble_append (a b : List Instr) :
    (assemble encode (a ++ b)).bytes = (assemble encode a).bytes ++ (assemble encode b).bytes :=
  List.flatMap_append

theorem bytes_assemble_cons (i : Instr) (instrs : List Instr) :
    (assemble encode (i :: instrs)).bytes = encode i ++ (assemble encode instrs).bytes :=
  List.flatMap_cons

theorem bytes_assemble_singleton (i : Instr) : (assemble encode [i]).bytes = encode i := List.flatMap_singleton ..

end

end Emission

/-! ## Backends -/

/-- The registers that generated code uses: the number of a system call, its arguments, and the address of
the current cell. -/
structure Roles (Reg : Type) where
  call : Reg
  arg1 : Reg
  arg2 : Reg
  arg3 : Reg
  tape : Reg

structure Syscalls where
  read : Int64
  write : Int64
  exit : Int64

/-- A target. -/
structure Backend where
  Reg : Type
  name : String
  /-- The registers, with their names and numbers. -/
  registers : List Reg
  regName : Reg → String
  regNumber : Reg → Nat
  /-- The size of the filler of a loop and of every jump. -/
  jumpSize : Nat
  roles : Roles Reg
  syscalls : Syscalls
  machine : UInt16
  elfClass : Elf.Class
  flags : UInt32
  endian : Endian
  emit : Operation Reg → Emission

def Backend.reg? (b : Backend) (name : String) : Option b.Reg := b.registers.find? (b.regName · == name)

end TapeElf
