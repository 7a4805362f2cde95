import TapeElf.Proofs.Execution
import TapeElf.Proofs.Processor
import TapeElf.Target.X86.Instr

/-!
# An x86-64 processor under Linux

The part of the processor and of the system that generated code meets: instructions are decoded from the bytes of
the code, and every instruction has its meaning on a `Machine`.

* `decode`: the instruction at the front of some bytes, and what follows it. The prefix `48` makes operands 64 bits
  wide; an operand byte is a mode of two bits and two fields of three bits.
* `Machine`: registers by number, the zero flag, the data memory, and what the system knows. Code is no part of the
  data memory.
* `World`: what the machine cannot know: the input, the addresses that hold data, and what a system call leaves in
  the registers and flags that it may change (`rax`, `rcx`, `r11`, the flags).
* `step`, `run`: fetch, decode, execute. A machine traps, and has no next state, if it executes bytes that are no
  instruction, or uses an address that holds no data, or makes a system call other than to read or write one byte
  of the standard streams, or to exit. After an exit it stays as it is.

Of the flags only the zero flag is modelled, since no instruction here reads another.
-/

namespace TapeElf.X86

/-! ## Decoding -/

/-- The number that the first `width` bytes spell, least significant first, and what follows them. -/
def takeLittle : Nat → Bytes → Option (Nat × Bytes)
  | 0, bytes => some (0, bytes)
  | _ + 1, [] => none
  | width + 1, b :: bytes => (takeLittle width bytes).map fun (n, rest) => (b.toNat + 256 * n, rest)

/-- The additive operation of an opcode digit. -/
def Arith.ofDigit? (digit : UInt8) : Option Arith :=
  if digit = 0 then some add else if digit = 5 then some sub else none

/-- Instructions on registers: `reg` is a register or a digit, `rm` a register. -/
def decodeDirect (opcode reg rm : UInt8) (rest : Bytes) : Option (Instr × Bytes) :=
  if opcode = 0x31 then if reg = rm then some (.xorSelf rm, rest) else none
  else if opcode = 0x89 then some (.mov rm reg, rest)
  else if opcode = 0x01 then some (.arith .add rm reg, rest)
  else if opcode = 0x29 then some (.arith .sub rm reg, rest)
  else if opcode = 0xff then
    if reg = 0 then some (.inc rm, rest) else if reg = 1 then some (.dec rm, rest) else none
  else if opcode = 0xc7 then
    if reg = 0 then (takeLittle 4 rest).map fun (n, rest) => (.movSigned rm (UInt32.ofNat n).toInt32, rest) else none
  else if opcode = 0x83 then
    (Arith.ofDigit? reg).bind fun op =>
      (takeLittle 1 rest).map fun (n, rest) => (.arithByte op rm (UInt8.ofNat n).toInt8, rest)
  else if opcode = 0x81 then
    (Arith.ofDigit? reg).bind fun op =>
      (takeLittle 4 rest).map fun (n, rest) => (.arithWord op rm (UInt32.ofNat n), rest)
  else none

/-- Instructions on the byte that the register `rm` points to: `digit` is part of the opcode. -/
def decodeIndirect (opcode digit rm : UInt8) (rest : Bytes) : Option (Instr × Bytes) :=
  if opcode = 0xfe then
    if digit = 0 then some (.incMem rm, rest) else if digit = 1 then some (.decMem rm, rest) else none
  else if opcode = 0x80 then
    (Arith.ofDigit? digit).bind fun op =>
      (takeLittle 1 rest).map fun (n, rest) => (.arithMem op rm (UInt8.ofNat n), rest)
  else if opcode = 0xc6 then
    if digit = 0 then (takeLittle 1 rest).map fun (n, rest) => (.movMem rm (UInt8.ofNat n), rest) else none
  else if opcode = 0xf6 then
    if digit = 0 then (takeLittle 1 rest).map fun (n, rest) => (.testMem rm (UInt8.ofNat n), rest) else none
  else none

/-- Instructions whose opcode has a second byte. -/
def decodeExtended : Bytes → Option (Instr × Bytes)
  | [] => none
  | opcode :: rest =>
    if opcode = 0x05 then some (.syscall, rest)
    else if opcode = 0x0b then some (.ud2, rest)
    else if opcode = 0x84 then (takeLittle 4 rest).map fun (n, rest) => (.jcc .zero (UInt32.ofNat n).toInt32, rest)
    else if opcode = 0x85 then (takeLittle 4 rest).map fun (n, rest) => (.jcc .nonzero (UInt32.ofNat n).toInt32, rest)
    else none

/-- Instructions with an operand byte. Of the memory operands only those are here that are a register alone. -/
def decodeOperand (opcode : UInt8) : Bytes → Option (Instr × Bytes)
  | [] => none
  | b :: rest =>
    let mode := b >>> 6
    let reg := b >>> 3 &&& 7
    let rm := b &&& 7
    if mode = 3 then decodeDirect opcode reg rm rest
    else if mode = 0 ∧ rm ≠ 4 ∧ rm ≠ 5 then decodeIndirect opcode reg rm rest
    else none

/-- The instruction of an opcode without prefix. -/
def decodeOpcode (opcode : UInt8) (rest : Bytes) : Option (Instr × Bytes) :=
  if opcode = 0x90 then some (.nop, rest)
  else if opcode = 0x0f then decodeExtended rest
  else if 0xb8 ≤ opcode ∧ opcode < 0xc0 then
    (takeLittle 4 rest).map fun (n, rest) => (.movImm (opcode - 0xb8) (UInt32.ofNat n), rest)
  else decodeOperand opcode rest

/-- The instruction of an opcode behind the prefix for 64-bit operands. -/
def decodeWide (opcode : UInt8) (rest : Bytes) : Option (Instr × Bytes) :=
  if 0xb8 ≤ opcode ∧ opcode < 0xc0 then
    (takeLittle 8 rest).map fun (n, rest) => (.movWide (opcode - 0xb8) (UInt64.ofNat n), rest)
  else (decodeOpcode opcode rest).map fun (i, rest) => (.wide i, rest)

/-- The instruction at the front of some bytes, and what follows it. -/
def decode : Bytes → Option (Instr × Bytes)
  | [] => none
  | [opcode] => decodeOpcode opcode []
  | b :: opcode :: rest => if b = 0x48 then decodeWide opcode rest else decodeOpcode b (opcode :: rest)

/-! ## Machines -/

/-- What a system call leaves behind. -/
structure Residue where
  rax : UInt64
  rcx : UInt64
  r11 : UInt64
  zero : Bool

/-- What a machine cannot know. -/
structure World (ι : Type*) where
  /-- The next byte of the input and the input after it, unless the input has ended. -/
  next : ι → Option (UInt8 × ι)
  /-- The addresses that hold data. -/
  mapped : UInt64 → Bool
  /-- What a system call leaves behind, by the number of calls before it. -/
  residue : Nat → Residue

structure Machine (ι : Type*) where
  /-- The offset of the next instruction in the code. -/
  pc : Nat
  regs : UInt8 → UInt64
  zero : Bool
  memory : UInt64 → UInt8
  input : ι
  /-- The bytes written and read so far; their positions are addresses. -/
  calls : List Action
  /-- The exit status, once there is one. -/
  status : Option UInt64

variable {ι : Type*}

namespace Machine

def set (m : Machine ι) (r : UInt8) (v : UInt64) : Machine ι := { m with regs := Function.update m.regs r v }

/-- Sets a register to a result, and the zero flag by it. -/
def result (m : Machine ι) (r : UInt8) (v : UInt64) : Machine ι := { m.set r v with zero := v == 0 }

def store (w : World ι) (m : Machine ι) (r v : UInt8) : Option (Machine ι) :=
  if w.mapped (m.regs r) then some { m with memory := Function.update m.memory (m.regs r) v } else none

/-- Sets the byte that a register points to to a result, and the zero flag by it. -/
def alter (w : World ι) (m : Machine ι) (r : UInt8) (f : UInt8 → UInt8) : Option (Machine ι) :=
  let v := f (m.memory (m.regs r))
  (m.store w r v).map fun m => { m with zero := v == 0 }

/-- Jumps relative to the next instruction. -/
def jump (m : Machine ι) (offset : Int) : Option (Machine ι) :=
  if 0 ≤ m.pc + offset then some { m with pc := (m.pc + offset).toNat } else none

/-- A system call with its entry in the log. -/
def logged (w : World ι) (m : Machine ι) (call : Action) : Machine ι :=
  let left := w.residue m.calls.length
  { m with
    regs := Function.update (Function.update (Function.update m.regs 0 left.rax) 1 left.rcx) 11 left.r11
    zero := left.zero
    calls := m.calls ++ [call] }

/-- Reads a byte to an address; at the end of the input nothing is stored. -/
def read (w : World ι) (m : Machine ι) (a : UInt64) : Machine ι :=
  match w.next m.input with
  | some (b, input) =>
    { m.logged w (.read a.toNat (some b)) with memory := Function.update m.memory a b, input }
  | none => m.logged w (.read a.toNat none)

/-- A system call: its number is in `rax`, its arguments in `rdi`, `rsi` and `rdx`. -/
def syscall (w : World ι) (m : Machine ι) : Option (Machine ι) :=
  let number := m.regs 0
  let arg1 := m.regs 7
  let arg2 := m.regs 6
  let arg3 := m.regs 2
  if number = 60 then some { m with status := some arg1 }
  else if number = 1 ∧ arg1 = 1 ∧ arg3 = 1 ∧ w.mapped arg2 then
    some (m.logged w (.write arg2.toNat (m.memory arg2)))
  else if number = 0 ∧ arg1 = 0 ∧ arg3 = 1 ∧ w.mapped arg2 then some (m.read w arg2)
  else none

end Machine

/-! ## Execution -/

/-- An additive operation on words of any size. -/
def Arith.apply {α : Type*} [Add α] [Sub α] : Arith → α → α → α
  | add, x, y => x + y
  | sub, x, y => x - y

/-- A result of operands of 64 bits, or of 32: then the rest of the register becomes zero. -/
def sized (wide : Bool) (v : UInt64) : UInt64 := if wide then v else v.toUInt32.toUInt64

/-- What an instruction does once the machine has passed over it. -/
def exec (w : World ι) (m : Machine ι) (wide : Bool) : Instr → Option (Machine ι)
  | .xorSelf r => some (m.result r 0)
  | .movImm r imm => some (m.set r imm.toUInt64)
  | .movSigned r imm => some (m.set r (sized wide imm.toInt64.toUInt64))
  | .movWide r imm => some (m.set r imm)
  | .mov dst src => some (m.set dst (sized wide (m.regs src)))
  | .inc r => some (m.result r (sized wide (m.regs r + 1)))
  | .dec r => some (m.result r (sized wide (m.regs r - 1)))
  | .arithByte op r imm => some (m.result r (sized wide (op.apply (m.regs r) imm.toInt64.toUInt64)))
  | .arithWord op r imm => some (m.result r (sized wide (op.apply (m.regs r) imm.toInt32.toInt64.toUInt64)))
  | .arith op dst src => some (m.result dst (sized wide (op.apply (m.regs dst) (m.regs src))))
  | .incMem r => m.alter w r (· + 1)
  | .decMem r => m.alter w r (· - 1)
  | .arithMem op r imm => m.alter w r (op.apply · imm)
  | .movMem r imm => m.store w r imm
  | .testMem r imm =>
    if w.mapped (m.regs r) then some { m with zero := m.memory (m.regs r) &&& imm == 0 } else none
  | .jcc cond offset => if m.zero = (cond == .zero) then m.jump offset.toInt else some m
  | .nop => some m
  | .syscall => m.syscall w
  | .ud2 | .int80 => none
  | .wide i => exec w m true i

def step (w : World ι) (code : Bytes) (m : Machine ι) : Option (Machine ι) :=
  match m.status with
  | some _ => some m
  | none =>
    match decode (code.drop m.pc) with
    | some (i, rest) => exec w { m with pc := code.length - rest.length } false i
    | none => none

def run (w : World ι) (code : Bytes) : Nat → Machine ι → Option (Machine ι) := iterate? (step w code)

end TapeElf.X86
