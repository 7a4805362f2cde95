import TapeElf.Proofs.Processor
import TapeElf.Target.Riscv64.Backend

/-!
# The RISC-V processor

The part of RV64GC that generated code needs. `decode` takes every field from its own place and refuses what the
architecture reserves or calls a hint: compressed forms of register zero, and compressed additions, upper immediates and
shifts of nothing. `exec` says what an instruction does; a system call leaves the processor.

Arithmetic is on words of 64 bits. The forms with a `w` compute on 32 bits and extend the sign (`word`). Register zero
reads as 0 whatever it holds, and is never written.
-/

namespace TapeElf.Riscv64

/-- The states of the processor. It has no flags. -/
abbrev Hart := Core 64 Unit

/-! ## Decoding -/

/-- The register of a number, if generated code uses it. -/
def Reg.ofNumber? (n : Nat) : Option Reg := Reg.all.find? fun r => r.number = n

/-- The offset of a branch, out of the order it is written in. -/
def branchOffset (w : Nat) : Int :=
  signed 13 (bitField w 31 1 * 0x1000 + bitField w 7 1 * 0x800 + bitField w 25 6 * 0x20 + bitField w 8 4 * 2 : Nat)

/-- The offset of a jump, out of the order it is written in. -/
def jumpOffset (w : Nat) : Int :=
  signed 21
    (bitField w 31 1 * 0x100000 + bitField w 12 8 * 0x1000 + bitField w 20 1 * 0x800 + bitField w 21 10 * 2 : Nat)

def Cond.ofCode? (n : Nat) : Option Cond := [Cond.eq, .ne].find? fun c => c.code = n

def decodeWord (w : Nat) : Option Instr :=
  let kind := bitField w 12 3
  let rd := Reg.ofNumber? (bitField w 7 5)
  let rs := Reg.ofNumber? (bitField w 15 5)
  let imm := signed 12 (bitField w 20 12)
  match bitField w 0 7 with
  | 0x13 => if kind = 0 then rd.bind fun rd => rs.map fun rs => .addi rd rs imm else none
  | 0x1b => if kind = 0 then rd.bind fun rd => rs.map fun rs => .addiw rd rs imm else none
  | 0x37 => rd.map fun rd => .lui rd (signed 20 (bitField w 12 20))
  | 0x03 => if kind = 0 ∧ imm = 0 then rd.bind fun rd => rs.map fun rs => .lb rd rs else none
  | 0x23 =>
    -- The offset of a store is where the others have their upper seven bits and their destination.
    if kind = 0 ∧ bitField w 25 7 = 0 ∧ bitField w 7 5 = 0 then
      (Reg.ofNumber? (bitField w 20 5)).bind fun src => rs.map fun rs => .sb src rs
    else none
  | 0x63 =>
    if bitField w 20 5 = 0 then
      (Cond.ofCode? kind).bind fun cond => rs.map fun rs => .branch cond rs (branchOffset w)
    else none
  | 0x6f => rd.map fun rd => .jal rd (jumpOffset w)
  | 0x73 => if w = 0x73 then some .ecall else none
  | _ => none

/-- The register of a compressed form, which is never register zero. -/
def compressedReg (n : Nat) : Option Reg := if n = 0 then none else Reg.ofNumber? n

def decodeHalf (h : Nat) : Option Instr :=
  let rd := compressedReg (bitField h 7 5)
  let rs := compressedReg (bitField h 2 5)
  let shift := bitField h 12 1 * 0x20 + bitField h 2 5
  let imm := signed 6 shift
  match bitField h 13 3 * 4 + bitField h 0 2 with
  | 0x01 => if imm = 0 then none else rd.map fun rd => .cAddi rd imm
  | 0x05 => rd.map fun rd => .cAddiw rd imm
  | 0x09 => rd.map fun rd => .cLi rd imm
  | 0x0d =>
    -- With the stack pointer as its destination this is another instruction.
    if imm = 0 ∨ bitField h 7 5 = 2 then none else rd.map fun rd => .cLui rd imm
  | 0x02 => if shift = 0 then none else rd.map fun rd => .cSlli rd shift
  | 0x12 => rd.bind fun rd => rs.map fun rs => if bitField h 12 1 = 0 then .cMv rd rs else .cAdd rd rs
  | _ => none

/-- The instruction at the front of some bytes: its two low bits say whether it is a word. -/
def decode (bytes : Bytes) : Option (Instr × Bytes) :=
  (Endian.front? .little 2 bytes).bind fun half =>
    if half.1 % 4 = 3 then
      (Endian.front? .little 4 bytes).bind fun word => (decodeWord word.1).map fun i => (i, word.2)
    else (decodeHalf half.1).map fun i => (i, half.2)

/-! ## Execution -/

/-- What a register reads as. -/
def value (m : Hart) (n : Nat) : BitVec 64 := if n = 0 then 0 else m.regs n

/-- Sets a register, other than zero. -/
def put (m : Hart) (r : Reg) (v : BitVec 64) : Hart := if r = .zero then m else m.set r.number v

/-- A result of 32 bits, with its sign. -/
def word (x : BitVec 64) : BitVec 64 := (x.setWidth 32).signExtend 64

def Cond.holds : Cond → BitVec 64 → Bool
  | .eq, x => x = 0
  | .ne, x => x ≠ 0

/-- What an instruction at an address does. -/
def exec (i : Instr) (own : BitVec 64) (m : Hart) : Option Hart :=
  match i with
  | .addi rd rs imm => some (put m rd (value m rs.number + BitVec.ofInt 64 imm))
  | .addiw rd rs imm => some (put m rd (word (value m rs.number + BitVec.ofInt 64 imm)))
  | .lui rd imm => some (put m rd (word (BitVec.ofInt 64 imm <<< 12)))
  | .lb rd rs => some (put m rd ((m.memory (value m rs.number)).toBitVec.signExtend 64))
  | .sb src rs => some (m.store (value m rs.number) ⟨(value m src.number).setWidth 8⟩)
  | .branch cond rs offset =>
    some (if cond.holds (value m rs.number) then m.goto (own + BitVec.ofInt 64 offset) else m)
  | .jal rd offset => some ((put m rd m.pc).goto (own + BitVec.ofInt 64 offset))
  | .ecall => none
  | .cAddi rd imm => some (put m rd (value m rd.number + BitVec.ofInt 64 imm))
  | .cAddiw rd imm => some (put m rd (word (value m rd.number + BitVec.ofInt 64 imm)))
  | .cLi rd imm => some (put m rd (BitVec.ofInt 64 imm))
  | .cLui rd imm => some (put m rd (BitVec.ofInt 64 imm <<< 12))
  | .cSlli rd shift => some (put m rd (value m rd.number <<< shift))
  | .cMv rd rs => some (put m rd (value m rs.number))
  | .cAdd rd rs => some (put m rd (value m rd.number + value m rs.number))

def processor : Processor 64 Unit Instr where
  decode := decode
  value := value
  exec := exec

end TapeElf.Riscv64
