import TapeElf.Proofs.X86.Fragments
import TapeElf.Proofs.X86.Modes

/-!
# Constants and sums on x86

What the operations on registers come to in both modes (`registers_emit`). Their code has several forms, which extend
their operand to a register in different ways; which one is taken does not show in the result.

In long mode a number is loaded or added exactly, by way of `rcx` if it is too large for an operand
(`Long.sets_load`, `Long.executes_change`). In protected mode it is cut to its low word, and the failure is reported
after the code for that word.
-/

namespace TapeElf.X86

/-- The operation that adds to a register, or subtracts from it. -/
def Arith.operation : Arith → Reg → UInt64 → Operation Reg
  | add => .addReg
  | sub => .subReg

/-! ## Long mode -/

namespace Long

variable {ι : Type*}

lemma emit_operation (op : Arith) (r : Reg) (n : UInt64) :
    backend.emit (op.operation r n) = { bytes := (change op r n).flatMap Instr.encode } := by
  rw [← assemble_eq (encodable_change op r n)]
  cases op <;> rfl

/-- What the operations on a register do in long mode. -/
structure Registers (w : World ι) (r : Reg) (imm : Int64) (n : UInt64) : Prop where
  load_fault : (backend.emit (.load r imm)).fault = none
  /-- The constant is left in the register, and all else as it was. -/
  load : ∀ m, m.status = none → Sets w (backend.emit (.load r imm)).bytes m r.number imm.toUInt64
  change_fault : ∀ op : Arith, (backend.emit (op.operation r n)).fault = none
  /-- The register is changed by the number, and of all else at most `rcx` and the flags. -/
  change : r ≠ .cx → ∀ (op : Arith) m, m.status = none →
    ∃ m', Executes w (backend.emit (op.operation r n)).bytes m m' ∧ SameData m m' ∧
      m'.regs r.number = op.apply (m.regs r.number) n ∧
      ∀ s, s ≠ r.number → s ≠ Reg.cx.number → m'.regs s = m.regs s

lemma registers (w : World ι) (r : Reg) (imm : Int64) (n : UInt64) : Registers w r imm n := by
  have hload : backend.emit (.load r imm) = { bytes := (Long.load r imm).flatMap Instr.encode } := emit_load r imm
  refine ⟨?_, ?_, ?_, ?_⟩
  · rw [hload]
  · intro m hs
    rw [hload]
    exact sets_load r imm hs
  · intro op
    rw [emit_operation]
  · intro hr op m hs
    obtain ⟨m', hexec, hsame, hregs⟩ := executes_change (w := w) op r hr n hs
    have hne : r.number ≠ 1 := by
      cases r with
      | cx => exact absurd rfl hr
      | _ => decide
    rw [emit_operation]
    refine ⟨m', hexec, hsame, ?_, fun s hs hcx => ?_⟩
    · rw [hregs _ hne, Function.update_self]
    · rw [hregs s hcx, Function.update_of_ne hs]

end Long

/-! ## Protected mode -/

namespace Protected

/-- A constant is cut to its low word. -/
lemma maps_load (r : Reg) (imm : Int64) :
    processor.Maps (load r imm).bytes r.number.toNat fun _ => BitVec.ofInt 32 imm.toInt := by
  have hword : imm.toUInt64.toUInt32.toBitVec = BitVec.ofInt 32 imm.toInt := by
    show imm.toBitVec.setWidth 32 = BitVec.ofInt 32 imm.toBitVec.toInt
    rw [← setWidth_ofInt (v := 64) (by decide), BitVec.ofInt_toInt]
  unfold load
  dsimp only
  split
  · next hzero =>
    rw [assemble_eq rfl, List.flatMap_singleton, hzero]
    exact maps_setResult (i := .xorSelf r.number) _ r.number_lt_eight fun _ => rfl
  · rw [bytes_checked, assemble_eq (by simp [Instr.encodable, r.number_lt]), List.flatMap_singleton, ← hword]
    refine (encodes_movImm r _).maps fun own m => ⟨m.flags, ?_⟩
    show some (m.set r.number.toNat (BitVec.setWidth 32 _)) = _
    rw [BitVec.setWidth_eq]
    rfl

/-- What the operations on a register do in protected mode. -/
structure Registers (r : Reg) (imm : Int64) (n : UInt64) : Prop where
  load_fault : (backend.emit (.load r imm)).fault =
    if -2 ^ 31 ≤ imm.toInt ∧ imm.toInt < 2 ^ 32 then none else some (Cause.immediateTooLarge imm.toInt).fault
  /-- In any case the low word of the constant is left in the register, and all else as it was. -/
  load : processor.Maps (backend.emit (.load r imm)).bytes r.number.toNat fun _ => BitVec.ofInt 32 imm.toInt
  change_fault : ∀ op : Arith, (backend.emit (op.operation r n)).fault =
    if n.toNat < 2 ^ 32 then none else some (Cause.immediateTooLarge n.toNat).fault
  /-- In any case the register is changed by the number modulo 2^32, and nothing else but the flags. -/
  change : ∀ op : Arith, processor.Maps (backend.emit (op.operation r n)).bytes r.number.toNat
    fun x => op.apply x (BitVec.ofNat 32 n.toNat)

lemma emit_operation (op : Arith) (r : Reg) (n : UInt64) : backend.emit (op.operation r n) = Protected.change op r n := by
  cases op <;> rfl

lemma registers (r : Reg) (imm : Int64) (n : UInt64) : Registers r imm n := by
  refine ⟨?_, maps_load r imm, ?_, ?_⟩
  · have hsize : (UInt32.size : Int) = 2 ^ 32 := rfl
    have hiff : imm.toInt = 0 ∨ -0x80000000 ≤ imm.toInt ∧ imm.toInt < UInt32.size ↔
        -2 ^ 31 ≤ imm.toInt ∧ imm.toInt < 2 ^ 32 := by
      omega
    show (Protected.load r imm).fault = _
    rw [fault_load]
    simp only [hiff]
  · intro op
    rw [emit_operation, fault_change]
  · intro op
    rw [emit_operation]
    exact maps_change op r n

end Protected

/-- **Constants and sums.** In long mode they are exact. In protected mode they are exact modulo 2^32, and a number that
does not fit a register is reported. -/
theorem registers_emit {ι : Type*} (w : World ι) (r : Reg) (imm : Int64) (n : UInt64) :
    Long.Registers w r imm n ∧ Protected.Registers r imm n :=
  ⟨Long.registers w r imm n, Protected.registers r imm n⟩

end TapeElf.X86
