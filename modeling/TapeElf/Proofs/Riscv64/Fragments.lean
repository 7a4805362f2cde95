import TapeElf.Proofs.Fragment
import TapeElf.Proofs.Riscv64.Constants

/-!
# What RISC-V code does

The operations on the tape (`performs_emit`) and the loop jumps (`branches_loopJump`). A cell is loaded with its sign,
which is lost again when it is stored. A jump is taken by passing by the branch on the opposite condition.
-/

namespace TapeElf.Riscv64

/-- The registers that generated code has set aside. -/
def usage : Usage where
  tape := 8
  scratch := some 6
  zero := none

lemma value_tape (m : Hart) : processor.value m usage.tape = m.regs usage.tape := rfl

/-! ## The tape register -/

lemma performs_change {v : Int} (h : fits 64 v) :
    processor.Performs usage (assemble (change .s0 v)).bytes (Tape.move (BitVec.ofInt 64 v)) := by
  unfold change
  split_ifs with hzero hshort hmedium
  · subst hzero
    exact Processor.performs_nil Tape.move_zero
  · rw [Emission.bytes_assemble_singleton]
    exact (maps_cAddi (show Reg.s0 ≠ .zero by decide) hzero hshort).performs value_tape
  · rw [Emission.bytes_assemble_singleton]
    exact (maps_addi (show Reg.s0 ≠ .zero by decide) hmedium).performs value_tape
  · rw [Emission.bytes_assemble_append, Emission.bytes_assemble_singleton]
    apply Processor.performs_constant rfl (by decide) value_tape (maps_constant (show scratch ≠ .zero by decide) h)
    intro m hm
    refine ⟨_, (encodes (i := .cAdd .s0 scratch) ⟨by decide, by decide⟩).passes rfl rfl, ?_, ?_⟩
    · show Tape.mk (m.regs 8 + m.regs 6) m.memory = Tape.mk (m.regs 8 + BitVec.ofInt 64 v) m.memory
      rw [show m.regs 6 = _ from hm]
    · intro r hr _
      exact Function.update_of_ne hr _ _

/-! ## Cells -/

lemma fits_toInt8 (n : Int8) : fits 8 n.toInt := by
  have := n.le_toInt
  have := n.toInt_lt
  rw [fits_iff]
  omega

lemma passes_lb (r : Reg) (m : Hart) : ∃ m', processor.Passes (Instr.lb scratch r).encode m m' ∧
    m'.regs = Function.update m.regs 6 ((m.memory (value m r.number)).toBitVec.signExtend 64) ∧ m'.memory = m.memory :=
  ⟨_, (encodes (i := .lb scratch r) trivial).passes rfl rfl, rfl, rfl⟩

lemma passes_sb (src r : Reg) (m : Hart) : ∃ m', processor.Passes (Instr.sb src r).encode m m' ∧ m'.regs = m.regs ∧
    m'.memory = Function.update m.memory (value m r.number) ⟨(value m src.number).setWidth 8⟩ :=
  ⟨_, (encodes (i := .sb src r) trivial).passes rfl rfl, rfl, rfl⟩

lemma performs_changeCell {v : Int} {f : UInt8 → UInt8} (h : fits 8 v) (hf : ∀ b, b + ⟨BitVec.ofInt 8 v⟩ = f b) :
    processor.Performs usage (assemble (changeCell .s0 v)).bytes (Tape.alter f) := by
  unfold changeCell
  split
  · next hzero =>
    subst hzero
    refine Processor.performs_nil (Tape.alter_of_forall fun b => ?_)
    rw [← hf]
    exact UInt8.add_zero b
  · next hzero =>
    have hadd : processor.Maps (if fits 6 v then Instr.cAddi scratch v else .addi scratch scratch v).encode 6
        fun x => x + BitVec.ofInt 64 v := by
      split
      · next hshort => exact maps_cAddi (show scratch ≠ .zero by decide) hzero hshort
      · exact maps_addi (show scratch ≠ .zero by decide) (fits_widen (by decide) h)
    rw [Emission.bytes_assemble_cons, Emission.bytes_assemble_cons, Emission.bytes_assemble_singleton]
    refine Processor.performs_alter rfl (by decide) value_tape (fun b => b.toBitVec.signExtend 64) (passes_lb .s0) hadd
      (passes_sb scratch .s0) ?_
    intro b
    rw [BitVec.setWidth_add _ _ (by decide), setWidth_signExtend (by decide), setWidth_ofInt (by decide), ← hf]
    rfl

lemma performs_clearCell : processor.Performs usage (Instr.sb .zero .s0).encode (Tape.alter fun _ => 0) := by
  intro m _
  obtain ⟨m', hpass, hregs, hmemory⟩ := passes_sb .zero .s0 m
  refine ⟨m', hpass, ?_, fun r _ _ => congrFun hregs r⟩
  show Tape.mk (m'.regs 8) m'.memory = Tape.mk (m.regs 8) (Function.update m.memory (m.regs 8) 0)
  rw [hregs, hmemory]
  rfl

/-- **What the operations on the tape do.** -/
lemma performs_emit {x : Operation Reg} (h : x.OnTape .s0) : processor.Performs usage (emit x).bytes x.act := by
  cases x with
  | incReg r =>
    obtain rfl : r = .s0 := h
    exact (maps_cAddi (v := 1) (show Reg.s0 ≠ .zero by decide) (by decide) (by decide)).performs value_tape
  | decReg r =>
    obtain rfl : r = .s0 := h
    exact (maps_cAddi (v := -1) (show Reg.s0 ≠ .zero by decide) (by decide) (by decide)).performs value_tape
  | addReg r n =>
    obtain rfl : r = .s0 := h
    rw [Operation.act, ← ofInt_toInt64]
    exact performs_change (fits_toInt _)
  | subReg r n =>
    obtain rfl : r = .s0 := h
    rw [Operation.act, ← ofInt_neg_toInt64]
    exact performs_change (fits_toInt _)
  | incCell r =>
    obtain rfl : r = .s0 := h
    exact performs_changeCell (v := 1) (by decide) fun _ => rfl
  | decCell r =>
    obtain rfl : r = .s0 := h
    rw [Operation.act]
    refine performs_changeCell (v := -1) (by decide) fun b => ?_
    rw [UInt8.sub_eq_add_neg]
    rfl
  | addCell r n =>
    obtain rfl : r = .s0 := h
    rw [Operation.act]
    refine performs_changeCell (fits_toInt8 _) fun b => ?_
    rw [ofInt_toInt8]
  | subCell r n =>
    obtain rfl : r = .s0 := h
    rw [Operation.act]
    refine performs_changeCell (fits_toInt8 _) fun b => ?_
    rw [UInt8.sub_eq_add_neg]
    exact congrArg (b + ·) (ofInt_toInt8 (-n))
  | clearCell r =>
    obtain rfl : r = .s0 := h
    rw [emit, Emission.bytes_assemble_singleton]
    exact performs_clearCell
  | load | copy | syscall | loopFiller | jumpIfZero | jumpIfNonzero => exact h.elim

/-! ## Loop jumps -/

lemma signExtend_eq_zero (b : UInt8) : b.toBitVec.signExtend 64 = 0 ↔ b = 0 := by
  constructor
  · intro h
    have hcut := congrArg (BitVec.setWidth 8) h
    rw [setWidth_signExtend (by decide)] at hcut
    exact UInt8.toBitVec_inj.mp hcut
  · rintro rfl
    rfl

/-- The jump is passed by if the cell meets `skip`. -/
lemma branches_loopJump (skip : Cond) (r : Reg) {v : Int} (heven : v % 2 = 0) (h : fits 21 (v + 4)) :
    processor.Branches usage.scratch (assemble [.lb scratch r, .branch skip scratch 8, .jal .zero (v + 4)]).bytes
      r.number (fun b => !skip.holds (b.toBitVec.signExtend 64)) v := by
  intro m
  obtain ⟨m₁, hload, hregs, hmemory⟩ := passes_lb r m
  have hscratch : value m₁ 6 = (m.memory (value m r.number)).toBitVec.signExtend 64 := by
    show m₁.regs 6 = _
    rw [hregs, Function.update_self]
  have hbranch := encodes (i := .branch skip scratch 8) ⟨by decide, by decide⟩
  have hjump := encodes (i := .jal .zero (v + 4)) ⟨by omega, h⟩
  have hframe : ∀ k, k ∉ usage.scratch → m₁.regs k = m.regs k := by
    intro k hk
    rw [hregs, Function.update_of_ne fun he => hk (congrArg some he.symm)]
  have hpc : m₁.pc = m.pc + BitVec.ofNat 64 4 := hload.1
  rw [Emission.bytes_assemble_cons, Emission.bytes_assemble_cons, Emission.bytes_assemble_singleton]
  by_cases hskip : skip.holds ((m.memory (value m r.number)).toBitVec.signExtend 64)
  · have hlead : processor.LeadsOn (Instr.branch skip scratch 8).encode m₁ (m₁.goto (m₁.pc + BitVec.ofNat 64 8)) := by
      apply hbranch.leadsOn
      show some (if skip.holds (value m₁ 6) then _ else _) = _
      rw [hscratch, if_pos hskip]
      rfl
    refine ⟨_, hload.append_leadsOn (hlead.append_right _), ?_, hmemory, hframe⟩
    rw [if_neg (by simpa [processor] using hskip)]
    show m₁.pc + BitVec.ofNat 64 8 = m.pc + BitVec.ofNat 64 12 + 0
    rw [hpc, BitVec.add_assoc, ← BitVec.ofNat_add]
    exact (BitVec.add_zero _).symm
  · have hpass : processor.Passes (Instr.branch skip scratch 8).encode m₁ (m₁.goto (m₁.pc + BitVec.ofNat 64 4)) := by
      refine hbranch.passes ?_ rfl
      show some (if skip.holds (value m₁ 6) then _ else _) = _
      rw [hscratch, if_neg hskip]
      rfl
    refine ⟨_, hload.append_leadsOn (hpass.append_leadsOn (hjump.leadsOn rfl)), ?_, hmemory, hframe⟩
    rw [if_pos (by simpa [processor] using hskip)]
    show m₁.pc + BitVec.ofNat 64 4 + BitVec.ofInt 64 (v + 4) = m.pc + BitVec.ofNat 64 12 + BitVec.ofInt 64 v
    rw [show v + 4 = v + (4 : Nat) by rfl, add_ofInt_add, hpc]
    simp only [BitVec.add_assoc, ← BitVec.ofNat_add]

lemma branches_jumpIfZero (r : Reg) {v : Int} (heven : v % 2 = 0) (h : fits 21 (v + 4)) :
    processor.Branches usage.scratch (assemble [.lb scratch r, .branch .ne scratch 8, .jal .zero (v + 4)]).bytes
      r.number (· == 0) v := by
  have htaken : (fun b : UInt8 => !Cond.ne.holds (b.toBitVec.signExtend 64)) = (· == 0) := by
    funext b
    simp only [Cond.holds, ne_eq, signExtend_eq_zero, decide_not, Bool.not_not, beq_eq_decide]
  rw [← htaken]
  exact branches_loopJump .ne r heven h

lemma branches_jumpIfNonzero (r : Reg) {v : Int} (heven : v % 2 = 0) (h : fits 21 (v + 4)) :
    processor.Branches usage.scratch (assemble [.lb scratch r, .branch .eq scratch 8, .jal .zero (v + 4)]).bytes
      r.number (· != 0) v := by
  have htaken : (fun b : UInt8 => !Cond.eq.holds (b.toBitVec.signExtend 64)) = (· != 0) := by
    funext b
    simp only [Cond.holds, signExtend_eq_zero, bne, beq_eq_decide]
  rw [← htaken]
  exact branches_loopJump .eq r heven h

end TapeElf.Riscv64
