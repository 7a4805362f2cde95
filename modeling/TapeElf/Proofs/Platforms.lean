import TapeElf.Proofs.Arm64.Fragments
import TapeElf.Proofs.Backpatching
import TapeElf.Proofs.Riscv64.Fragments
import TapeElf.Proofs.S390x.Fragments
import TapeElf.Proofs.X86.Modes

/-!
# Code on its processor

What is true of the code of all targets, once every target has a processor to run on (`Arch.platform`).

* `Arch.isLoopJump_emit`: a loop jump is emitted exactly if it is aligned and its target is in reach, and then it jumps
  as it should. How far a jump reaches depends on where in its code the branch stands and on how many bits it has
  (`Arch.reach`).
* `Arch.compileOps_performs`: ops without loops and calls become code that does to the tape what they say.
-/

namespace TapeElf

/-! ## Platforms -/

/-- A processor, and the registers that code for it has set aside. -/
structure Platform where
  bits : Nat
  Flags : Type
  Instr : Type
  processor : Processor bits Flags Instr
  usage : Usage

namespace Arch

def platform : Arch → Platform
  | x86_64 => ⟨64, Bool, X86.Instr, X86.Long.processor, X86.Long.usage⟩
  | i386 => ⟨32, Bool, X86.Instr, X86.Protected.processor, X86.Protected.usage⟩
  | arm64 => ⟨64, Bool, Arm64.Instr, Arm64.processor, Arm64.usage⟩
  | riscv64 => ⟨64, Unit, Riscv64.Instr, Riscv64.processor, Riscv64.usage⟩
  | s390x => ⟨64, Fin 4, S390x.Instr, S390x.processor, S390x.usage⟩

end Arch

/-! ## Loop jumps -/

/-- The jumps that a target has. -/
structure Reach where
  /-- What divides every distance. -/
  align : Nat
  /-- How far before the end of the jump the branch is measured from. -/
  past : Nat
  /-- The bits of the distance from there. -/
  bits : Nat

/-- A distance in reach. -/
def Reach.Accepts (reach : Reach) (v : Int) : Prop :=
  (reach.align : Int) ∣ v ∧
    -(2 ^ (reach.bits - 1) : Int) ≤ v + reach.past ∧ v + reach.past < (2 ^ (reach.bits - 1) : Int)

namespace Arch

def reach : Arch → Reach
  | x86_64 | i386 => ⟨1, 0, 32⟩
  | arm64 => ⟨4, 4, 21⟩
  | riscv64 => ⟨2, 4, 21⟩
  | s390x => ⟨2, 6, 33⟩

/-- The registers, by number, that cannot point to a byte: `sp` and `bp`, and `r0`. -/
def nonPointers : Arch → List Nat
  | x86_64 | i386 => [4, 5]
  | arm64 | riscv64 => []
  | s390x => [0]

/-- A register that a jump can look through. -/
def CanPoint (arch : Arch) (r : arch.backend.Reg) : Prop :=
  arch.backend.regNumber r ∉ arch.platform.usage.scratch ∧ arch.backend.regNumber r ∉ arch.nonPointers

/-- The emission is a jump by `k` that is taken on some bytes, or, if `k` is out of reach, the failure for it. -/
structure IsLoopJump (arch : Arch) (r : arch.backend.Reg) (taken : UInt8 → Bool) (k : Int64) (e : Emission) : Prop where
  fault_iff : e.fault = none ↔ arch.reach.Accepts k.toInt
  refused : ¬ arch.reach.Accepts k.toInt → e.bytes = [] ∧ ∃ d, e.fault = some (.reported d) ∧
    d.kind = if (arch.reach.align : Int) ∣ k.toInt then .jumpTooLong else .invalidJumpAlignment
  length_eq : arch.reach.Accepts k.toInt → e.bytes.length = arch.backend.jumpSize
  branches : arch.reach.Accepts k.toInt →
    arch.platform.processor.Branches arch.platform.usage.scratch e.bytes (arch.backend.regNumber r) taken k.toInt

variable {arch : Arch} {k : Int64}

lemma accepts_iff : arch.reach.Accepts k.toInt ↔
    k.toInt % arch.reach.align = 0 ∧ fits arch.reach.bits (k.toInt + arch.reach.past) = true := by
  rw [Reach.Accepts, fits_iff, Int.dvd_iff_emod_eq_zero]
  push_cast
  rfl

/-- What is left to show of a target is that the code of its jumps jumps. -/
lemma isLoopJump_alignedJump (arch : Arch) {r : arch.backend.Reg} {taken : UInt8 → Bool} {bytes : Bytes}
    (hlen : bytes.length = arch.backend.jumpSize)
    (hbranches : k.toInt % arch.reach.align = 0 → fits arch.reach.bits (k.toInt + arch.reach.past) = true →
      arch.platform.processor.Branches arch.platform.usage.scratch bytes (arch.backend.regNumber r) taken k.toInt) :
    arch.IsLoopJump r taken k (.alignedJump arch.reach.align arch.reach.bits arch.reach.past k { bytes }) := by
  have hjump (h : arch.reach.Accepts k.toInt) :
      Emission.alignedJump arch.reach.align arch.reach.bits arch.reach.past k { bytes } = { bytes } := by
    obtain ⟨halign, hfits⟩ := accepts_iff.mp h
    rw [Emission.alignedJump, if_neg (not_not.mpr halign), if_pos hfits]
  refine ⟨(fault_alignedJump rfl).trans accepts_iff.symm, ?_, ?_, ?_⟩
  · intro h
    rw [accepts_iff] at h
    simp only [Int.dvd_iff_emod_eq_zero]
    by_cases halign : k.toInt % arch.reach.align = 0
    · rw [Emission.alignedJump, if_neg (not_not.mpr halign), if_neg fun hfits => h ⟨halign, hfits⟩, if_pos halign]
      exact ⟨rfl, _, rfl, rfl⟩
    · rw [Emission.alignedJump, if_pos halign, if_neg halign]
      exact ⟨rfl, _, rfl, rfl⟩
  · intro h
    rw [hjump h, hlen]
  · intro h
    rw [hjump h]
    exact hbranches (accepts_iff.mp h).1 (accepts_iff.mp h).2

/-- **Loop jumps.** On every target a jump on the byte that a register points to is emitted if the distance is in reach,
and then it goes where it should and changes nothing else; and if not, nothing is emitted and the failure says why. -/
theorem isLoopJump_emit (arch : Arch) {r : arch.backend.Reg} (hr : arch.CanPoint r) (k : Int64) :
    arch.IsLoopJump r (· == 0) k (arch.backend.emit (.jumpIfZero r k)) ∧
      arch.IsLoopJump r (· != 0) k (arch.backend.emit (.jumpIfNonzero r k)) := by
  obtain ⟨hscratch, hpoint⟩ := hr
  -- every target has its jumps as `alignedJump` by definition, but for x86, where nothing is aligned
  cases arch with
  | x86_64 =>
    have hr := X86.canPoint_of_notMem hpoint
    have hjump (cond : X86.Cond) := isLoopJump_alignedJump .x86_64 (r := r) (k := k) rfl fun _ =>
      X86.branches_loopJump (fun _ _ _ => rfl) (fun _ => X86.Long.encodes) (fun _ => rfl) hr _ cond
    show IsLoopJump .x86_64 _ _ _ (X86.loopJump ..) ∧ IsLoopJump .x86_64 _ _ _ (X86.loopJump ..)
    rw [X86.loopJump_eq_alignedJump hr, X86.loopJump_eq_alignedJump hr]
    exact ⟨hjump .zero, hjump .nonzero⟩
  | i386 =>
    have hr := X86.canPoint_of_notMem hpoint
    have hjump (cond : X86.Cond) := isLoopJump_alignedJump .i386 (r := r) (k := k) rfl fun _ =>
      X86.branches_loopJump (fun _ _ _ => rfl) (fun _ => X86.Protected.encodes) (fun _ => rfl) hr _ cond
    show IsLoopJump .i386 _ _ _ (X86.loopJump ..) ∧ IsLoopJump .i386 _ _ _ (X86.loopJump ..)
    rw [X86.loopJump_eq_alignedJump hr, X86.loopJump_eq_alignedJump hr]
    exact ⟨hjump .zero, hjump .nonzero⟩
  | arm64 =>
    have hr : r ≠ Arm64.scratch := by
      rintro rfl
      exact hscratch rfl
    exact ⟨isLoopJump_alignedJump .arm64 rfl (Arm64.branches_loopJump .eq hr),
      isLoopJump_alignedJump .arm64 rfl (Arm64.branches_loopJump .ne hr)⟩
  | riscv64 =>
    exact ⟨isLoopJump_alignedJump .riscv64 rfl (Riscv64.branches_jumpIfZero r),
      isLoopJump_alignedJump .riscv64 rfl (Riscv64.branches_jumpIfNonzero r)⟩
  | s390x =>
    have hr : r ≠ .r0 := by
      rintro rfl
      exact hpoint (by decide)
    exact ⟨isLoopJump_alignedJump .s390x rfl
        (S390x.branches_loopJump .eq (fun b => (S390x.takes_byte b).1) hr),
      isLoopJump_alignedJump .s390x rfl (S390x.branches_loopJump .ne (fun b => (S390x.takes_byte b).2) hr)⟩

/-- The furthest jump ahead on s390x. -/
theorem isLoopJump_emit_furthest :
    Arch.s390x.CanPoint S390x.Reg.r8 ∧ Arch.s390x.reach.Accepts (4294967288 : Int64).toInt ∧
    Arch.s390x.IsLoopJump S390x.Reg.r8 (· == 0) 4294967288
      (Arch.s390x.backend.emit (.jumpIfZero S390x.Reg.r8 4294967288)) ∧
    Arch.s390x.IsLoopJump S390x.Reg.r8 (· != 0) 4294967288
      (Arch.s390x.backend.emit (.jumpIfNonzero S390x.Reg.r8 4294967288)) := by
  have hpoint : Arch.s390x.CanPoint S390x.Reg.r8 := ⟨by decide, by decide⟩
  exact ⟨hpoint, accepts_iff.mpr (by decide), isLoopJump_emit .s390x hpoint 4294967288⟩

end Arch

/-! ## Straight code -/

lemma Op.Straight.isBracket {o : Op} (h : o.Straight) : o.isBracket = false := by
  cases o with
  | loopOpen | loopClose => exact h.elim
  | _ => rfl

lemma Generator.steps_straight {b : Backend} {ops : List Op} (hstraight : ∀ o ∈ ops, o.Straight)
    (hfaultless : ∀ o ∈ ops, b.Faultless o) (g : Generator) :
    ∃ journal, steps b g ops = ({ g with code := g.code.append (ops.flatMap b.opCode), journal }, none) := by
  induction ops generalizing g with
  | nil => exact ⟨g.journal, by rw [steps, List.flatMap_nil, Code.append_nil]⟩
  | cons o ops ih =>
    obtain ⟨ho, hops⟩ := List.forall_mem_cons.mp hstraight
    obtain ⟨hof, hopsf⟩ := List.forall_mem_cons.mp hfaultless
    rcases step_op b g ⟨o, ho.isBracket⟩ none with ⟨-, journal, hstep⟩ | ⟨hn, -⟩
    · obtain ⟨journal', hsteps⟩ :=
        ih hops hopsf { g with code := g.code.append (b.opCode o), journal }
      refine ⟨journal', ?_⟩
      rw [steps, hstep]
      simp only [hsteps, Code.append_append, List.flatMap_cons]
    · exact absurd hof hn

namespace Arch

lemma performs_emit {arch : Arch} (h : arch ≠ .x86_64) {x : Operation arch.backend.Reg}
    (hx : x.OnTape arch.backend.roles.tape) :
    arch.platform.processor.Performs arch.platform.usage (arch.backend.emit x).bytes x.act := by
  cases arch with
  | x86_64 => exact absurd rfl h
  | i386 => exact X86.Protected.performs_emit hx
  | arm64 => exact Arm64.performs_emit hx
  | riscv64 => exact Riscv64.performs_emit hx
  | s390x => exact S390x.performs_emit hx

/-- **Straight code.** Behind any code, ops that neither loop nor communicate are compiled without a failure, and what
is added acts on the tape as the ops do, one after the other. -/
theorem compileOps_performs {arch : Arch} (harch : arch ≠ .x86_64) {g : Generator} (hg : g.loops = []) {ops : List Op}
    (hstraight : ∀ o ∈ ops, o.Straight) (hmove : ∀ o ∈ ops, arch.CanMove o) :
    ∃ bytes journal,
      Generator.compileOps arch.backend g ops = ({ g with code := g.code.append bytes, journal }, none) ∧
      arch.platform.processor.Performs arch.platform.usage bytes fun t => ops.foldl (fun t o => o.act t) t := by
  have hfaultless : ∀ o ∈ ops, arch.backend.Faultless o := fun o ho => (arch.faultless_iff o).mpr (hmove o ho)
  obtain ⟨journal, hsteps⟩ := Generator.steps_straight hstraight hfaultless g
  refine ⟨ops.flatMap arch.backend.opCode, journal, ?_, ?_⟩
  · rw [Generator.compileOps, hsteps]
    exact congrArg (Prod.mk _) (Generator.unclosed?_eq_none_iff.mpr hg)
  · apply Processor.performs_flatMap
    intro o ho
    exact Processor.performs_opCode (hstraight o ho) fun x hx => performs_emit harch hx

/-- The largest move on i386, and a count that a cell cannot hold. -/
theorem compileOps_performs_largest_move :
    Arch.i386 ≠ .x86_64 ∧ (∀ o ∈ [Op.right 4294967295, .add 300, .left 1, .clear], o.Straight) ∧
    (∀ o ∈ [Op.right 4294967295, .add 300, .left 1, .clear], Arch.i386.CanMove o) ∧
    ∃ bytes journal,
      Generator.compileOps Arch.i386.backend {} [.right 4294967295, .add 300, .left 1, .clear] =
        ({ code := Code.append {} bytes, journal }, none) ∧
      Arch.i386.platform.processor.Performs Arch.i386.platform.usage bytes fun t =>
        [Op.right 4294967295, .add 300, .left 1, .clear].foldl (fun t o => o.act t) t := by
  have hstraight : ∀ o ∈ [Op.right 4294967295, .add 300, .left 1, .clear], o.Straight := by
    simp [Op.Straight]
  have hmove : ∀ o ∈ [Op.right 4294967295, .add 300, .left 1, .clear], Arch.i386.CanMove o := by
    simp [CanMove]
  exact ⟨by decide, hstraight, hmove, compileOps_performs (by decide) rfl hstraight hmove⟩

end Arch

end TapeElf
