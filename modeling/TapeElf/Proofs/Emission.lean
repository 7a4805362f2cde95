import Mathlib
import TapeElf.Generator
import TapeElf.Target.Arch

/-!
# What the targets emit

Code generation relies on a few properties of a target, and every target has them (`Arch.lawful`):

* the code of every operation has a length that is a multiple of the alignment of the target;
* the filler of a loop has the size of a jump; and so has every jump that is accepted, while one that is refused
  leaves no code;
* a jump over a loop is accepted in both directions or in neither;
* a failure is one to be reported, and not about alignment unless the distance of a jump is misaligned.

Outside loop control nothing can fail but a move on i386, by a count that takes more than 32 bits
(`Arch.faultless_iff`).
-/

namespace TapeElf

/-- A failure that bad input can bring about: a report, and not one of a misaligned jump. -/
def Fault.Expected (f : Fault) : Prop := ∃ d, f = .reported d ∧ d.kind ≠ .invalidJumpAlignment

lemma Cause.expected_fault {c : Cause} (h : c.kind ≠ .invalidJumpAlignment) : c.fault.Expected :=
  ⟨c.diagnostic, rfl, h⟩

lemma Fault.Expected.orContext {f : Fault} (h : f.Expected) (c : Char) (loc : Option Location) :
    (f.orContext c loc).Expected := by
  obtain ⟨d, rfl, hd⟩ := h
  exact ⟨d.orContext c loc, rfl, hd⟩

/-- A jump by `k`: it is emitted whole or refused, and refused for its alignment only if it is misaligned. -/
def Emission.IsJump (size align : Nat) (k : Int64) (e : Emission) : Prop :=
  e.fault = none ∧ e.bytes.length = size ∨
    ∃ c : Cause, e = .refuse c ∧ ((align : Int) ∣ k.toInt → c.kind ≠ .invalidJumpAlignment)

lemma Emission.IsJump.length_eq {size align : Nat} {k : Int64} {e : Emission} (h : e.IsJump size align k)
    (hf : e.fault = none) : e.bytes.length = size := by
  rcases h with ⟨-, h⟩ | ⟨c, rfl, -⟩
  · exact h
  · cases hf

/-- An operation outside loop control that changes no cell but the one that `tape` points to. -/
def Operation.Plain {Reg : Type} (tape : Reg) : Operation Reg → Prop
  | jumpIfZero .. | jumpIfNonzero .. => False
  | incCell r | decCell r | addCell r _ | subCell r _ | clearCell r => r = tape
  | _ => True

namespace Backend

/-- The operations of an op all succeed. -/
def Faultless (b : Backend) (o : Op) : Prop := ∀ x ∈ b.operations o, (b.emit x).fault = none

/-- What code generation relies on. -/
structure Lawful (b : Backend) (align : Nat) : Prop where
  dvd_length : ∀ x, align ∣ (b.emit x).bytes.length
  filler_fault : (b.emit .loopFiller).fault = none
  filler_length : (b.emit .loopFiller).bytes.length = b.jumpSize
  jumpIfZero : ∀ k, (b.emit (.jumpIfZero b.roles.tape k)).IsJump b.jumpSize align k
  jumpIfNonzero : ∀ k, (b.emit (.jumpIfNonzero b.roles.tape k)).IsJump b.jumpSize align k
  /-- A loop that can be entered can be repeated. -/
  jump_back : ∀ k, 0 ≤ k.toInt → (b.emit (.jumpIfZero b.roles.tape k)).fault = none →
    (b.emit (.jumpIfNonzero b.roles.tape (-k))).fault = none
  prologue_fault : ∀ x ∈ b.prologue, (b.emit x).fault = none
  epilogue_fault : ∀ x ∈ b.epilogue, (b.emit x).fault = none
  expected : ∀ o, ∀ x ∈ b.operations o, ∀ f, (b.emit x).fault = some f → f.Expected

end Backend

def Arch.alignment : Arch → Nat
  | x86_64 | i386 => 1
  | arm64 => 4
  | riscv64 | s390x => 2

/-- The architecture can move by the count of an op. -/
def Arch.CanMove (arch : Arch) (o : Op) : Prop :=
  arch = .i386 → ∀ n, o = .right n ∨ o = .left n → n.toNat < 2 ^ 32

/-! ## Operations outside loop control -/

lemma Backend.plain_of_mem_operations {b : Backend} {o : Op} {x : Operation b.Reg} (h : x ∈ b.operations o) :
    x.Plain b.roles.tape := by
  cases o with
  | add n | sub n =>
    simp only [operations] at h
    repeat' split at h
    all_goals simp at h
    all_goals subst h; rfl
  | right n | left n =>
    simp only [operations] at h
    split at h <;> rw [List.mem_singleton] at h <;> subst h <;> trivial
  | output | input =>
    simp only [operations, transfer, List.mem_cons, List.not_mem_nil, or_false] at h
    rcases h with rfl | rfl | rfl | rfl | rfl <;> trivial
  | clear =>
    rw [operations, List.mem_singleton] at h
    subst h
    rfl
  | loopOpen | loopClose => cases h

lemma Backend.plain_of_mem_prologue {b : Backend} {x : Operation b.Reg} (h : x ∈ b.prologue) :
    x.Plain b.roles.tape := by
  rw [prologue, List.mem_singleton] at h
  subst h
  trivial

lemma Backend.plain_of_mem_epilogue {b : Backend} {x : Operation b.Reg} (h : x ∈ b.epilogue) :
    x.Plain b.roles.tape := by
  simp only [epilogue, List.mem_cons, List.not_mem_nil, or_false] at h
  rcases h with rfl | rfl | rfl <;> trivial

/-! ## Lengths and distances -/

lemma dvd_length_flatMap {α : Type*} {n : Nat} {f : α → Bytes} (h : ∀ a, n ∣ (f a).length) (l : List α) :
    n ∣ (l.flatMap f).length := by
  induction l with
  | nil => exact Nat.dvd_zero n
  | cons a l ih =>
    rw [List.flatMap_cons, List.length_append]
    exact Nat.dvd_add (h a) ih

lemma toInt_neg_of_nonneg {k : Int64} (h : 0 ≤ k.toInt) : (-k).toInt = -k.toInt := by
  have := k.toInt_lt
  rw [Int64.toInt_neg]
  exact Int.bmod_eq_of_le (by omega) (by omega)

/-- A jump back over a loop ends before the loop, so it reaches no further than the jump over it. -/
lemma fits_neg {bits : Nat} {v r : Int} (hv : 0 ≤ v) (hr : 0 ≤ r) (h : fits bits (v + r) = true) :
    fits bits (-v + r) = true := by
  simp only [fits, Bool.and_eq_true, decide_eq_true_eq] at h ⊢
  omega

/-- A jump by `k` as the targets with aligned code emit it: `code`, unless the distance is misaligned or, from
where the branch stands, too large. -/
def Emission.alignedJump (align bits : Nat) (past : Int) (k : Int64) (code : Emission) : Emission :=
  if k.toInt % align ≠ 0 then .refuse (.misalignedJump k.toInt align)
  else if fits bits (k.toInt + past) then code
  else .refuse (.jumpTooLong k.toInt bits)

section

variable {size align bits : Nat} {past : Int} {k : Int64} {code : Emission}

lemma isJump_alignedJump (hf : code.fault = none) (hlen : code.bytes.length = size) :
    (Emission.alignedJump align bits past k code).IsJump size align k := by
  unfold Emission.alignedJump
  split
  · next h => exact .inr ⟨_, rfl, fun hk => absurd (Int.emod_eq_zero_of_dvd hk) h⟩
  split
  · exact .inl ⟨hf, hlen⟩
  · exact .inr ⟨_, rfl, nofun⟩

lemma fault_alignedJump (hf : code.fault = none) : (Emission.alignedJump align bits past k code).fault = none ↔
    k.toInt % align = 0 ∧ fits bits (k.toInt + past) = true := by
  unfold Emission.alignedJump
  repeat' split
  all_goals simp_all [Emission.refuse]

lemma fault_alignedJump_neg {back : Emission} (hf : code.fault = none) (hb : back.fault = none) (hpast : 0 ≤ past)
    (hk : 0 ≤ k.toInt) (h : (Emission.alignedJump align bits past k code).fault = none) :
    (Emission.alignedJump align bits past (-k) back).fault = none := by
  rw [fault_alignedJump hf] at h
  rw [fault_alignedJump hb, toInt_neg_of_nonneg hk]
  exact ⟨Int.emod_eq_zero_of_dvd (Int.dvd_neg.mpr (Int.dvd_of_emod_eq_zero h.1)), fits_neg hk hpast h.2⟩

lemma dvd_length_alignedJump (hlen : align ∣ code.bytes.length) :
    align ∣ (Emission.alignedJump align bits past k code).bytes.length := by
  unfold Emission.alignedJump
  repeat' split
  · exact Nat.dvd_zero align
  · exact hlen
  · exact Nat.dvd_zero align

end

/-- A target is lawful if its jumps are aligned and nothing else fails. -/
lemma Backend.lawful_of_alignedJump {b : Backend} {align bits : Nat} {past : Int} (hpast : 0 ≤ past)
    (fault_emit : ∀ x : Operation b.Reg, x.Plain b.roles.tape → (b.emit x).fault = none)
    (dvd_length : ∀ x, align ∣ (b.emit x).bytes.length)
    (filler_length : (b.emit .loopFiller).bytes.length = b.jumpSize)
    (forth back : Int64 → Bytes)
    (hforth : ∀ k, b.emit (.jumpIfZero b.roles.tape k) = .alignedJump align bits past k { bytes := forth k })
    (hback : ∀ k, b.emit (.jumpIfNonzero b.roles.tape k) = .alignedJump align bits past k { bytes := back k })
    (length_forth : ∀ k, (forth k).length = b.jumpSize) (length_back : ∀ k, (back k).length = b.jumpSize) :
    b.Lawful align where
  dvd_length := dvd_length
  filler_fault := fault_emit .loopFiller trivial
  filler_length := filler_length
  jumpIfZero k := by
    rw [hforth]
    exact isJump_alignedJump rfl (length_forth k)
  jumpIfNonzero k := by
    rw [hback]
    exact isJump_alignedJump rfl (length_back k)
  jump_back k hk h := by
    rw [hforth] at h
    rw [hback]
    exact fault_alignedJump_neg rfl rfl hpast hk h
  prologue_fault x hx := fault_emit x (plain_of_mem_prologue hx)
  epilogue_fault x hx := fault_emit x (plain_of_mem_epilogue hx)
  expected o x hx f hf := nomatch (fault_emit x (plain_of_mem_operations hx)).symm.trans hf

/-! ## x86 -/

namespace X86

lemma assemble_eq {instrs : List Instr} (h : instrs.all Instr.encodable = true) :
    assemble instrs = { bytes := instrs.flatMap Instr.encode } := by
  rw [assemble, if_pos h]

lemma Reg.number_lt (r : Reg) : r.number.toNat + 0xb8 < 256 := by
  cases r <;> decide

section

variable {r : Reg} (hr : canPoint r.number = true) (cond : Cond) (k : Int64)
include hr

lemma loopJump_eq (hk : fits 32 k.toInt = true) : loopJump cond r k =
    { bytes := [Instr.testMem r.number 0xff, .jcc cond (Int32.ofInt k.toInt)].flatMap Instr.encode } := by
  rw [loopJump, if_pos hk, assemble_eq (by simp [Instr.encodable, hr])]

lemma isJump_loopJump : (loopJump cond r k).IsJump jumpSize 1 k := by
  by_cases hk : fits 32 k.toInt = true
  · rw [loopJump_eq hr cond k hk]
    exact .inl ⟨rfl, rfl⟩
  · rw [loopJump, if_neg hk]
    exact .inr ⟨_, rfl, nofun⟩

lemma fault_loopJump : (loopJump cond r k).fault = none ↔ fits 32 k.toInt = true := by
  by_cases hk : fits 32 k.toInt = true
  · exact iff_of_true (by rw [loopJump_eq hr cond k hk]) hk
  · exact iff_of_false (by rw [loopJump, if_neg hk]; nofun) hk

lemma loopJump_back (hk : 0 ≤ k.toInt) (h : (loopJump .zero r k).fault = none) :
    (loopJump .nonzero r (-k)).fault = none := by
  rw [fault_loopJump hr] at h ⊢
  rw [toInt_neg_of_nonneg hk, ← Int.add_zero (-k.toInt)]
  exact fits_neg hk (by decide) (by rwa [Int.add_zero])

end

end X86

namespace X86.Long

lemma encodable_load (r : Reg) (v : Int64) : (load r v).all Instr.encodable = true := by
  simp only [load]
  repeat' split
  all_goals simp [Instr.encodable, r.number_lt]

lemma emit_load (r : Reg) (v : Int64) : emit (.load r v) = { bytes := (load r v).flatMap Instr.encode } :=
  assemble_eq (encodable_load r v)

lemma encodable_change (op : Arith) (r : Reg) (n : UInt64) : (change op r n).all Instr.encodable = true := by
  unfold change
  split
  · rfl
  split
  · rfl
  split
  · rfl
  · rw [List.all_append, encodable_load]
    rfl

lemma fault_emit {x : Operation Reg} (h : x.Plain .bx) : (emit x).fault = none := by
  cases x with
  | load r v => rw [emit_load]
  | addReg r n | subReg r n => rw [emit, assemble_eq (encodable_change _ r n)]
  | incCell r | decCell r | addCell r | subCell r | clearCell r => cases h; rfl
  | jumpIfZero | jumpIfNonzero => cases h
  | _ => rfl

theorem lawful : backend.Lawful 1 where
  dvd_length _ := Nat.one_dvd _
  filler_fault := rfl
  filler_length := rfl
  jumpIfZero := isJump_loopJump rfl .zero
  jumpIfNonzero := isJump_loopJump rfl .nonzero
  jump_back := loopJump_back rfl
  prologue_fault _ hx := fault_emit (Backend.plain_of_mem_prologue hx)
  epilogue_fault _ hx := fault_emit (Backend.plain_of_mem_epilogue hx)
  expected _ _ hx _ hf := nomatch (fault_emit (Backend.plain_of_mem_operations hx)).symm.trans hf

end X86.Long

namespace X86.Protected

lemma fault_checked {ok : Bool} {v : Int} {e : Emission} (he : e.fault = none) :
    (checked ok v e).fault = if ok then none else some (Cause.immediateTooLarge v).fault := by
  unfold checked
  split
  · exact he
  · rw [he]
    rfl

lemma fault_load (r : Reg) (v : Int64) :
    (load r v).fault = if v.toInt = 0 ∨ -0x80000000 ≤ v.toInt ∧ v.toInt < UInt32.size then none
      else some (Cause.immediateTooLarge v.toInt).fault := by
  unfold load
  by_cases hv : v.toInt = 0
  · simp only [hv, if_true, true_or]
    rfl
  · have henc : (assemble [.movImm r.number v.toUInt64.toUInt32]).fault = none := by
      rw [assemble_eq (by simp [Instr.encodable, r.number_lt])]
    simp only [hv, if_false, false_or, fault_checked henc, Bool.and_eq_true, decide_eq_true_eq]

lemma fault_change (op : Arith) (r : Reg) (n : UInt64) :
    (change op r n).fault = if n.toNat < 2 ^ 32 then none else some (Cause.immediateTooLarge n.toNat).fault := by
  unfold change
  split
  · next h => subst h; rfl
  split
  · next h =>
    have := UInt64.le_iff_toNat_le.mp h
    rw [if_pos (by simp at this; omega)]
    rfl
  · have hsize : UInt32.size = 2 ^ 32 := rfl
    rw [fault_checked (by rfl)]
    simp only [decide_eq_true_eq, hsize]

lemma expected_emit {x : Operation Reg} (h : x.Plain .si) {f : Fault} (hf : (emit x).fault = some f) :
    f.Expected := by
  have himm (v : Int) : (Cause.immediateTooLarge v).fault.Expected := Cause.expected_fault nofun
  cases x with
  | load r v =>
    rw [emit, fault_load] at hf
    split at hf <;> cases hf
    exact himm _
  | addReg r n | subReg r n =>
    rw [emit, fault_change] at hf
    split at hf <;> cases hf
    exact himm _
  | incCell r | decCell r | addCell r | subCell r | clearCell r => cases h; cases hf
  | jumpIfZero | jumpIfNonzero => cases h
  | _ => cases hf

theorem lawful : backend.Lawful 1 where
  dvd_length _ := Nat.one_dvd _
  filler_fault := rfl
  filler_length := rfl
  jumpIfZero := isJump_loopJump rfl .zero
  jumpIfNonzero := isJump_loopJump rfl .nonzero
  jump_back := loopJump_back rfl
  prologue_fault := by
    simp only [Backend.prologue, List.forall_mem_singleton]
    rfl
  epilogue_fault := by
    simp only [Backend.epilogue, List.forall_mem_cons]
    exact ⟨rfl, rfl, rfl, nofun⟩
  expected _ _ hx _ hf := expected_emit (Backend.plain_of_mem_operations hx) hf

/-- A move that takes one operation for a count of 1 and another for every other count. -/
lemma fault_move (op : Arith) (one : Operation Reg) (hone : (emit one).fault = none) (n : UInt64)
    (many : Operation Reg) (hmany : emit many = change op .si n) :
    (∀ x ∈ if n = 1 then [one] else [many], (emit x).fault = none) ↔ n.toNat < 2 ^ 32 := by
  split
  · next h => simp [h, hone]
  · rw [List.forall_mem_singleton, hmany, fault_change]
    by_cases h : n.toNat < 2 ^ 32 <;> simp only [h, if_true, if_false, reduceCtorEq]

/-- Nothing fails but a move by a count that takes more than 32 bits. -/
theorem faultless_iff (o : Op) :
    backend.Faultless o ↔ ∀ n, o = .right n ∨ o = .left n → n.toNat < 2 ^ 32 := by
  cases o with
  | right n =>
    exact (fault_move .add (.incReg .si) rfl n (.addReg .si n) rfl).trans (by simp)
  | left n =>
    exact (fault_move .sub (.decReg .si) rfl n (.subReg .si n) rfl).trans (by simp)
  | add n | sub n =>
    refine iff_of_true (fun x hx => ?_) nofun
    simp only [Backend.operations] at hx
    repeat' split at hx
    all_goals simp at hx
    all_goals subst hx; rfl
  | output | input =>
    refine iff_of_true ?_ nofun
    simp only [Backend.Faultless, Backend.operations, Backend.transfer, List.forall_mem_cons]
    exact ⟨rfl, rfl, rfl, rfl, rfl, nofun⟩
  | clear =>
    refine iff_of_true ?_ nofun
    simp only [Backend.Faultless, Backend.operations, List.forall_mem_singleton]
    rfl
  | loopOpen | loopClose => exact iff_of_true nofun nofun

end X86.Protected

/-! ## ARM64 -/

namespace Arm64

lemma fault_emit (x : Operation Reg) (h : x.Plain backend.roles.tape) : (emit x).fault = none := by
  cases x with
  | jumpIfZero | jumpIfNonzero => cases h
  | _ => rfl

lemma dvd_length_assemble (instrs : List Instr) : 4 ∣ (assemble instrs).bytes.length :=
  dvd_length_flatMap (fun i => by simp [Instr.encode]) instrs

lemma dvd_length_emit (x : Operation Reg) : 4 ∣ (emit x).bytes.length := by
  cases x with
  | jumpIfZero r k | jumpIfNonzero r k => exact dvd_length_alignedJump (dvd_length_assemble _)
  | _ => exact dvd_length_assemble _

theorem lawful : backend.Lawful 4 :=
  Backend.lawful_of_alignedJump (by decide) fault_emit dvd_length_emit rfl _ _ (fun _ => rfl) (fun _ => rfl)
    (fun _ => rfl) (fun _ => rfl)

end Arm64

/-! ## RISC-V -/

namespace Riscv64

lemma fault_emit (x : Operation Reg) (h : x.Plain backend.roles.tape) : (emit x).fault = none := by
  cases x with
  | jumpIfZero | jumpIfNonzero => cases h
  | _ => rfl

lemma dvd_length_assemble (instrs : List Instr) : 2 ∣ (assemble instrs).bytes.length :=
  dvd_length_flatMap (fun i => by cases i <;> simp [Instr.encode]) instrs

lemma dvd_length_emit (x : Operation Reg) : 2 ∣ (emit x).bytes.length := by
  cases x with
  | jumpIfZero r k | jumpIfNonzero r k => exact dvd_length_alignedJump (dvd_length_assemble _)
  | _ => exact dvd_length_assemble _

theorem lawful : backend.Lawful 2 :=
  Backend.lawful_of_alignedJump (by decide) fault_emit dvd_length_emit rfl _ _ (fun _ => rfl) (fun _ => rfl)
    (fun _ => rfl) (fun _ => rfl)

end Riscv64

/-! ## s390x -/

namespace S390x

lemma fault_emit (x : Operation Reg) (h : x.Plain backend.roles.tape) : (emit x).fault = none := by
  cases x with
  | jumpIfZero | jumpIfNonzero => cases h
  | _ => rfl

lemma dvd_length_assemble (instrs : List Instr) : 2 ∣ (assemble instrs).bytes.length :=
  dvd_length_flatMap (fun i => by cases i <;> simp [Instr.encode, formatRI, formatRIL, head]) instrs

lemma dvd_length_emit (x : Operation Reg) : 2 ∣ (emit x).bytes.length := by
  cases x with
  | jumpIfZero r k | jumpIfNonzero r k => exact dvd_length_alignedJump (dvd_length_assemble _)
  | _ => exact dvd_length_assemble _

theorem lawful : backend.Lawful 2 :=
  Backend.lawful_of_alignedJump (by decide) fault_emit dvd_length_emit rfl _ _ (fun _ => rfl) (fun _ => rfl)
    (fun _ => rfl) (fun _ => rfl)

end S390x

/-! ## All targets -/

namespace Arch

/-- **Every target is lawful.** -/
theorem lawful (arch : Arch) : arch.backend.Lawful arch.alignment :=
  match arch with
  | x86_64 => X86.Long.lawful
  | i386 => X86.Protected.lawful
  | arm64 => Arm64.lawful
  | riscv64 => Riscv64.lawful
  | s390x => S390x.lawful

/-- **What can fail outside loop control:** a move on i386 by a count that takes more than 32 bits. -/
theorem faultless_iff (arch : Arch) (o : Op) : arch.backend.Faultless o ↔ arch.CanMove o := by
  cases arch with
  | i386 => rw [CanMove, ← X86.Protected.faultless_iff, forall_prop_of_true rfl, backend]
  | x86_64 => exact iff_of_true (fun x hx => X86.Long.fault_emit (Backend.plain_of_mem_operations hx)) nofun
  | arm64 => exact iff_of_true (fun x hx => Arm64.fault_emit x (Backend.plain_of_mem_operations hx)) nofun
  | riscv64 => exact iff_of_true (fun x hx => Riscv64.fault_emit x (Backend.plain_of_mem_operations hx)) nofun
  | s390x => exact iff_of_true (fun x hx => S390x.fault_emit x (Backend.plain_of_mem_operations hx)) nofun

end Arch

end TapeElf
