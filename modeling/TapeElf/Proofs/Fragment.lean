import TapeElf.Proofs.Generation
import TapeElf.Proofs.Processor

/-!
# Fragments of code

What the pieces of code that generated programs are made of do on a processor, in words that suit every target.

* `Tape`: an address and the bytes of memory, and what an operation and an op make of them, modulo 256 and modulo the
  size of the address space (`Operation.act`, `Op.act`).
* `Usage`: the registers that a target has set aside.
* `Processor.Performs bytes f`: the code acts on the tape as `f` says, and changes nothing else but the scratch register
  and the flags. Pieces act one after the other (`Performs.append`), so what has to be shown of a target is what its
  operations do: `performs_opCode` and `performs_flatMap` go from there to ops and to lists of them.
* `Processor.Branches bytes r taken offset`: the code jumps by `offset` if the byte that `r` points to is `taken`.
-/

namespace TapeElf

/-! ## Tapes -/

/-- What ops work on. -/
structure Tape (bits : Nat) where
  /-- The address of the current cell. -/
  pointer : BitVec bits
  memory : BitVec bits → UInt8

section

variable {bits : Nat}

namespace Tape

def move (d : BitVec bits) (t : Tape bits) : Tape bits := { t with pointer := t.pointer + d }

def alter (f : UInt8 → UInt8) (t : Tape bits) : Tape bits :=
  { t with memory := Function.update t.memory t.pointer (f (t.memory t.pointer)) }

@[simp] lemma move_zero (t : Tape bits) : t.move 0 = t :=
  congrArg (Tape.mk · t.memory) (BitVec.add_zero t.pointer)

lemma alter_of_forall {f : UInt8 → UInt8} (h : ∀ b, f b = b) (t : Tape bits) : t.alter f = t := by
  simp [alter, h]

end Tape

/-- What an operation on the tape register makes of the tape. -/
def Operation.act {Reg : Type} : Operation Reg → Tape bits → Tape bits
  | incReg _ => Tape.move 1
  | decReg _ => Tape.move (-1)
  | addReg _ n => Tape.move (BitVec.ofNat bits n.toNat)
  | subReg _ n => Tape.move (-BitVec.ofNat bits n.toNat)
  | incCell _ => Tape.alter (· + 1)
  | decCell _ => Tape.alter (· - 1)
  | addCell _ n => Tape.alter (· + n)
  | subCell _ n => Tape.alter (· - n)
  | clearCell _ => Tape.alter fun _ => 0
  | load .. | copy .. | syscall | loopFiller | jumpIfZero .. | jumpIfNonzero .. => id

/-- What an op outside loops makes of the tape. -/
def Op.act : Op → Tape bits → Tape bits
  | add n => Tape.alter (· + n.toUInt8)
  | sub n => Tape.alter (· - n.toUInt8)
  | right n => Tape.move (BitVec.ofNat bits n.toNat)
  | left n => Tape.move (-BitVec.ofNat bits n.toNat)
  | clear => Tape.alter fun _ => 0
  | output | input | loopOpen | loopClose => id

/-- An op that neither loops nor communicates. -/
def Op.Straight : Op → Prop
  | add _ | sub _ | right _ | left _ | clear => True
  | output | input | loopOpen | loopClose => False

/-- An operation that moves the tape register or changes the cell that it points to. -/
def Operation.OnTape {Reg : Type} (tape : Reg) : Operation Reg → Prop
  | incReg r | decReg r | addReg r _ | subReg r _ | incCell r | decCell r | addCell r _ | subCell r _ | clearCell r =>
    r = tape
  | load .. | copy .. | syscall | loopFiller | jumpIfZero .. | jumpIfNonzero .. => False

lemma Backend.onTape_of_mem_operations {b : Backend} {o : Op} (ho : o.Straight) {x : Operation b.Reg}
    (h : x ∈ b.operations o) : x.OnTape b.roles.tape := by
  cases o with
  | add n | sub n =>
    simp only [operations] at h
    split_ifs at h
    · obtain rfl := List.mem_singleton.mp h
      rfl
    · cases h
    · obtain rfl := List.mem_singleton.mp h
      rfl
  | right n | left n =>
    simp only [operations] at h
    split_ifs at h
    all_goals
      obtain rfl := List.mem_singleton.mp h
      rfl
  | clear =>
    obtain rfl := List.mem_singleton.mp h
    rfl
  | output | input | loopOpen | loopClose => exact ho.elim

/-- Operations one after the other. -/
def Operation.actAll {Reg : Type} (xs : List (Operation Reg)) (t : Tape bits) : Tape bits :=
  xs.foldl (fun t x => x.act t) t

lemma toUInt8_eq_zero {n : UInt64} (h : n % 256 = 0) : n.toUInt8 = 0 := by
  have hmod : n.toNat % 256 = 0 := by
    simpa using congrArg UInt64.toNat h
  rw [← UInt8.toNat_inj, UInt64.toNat_toUInt8]
  exact hmod

/-- The operations of an op do what it says: a count of 1 has operations of its own, and a cell that is changed by a
multiple of 256 stays as it is. -/
lemma Backend.actAll_operations (b : Backend) {o : Op} (ho : o.Straight) (t : Tape bits) :
    Operation.actAll (b.operations o) t = o.act t := by
  cases o with
  | add n =>
    simp only [operations]
    split_ifs with hone hzero
    · subst hone
      rfl
    · rw [Op.act, toUInt8_eq_zero hzero, Tape.alter_of_forall UInt8.add_zero]
      rfl
    · rfl
  | sub n =>
    simp only [operations]
    split_ifs with hone hzero
    · subst hone
      rfl
    · rw [Op.act, toUInt8_eq_zero hzero, Tape.alter_of_forall UInt8.sub_zero]
      rfl
    · rfl
  | right n | left n =>
    simp only [operations]
    split_ifs with hone
    · subst hone
      rfl
    · rfl
  | clear => rfl
  | output | input | loopOpen | loopClose => exact ho.elim

end

/-! ## Registers -/

/-- The registers that a target has set aside, by number. -/
structure Usage where
  /-- The register that points to the current cell. -/
  tape : Nat
  /-- The register that code may use in between. -/
  scratch : Option Nat
  /-- The register that has to hold zero. -/
  zero : Option Nat
  tape_ne_zero : tape ∉ zero := by simp
  scratch_ne_zero : ∀ r ∈ scratch, r ∉ zero := by simp

namespace Processor

variable {bits : Nat} {Flags Instr : Type} {P : Processor bits Flags Instr} {u : Usage} {x y : Bytes}
  {f g : Tape bits → Tape bits}

def tape (P : Processor bits Flags Instr) (u : Usage) (m : Core bits Flags) : Tape bits := ⟨P.value m u.tape, m.memory⟩

/-! ## Straight code -/

/-- The code acts on the tape, and leaves all registers as they are but that of the tape and the scratch register. -/
def Performs (P : Processor bits Flags Instr) (u : Usage) (bytes : Bytes) (f : Tape bits → Tape bits) : Prop :=
  ∀ m, (∀ z ∈ u.zero, m.regs z = 0) → ∃ m', P.Passes bytes m m' ∧ P.tape u m' = f (P.tape u m) ∧
    ∀ r, r ≠ u.tape → r ∉ u.scratch → m'.regs r = m.regs r

lemma performs_nil (h : ∀ t, f t = t) : P.Performs u [] f := fun m _ => ⟨m, .nil m, (h _).symm, fun _ _ _ => rfl⟩

lemma Performs.append (h : P.Performs u x f) (h' : P.Performs u y g) : P.Performs u (x ++ y) (g ∘ f) := by
  intro m hm
  obtain ⟨m₁, hpass, htape, hregs⟩ := h m hm
  have hzero : ∀ z ∈ u.zero, m₁.regs z = 0 := by
    intro z hz
    have htape : z ≠ u.tape := by
      rintro rfl
      exact u.tape_ne_zero hz
    rw [hregs z htape fun hs => u.scratch_ne_zero z hs hz, hm z hz]
  obtain ⟨m₂, hpass', htape', hregs'⟩ := h' m₁ hzero
  refine ⟨m₂, hpass.append hpass', ?_, fun r hr hs => (hregs' r hr hs).trans (hregs r hr hs)⟩
  rw [htape', htape, Function.comp_apply]

/-- Code that changes the tape register only. -/
lemma Maps.performs {move : BitVec bits → BitVec bits} (h : P.Maps x u.tape move)
    (hvalue : ∀ m, P.value m u.tape = m.regs u.tape) :
    P.Performs u x fun t => { t with pointer := move t.pointer } := by
  intro m _
  obtain ⟨m', hpass, hregs, hmemory⟩ := h m
  refine ⟨m', hpass, ?_, ?_⟩
  · simp only [tape, hvalue, hregs, hmemory, Function.update_self]
  · intro r hr _
    rw [hregs, Function.update_of_ne hr]

/-! Where there is no instruction for it, an operation goes through the scratch register. -/

section

variable {s : Nat} (hs : s ∈ u.scratch) (hne : s ≠ u.tape) (hvalue : ∀ m, P.value m u.tape = m.regs u.tape)
include hs hne hvalue

lemma performs_constant {c : BitVec bits} (h : P.Maps x s fun _ => c)
    (h' : ∀ m, m.regs s = c → ∃ m', P.Passes y m m' ∧ P.tape u m' = f (P.tape u m) ∧
      ∀ r, r ≠ u.tape → r ∉ u.scratch → m'.regs r = m.regs r) : P.Performs u (x ++ y) f := by
  intro m _
  obtain ⟨m₁, hpass, hregs, hmemory⟩ := h m
  obtain ⟨m₂, hpass', htape', hregs'⟩ := h' m₁ (by rw [hregs, Function.update_self])
  have htape : P.tape u m₁ = P.tape u m := by
    simp only [tape, hvalue, hregs, hmemory, Function.update_of_ne hne.symm]
  refine ⟨m₂, hpass.append hpass', by rw [htape', htape], ?_⟩
  intro r hr hscratch
  have hr' : r ≠ s := by
    rintro rfl
    exact hscratch hs
  rw [hregs' r hr hscratch, hregs, Function.update_of_ne hr']

lemma performs_alter (extend : UInt8 → BitVec bits) {z : Bytes} {change : BitVec bits → BitVec bits}
    {f : UInt8 → UInt8}
    (hload : ∀ m, ∃ m', P.Passes x m m' ∧
      m'.regs = Function.update m.regs s (extend (m.memory (P.value m u.tape))) ∧ m'.memory = m.memory)
    (hchange : P.Maps y s change)
    (hstore : ∀ m, ∃ m', P.Passes z m m' ∧ m'.regs = m.regs ∧
      m'.memory = Function.update m.memory (P.value m u.tape) ⟨(m.regs s).setWidth 8⟩)
    (hf : ∀ b, ⟨(change (extend b)).setWidth 8⟩ = f b) : P.Performs u (x ++ (y ++ z)) (Tape.alter f) := by
  intro m _
  obtain ⟨m₁, hpass₁, hregs₁, hmemory₁⟩ := hload m
  obtain ⟨m₂, hpass₂, hregs₂, hmemory₂⟩ := hchange m₁
  obtain ⟨m₃, hpass₃, hregs₃, hmemory₃⟩ := hstore m₂
  have hregs : m₂.regs = Function.update m.regs s (change (extend (m.memory (P.value m u.tape)))) := by
    rw [hregs₂, hregs₁, Function.update_idem, Function.update_self]
  refine ⟨m₃, hpass₁.append (hpass₂.append hpass₃), ?_, ?_⟩
  · simp only [tape, Tape.alter, hvalue, hregs₃, hmemory₃, hmemory₂, hmemory₁, hregs, Function.update_of_ne hne.symm,
      Function.update_self, hf]
  · intro r hr hscratch
    have hr' : r ≠ s := by
      rintro rfl
      exact hscratch hs
    rw [hregs₃, hregs, Function.update_of_ne hr']

end

/-! Operations are put together to ops, and ops to programs. -/

/-- What the operations of a target do, the ops that it makes of them do too. -/
lemma performs_opCode {b : Backend} {o : Op} (ho : o.Straight)
    (h : ∀ x : Operation b.Reg, x.OnTape b.roles.tape → P.Performs u (b.emit x).bytes x.act) :
    P.Performs u (b.opCode o) o.act := by
  have hall : ∀ xs : List (Operation b.Reg), (∀ x ∈ xs, x.OnTape b.roles.tape) →
      P.Performs u (b.bytes xs) (Operation.actAll xs) := by
    intro xs hxs
    induction xs with
    | nil => exact performs_nil fun _ => rfl
    | cons x xs ih =>
      obtain ⟨hx, hxs⟩ := List.forall_mem_cons.mp hxs
      exact (h x hx).append (ih hxs)
  have hact : (Operation.actAll (b.operations o) : Tape bits → Tape bits) = o.act :=
    funext fun t => b.actAll_operations ho t
  rw [← hact]
  exact hall _ fun x hx => b.onTape_of_mem_operations ho hx

lemma performs_flatMap {b : Backend} {ops : List Op} (h : ∀ o ∈ ops, P.Performs u (b.opCode o) o.act) :
    P.Performs u (ops.flatMap b.opCode) fun t => ops.foldl (fun t o => o.act t) t := by
  induction ops with
  | nil => exact performs_nil fun _ => rfl
  | cons o ops ih =>
    obtain ⟨ho, hops⟩ := List.forall_mem_cons.mp h
    exact ho.append (ih hops)

/-! ## Jumps -/

/-- The code jumps by `offset` from its end if the byte that a register points to is `taken`, and goes on behind itself
if not. It changes no memory, and no register but the scratch register. A jump back to its own start is made too: it
takes a step or more. -/
def Branches (P : Processor bits Flags Instr) (scratch : Option Nat) (bytes : Bytes) (r : Nat) (taken : UInt8 → Bool)
    (offset : Int) : Prop :=
  ∀ m, ∃ m', P.LeadsOn bytes m m' ∧
    m'.pc = m.pc + BitVec.ofNat bits bytes.length +
      (if taken (m.memory (P.value m r)) then BitVec.ofInt bits offset else 0) ∧
    m'.memory = m.memory ∧ ∀ k, k ∉ scratch → m'.regs k = m.regs k

/-- A jump on the flags, behind code that sets them by the byte. -/
lemma Encodes.branches {scratch : Option Nat} {r : Nat} {taken : UInt8 → Bool} {offset : Int} {i : Instr}
    (holds : Flags → Bool) (h : P.Encodes y i)
    (hexec : ∀ own m, m.pc = own + BitVec.ofNat bits y.length →
      P.exec i own m = some (if holds m.flags then m.goto (m.pc + BitVec.ofInt bits offset) else m))
    (hx : ∀ m, ∃ m', P.Passes x m m' ∧ holds m'.flags = taken (m.memory (P.value m r)) ∧ m'.memory = m.memory ∧
      ∀ k, k ∉ scratch → m'.regs k = m.regs k) : P.Branches scratch (x ++ y) r taken offset := by
  intro m
  obtain ⟨m₁, hpass, hflags, hmemory, hregs⟩ := hx m
  have hend : m₁.pc + BitVec.ofNat bits y.length = m.pc + BitVec.ofNat bits (x ++ y).length := by
    rw [hpass.1, List.length_append, BitVec.ofNat_add, BitVec.add_assoc]
  refine ⟨_, hpass.append_leadsOn (h.leadsOn (hexec _ _ rfl)), ?_, ?_, ?_⟩
  · rw [← hend, ← hflags]
    split
    · next hholds =>
      rw [if_pos (show holds m₁.flags = true from hholds)]
      rfl
    · next hholds =>
      rw [if_neg (show ¬ holds m₁.flags = true from hholds)]
      exact (BitVec.add_zero _).symm
  · rw [← hmemory]
    split <;> rfl
  · intro k hk
    rw [← hregs k hk]
    split <;> rfl

end Processor

end TapeElf
