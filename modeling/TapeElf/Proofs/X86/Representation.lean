import TapeElf.Proofs.Generation
import TapeElf.Proofs.X86.Fragments

/-!
# A machine that holds the state of a program

The cell at position `k` is the byte at `address k`. `Represents size s m`: on a tape of `size` cells, the machine
`m` holds the state `s`; `rbx` points to the current cell, and nothing is said of the other registers.

`executes_op`: the code of an op takes a machine that holds a state to one that holds the state after the op.
-/

namespace TapeElf

/-- The same read or write at another place. -/
def Action.shift (k : Int) : Action → Action
  | write position b => write (k + position) b
  | read position b => read (k + position) b

namespace X86

variable {ι : Type*}

/-! ## Addresses -/

/-- The address of the cell at a position. -/
def address (k : Int) : UInt64 := UInt64.ofInt (Elf.tapeAddress + k)

lemma address_add (k j : Int) : address (k + j) = address k + UInt64.ofInt j := by
  rw [address, ← Int.add_assoc, UInt64.ofInt_add]
  rfl

lemma ofInt_toNat (n : UInt64) : UInt64.ofInt n.toNat = n := by
  rw [← UInt64.toNat_inj, ← Int.natCast_inj, toNat_ofInt]
  have := n.toNat_lt
  omega

section

variable {size : Nat} (hsize : Elf.tapeAddress + size ≤ 2 ^ 64) {j k : Int}
include hsize

lemma toNat_address (hk : 0 ≤ k ∧ k < size) : ((address k).toNat : Int) = Elf.tapeAddress + k := by
  rw [address, toNat_ofInt]
  omega

lemma address_injective (hj : 0 ≤ j ∧ j < size) (hk : 0 ≤ k ∧ k < size) (h : address j = address k) : j = k := by
  have hj' := toNat_address hsize hj
  have hk' := toNat_address hsize hk
  rw [h] at hj'
  omega

end

/-! ## States -/

/-- The reads and writes of a program on this system: a read at the end of the input leaves the cell alone. -/
def World.console (w : World ι) : Console ι := { next := w.next, atEnd := id }

/-- There is a tape of `size` cells: it ends within the address space, and each of its addresses holds data. -/
structure World.HasTape (w : World ι) (size : Nat) : Prop where
  fits : Elf.tapeAddress + size ≤ 2 ^ 64
  mapped : ∀ a : UInt64, Elf.tapeAddress ≤ a.toNat → a.toNat < Elf.tapeAddress + size → w.mapped a = true

/-- The machine holds a state of a program. -/
structure Represents (size : Nat) (s : State ι) (m : Machine ι) : Prop where
  pointer : m.regs 3 = address s.pointer
  memory : ∀ k : Int, 0 ≤ k ∧ k < size → m.memory (address k) = s.cells k
  input : m.input = s.input
  calls : m.calls = s.actions.map (Action.shift Elf.tapeAddress)
  status : m.status = none

/-- The pointer is on the tape. -/
def OnTape (size : Nat) (s : State ι) : Prop := 0 ≤ s.pointer ∧ s.pointer < size

variable {size : Nat} {w : World ι} {s : State ι} {m m' : Machine ι}

namespace Represents

lemma cell (h : Represents size s m) (hs : OnTape size s) : m.memory (m.regs 3) = s.cell := by
  rw [h.pointer]
  exact h.memory s.pointer hs

lemma move (h : Represents size s m) (hsame : SameData m m') {k : Int} (hp : m'.regs 3 = m.regs 3 + UInt64.ofInt k) :
    Represents size (s.move k) m' where
  pointer := by
    rw [hp, h.pointer, ← address_add]
    rfl
  memory := by
    rw [hsame.memory]
    exact h.memory
  input := hsame.input.trans h.input
  calls := hsame.calls.trans h.calls
  status := hsame.status.trans h.status

/-- Other registers do not matter. -/
lemma of_sameData (h : Represents size s m) (hsame : SameData m m') (hp : m'.regs 3 = m.regs 3) :
    Represents size s m' := by
  have := h.move hsame (k := 0) (by rw [hp]; exact (UInt64.add_zero _).symm)
  rwa [State.move_zero] at this

lemma logged (h : Represents size s m) {a call : Action} (hcall : call = a.shift Elf.tapeAddress) :
    Represents size { s with actions := s.actions ++ [a] } (m.logged w call) where
  pointer := h.pointer
  memory := h.memory
  input := h.input
  calls := by
    change m.calls ++ [call] = _
    rw [h.calls, hcall, List.map_append, List.map_singleton]
  status := h.status

lemma mapped (h : Represents size s m) (hs : OnTape size s) (hw : w.HasTape size) : w.mapped (m.regs 3) = true := by
  have ha := toNat_address hw.fits hs
  obtain ⟨hlo, hhi⟩ := hs
  rw [h.pointer]
  exact hw.mapped _ (by omega) (by omega)

lemma setCell (h : Represents size s m) (hs : OnTape size s) (hsize : Elf.tapeAddress + size ≤ 2 ^ 64) {v : UInt8}
    (hp : m'.regs 3 = m.regs 3) (hm : m'.memory = Function.update m.memory (m.regs 3) v) (hi : m'.input = m.input)
    (hc : m'.calls = m.calls) (hst : m'.status = m.status) : Represents size (s.setCell v) m' where
  pointer := hp.trans h.pointer
  memory k hk := by
    rw [hm, h.pointer]
    change _ = Function.update s.cells s.pointer v k
    by_cases hks : k = s.pointer
    · rw [hks, Function.update_self, Function.update_self]
    · rw [Function.update_of_ne (fun e => hks (address_injective hsize hk hs e)), Function.update_of_ne hks]
      exact h.memory k hk
  input := hi.trans h.input
  calls := hc.trans h.calls
  status := hst.trans h.status

end Represents

/-! ## Ops -/

section

variable (hw : w.HasTape size)

lemma regular_cell : (3 : UInt8) < 8 ∧ canPoint 3 = true := by decide

include hw

lemma executes_alter (h : Represents size s m) (hs : OnTape size s) {i : Instr} (hi : i.Regular) {f : UInt8 → UInt8}
    (hexec : ∀ m : Machine ι, exec w m false i = m.alter w 3 f) :
    ∃ m', Executes w i.encode m m' ∧ Represents size (s.setCell (f s.cell)) m' := by
  have hmapped := h.mapped hs hw
  refine ⟨{ m with
    pc := m.pc + i.encode.length
    memory := Function.update m.memory (m.regs 3) (f (m.memory (m.regs 3)))
    zero := f (m.memory (m.regs 3)) == 0 }, executes_instr hi h.status ?_ rfl, ?_⟩
  · rw [hexec]
    simp only [Machine.alter, Machine.store, hmapped, if_true, Option.map_some]
  · exact h.setCell hs hw.fits rfl (by rw [h.cell hs]) rfl rfl rfl

/-- A change of the cell: one operation for a count of 1, nothing for a full turn, and another operation for every
other count. -/
lemma executes_changeCell (h : Represents size s m) (hs : OnTape size s) (op : Arith) (n : UInt64) (one : Instr)
    (hone : one.Regular) (hexec : ∀ m : Machine ι, exec w m false one = m.alter w 3 (op.apply · 1))
    {x y : Operation Long.backend.Reg} (hx : (Long.backend.emit x).bytes = one.encode)
    (hy : (Long.backend.emit y).bytes = (Instr.arithMem op 3 n.toUInt8).encode) :
    ∃ m', Executes w (Long.backend.bytes (if n = 1 then [x] else if n % 256 = 0 then [] else [y])) m m' ∧
      Represents size (s.setCell (op.apply s.cell n.toUInt8)) m' := by
  split
  · next hn =>
    rw [Backend.bytes_cons, Backend.bytes_nil, List.append_nil, hx]
    subst hn
    exact executes_alter hw h hs hone hexec
  split
  · next hn =>
    have hzero : n.toUInt8 = 0 := by
      rw [← UInt8.toNat_inj, UInt64.toNat_toUInt8]
      have := congrArg UInt64.toNat hn
      simpa using this
    have happly : op.apply s.cell 0 = s.cell := by cases op <;> simp [Arith.apply]
    refine ⟨m, .nil m, ?_⟩
    rwa [hzero, happly, State.setCell_cell]
  · rw [Backend.bytes_cons, Backend.bytes_nil, List.append_nil, hy]
    exact executes_alter (i := .arithMem op 3 n.toUInt8) hw h hs regular_cell fun _ => rfl

end

/-- A move: one operation for a count of 1, and another for every other count. -/
lemma executes_move (h : Represents size s m) (op : Arith) (n : UInt64) (one : Instr) (hone : one.Regular)
    (hexec : ∀ m : Machine ι, exec w m false one = some (m.result 3 (op.apply (m.regs 3) 1)))
    {x y : Operation Long.backend.Reg} (hx : (Long.backend.emit x).bytes = one.encode)
    (hy : Long.backend.emit y = assemble (Long.change op .bx n)) {k : Int}
    (hk : ∀ a : UInt64, op.apply a n = a + UInt64.ofInt k) :
    ∃ m', Executes w (Long.backend.bytes (if n = 1 then [x] else [y])) m m' ∧ Represents size (s.move k) m' := by
  split
  · next hn =>
    rw [Backend.bytes_cons, Backend.bytes_nil, List.append_nil, hx]
    subst hn
    obtain ⟨m', hex, hsame, hregs⟩ := Long.sets_result (w := w) hone h.status (hexec _)
    refine ⟨m', hex, h.move hsame ?_⟩
    rw [hregs, Function.update_self]
    exact hk _
  · rw [Backend.bytes_cons, Backend.bytes_nil, List.append_nil, hy, assemble_eq (Long.encodable_change op .bx n)]
    obtain ⟨m', hex, hsame, hregs⟩ := Long.executes_change (w := w) op .bx nofun n h.status
    refine ⟨m', hex, h.move hsame ?_⟩
    rw [hregs 3 (by decide)]
    exact (Function.update_self _ _ _).trans (hk _)

lemma Long.bytes_load (r : Reg) (v : Int64) : (backend.emit (.load r v)).bytes = (load r v).flatMap Instr.encode :=
  congrArg Emission.bytes (emit_load r v)

lemma executes_arguments (hs : m.status = none) (call fd : Int64) :
    ∃ m', Executes w (Long.backend.bytes [.load .ax call, .load .di fd, .copy .si .bx, .load .dx 1]) m m' ∧
      SameData m m' ∧
      m'.regs 3 = m.regs 3 ∧ m'.regs 0 = call.toUInt64 ∧ m'.regs 7 = fd.toUInt64 ∧ m'.regs 6 = m.regs 3 ∧
      m'.regs 2 = 1 := by
  obtain ⟨m₁, hex₁, hsame₁, hregs₁⟩ := Long.sets_load (w := w) .ax call hs
  obtain ⟨m₂, hex₂, hsame₂, hregs₂⟩ := Long.sets_load (w := w) .di fd (hsame₁.status.trans hs)
  have hsame₂' := hsame₁.trans hsame₂
  have hcopy : (Instr.wide (.mov 6 3)).Regular := ⟨by decide, by decide⟩
  obtain ⟨m₃, hex₃, hsame₃, hregs₃⟩ :=
    sets_instr (w := w) (r := 6) (v := m₂.regs 3) hcopy (hsame₂'.status.trans hs) ⟨m₂.zero, rfl⟩
  have hsame₃' := hsame₂'.trans hsame₃
  obtain ⟨m₄, hex₄, hsame₄, hregs₄⟩ := Long.sets_load (w := w) .dx 1 (hsame₃'.status.trans hs)
  have hex := hex₁.append (hex₂.append (hex₃.append (hex₄.append (.nil m₄))))
  simp only [← Long.bytes_load] at hex
  refine ⟨m₄, hex, hsame₃'.trans hsame₄, ?_⟩
  have hlen : (1 : Int64).toUInt64 = 1 := rfl
  rw [hregs₄, hregs₃, hregs₂, hregs₁]
  simp [Reg.number, hlen]

lemma executes_transfer (h : Represents size s m) (call fd : Int64) {t : State ι}
    (hsys : ∀ m : Machine ι, Represents size s m → m.regs 0 = call.toUInt64 → m.regs 7 = fd.toUInt64 →
      m.regs 6 = m.regs 3 → m.regs 2 = 1 → ∃ m', m.syscall w = some m' ∧ m'.pc = m.pc ∧ Represents size t m') :
    ∃ m', Executes w (Long.backend.bytes (Long.backend.transfer call fd)) m m' ∧ Represents size t m' := by
  obtain ⟨m₁, hex₁, hsame, hbx, hax, hdi, hsi, hdx⟩ := executes_arguments (w := w) h.status call fd
  have h₁ := h.of_sameData hsame hbx
  obtain ⟨m', hcall, hpc, h'⟩ := hsys { m₁ with pc := m₁.pc + Instr.syscall.encode.length }
    ⟨h₁.pointer, h₁.memory, h₁.input, h₁.calls, h₁.status⟩ hax hdi (hsi.trans hbx.symm) hdx
  have hex₂ : Executes w Instr.syscall.encode m₁ m' := executes_instr trivial h₁.status hcall hpc
  have hex := hex₁.append hex₂
  simp only [Backend.bytes_cons, Backend.bytes_nil, List.append_assoc, List.nil_append] at hex
  exact ⟨m', hex, h'⟩

section

variable (hw : w.HasTape size)
include hw

lemma syscall_write (h : Represents size s m) (hs : OnTape size s) (hcall : m.regs 0 = 1) (hfd : m.regs 7 = 1)
    (hptr : m.regs 6 = m.regs 3) (hlen : m.regs 2 = 1) :
    ∃ m', m.syscall w = some m' ∧ m'.pc = m.pc ∧ Represents size (Console.write s) m' := by
  have hmapped := h.mapped hs hw
  refine ⟨m.logged w (.write (m.regs 3).toNat (m.memory (m.regs 3))), ?_, rfl, h.logged ?_⟩
  · simp only [Machine.syscall, hcall, hfd, hptr, hlen, hmapped]
    rfl
  · rw [h.cell hs, h.pointer, toNat_address hw.fits hs, Action.shift]

lemma syscall_read (h : Represents size s m) (hs : OnTape size s) (hcall : m.regs 0 = 0) (hfd : m.regs 7 = 0)
    (hptr : m.regs 6 = m.regs 3) (hlen : m.regs 2 = 1) :
    ∃ m', m.syscall w = some m' ∧ m'.pc = m.pc ∧ Represents size (w.console.read s) m' := by
  have hmapped := h.mapped hs hw
  have hpos : ((m.regs 3).toNat : Int) = Elf.tapeAddress + s.pointer := by
    rw [h.pointer, toNat_address hw.fits hs]
  have hsys : m.syscall w = some (m.read w (m.regs 3)) := by
    simp only [Machine.syscall, hcall, hfd, hptr, hlen, hmapped]
    rfl
  refine ⟨_, hsys, ?_, ?_⟩
  · unfold Machine.read
    split <;> rfl
  unfold Machine.read Console.read World.console
  dsimp only
  rw [h.input]
  cases w.next s.input with
  | none =>
    dsimp only
    rw [id, State.setCell_cell]
    exact h.logged (by rw [hpos, Action.shift])
  | some r =>
    obtain ⟨b, rest⟩ := r
    have hlog : Represents size { s with actions := s.actions ++ [.read s.pointer (some b)] }
        (m.logged w (.read (m.regs 3).toNat (some b))) := h.logged (by rw [hpos, Action.shift])
    have hset : Represents size (State.setCell _ b)
        { m.logged w (.read (m.regs 3).toNat (some b)) with memory := Function.update m.memory (m.regs 3) b } :=
      hlog.setCell hs hw.fits rfl rfl rfl rfl rfl
    exact ⟨hset.pointer, hset.memory, rfl, hset.calls, hset.status⟩

lemma executes_clear (h : Represents size s m) (hs : OnTape size s) :
    ∃ m', Executes w (Instr.movMem 3 0).encode m m' ∧ Represents size (s.setCell 0) m' := by
  have hmapped := h.mapped hs hw
  refine ⟨{ m with
    pc := m.pc + (Instr.movMem 3 0).encode.length
    memory := Function.update m.memory (m.regs 3) 0 },
    executes_instr regular_cell h.status ?_ rfl, h.setCell hs hw.fits rfl rfl rfl rfl rfl⟩
  simp only [exec, Machine.store, hmapped, if_true]

/-- **The code of an op does what the op does.** -/
theorem executes_op (h : Represents size s m) (hs : OnTape size s) (o : PlainOp) :
    ∃ m', Executes w (Long.backend.opCode o.val) m m' ∧ Represents size (o.val.effect w.console s) m' := by
  obtain ⟨o, ho⟩ := o
  cases o with
  | add n =>
    exact executes_changeCell hw h hs .add n (.incMem 3) regular_cell (fun _ => rfl) rfl rfl
  | sub n =>
    exact executes_changeCell hw h hs .sub n (.decMem 3) regular_cell (fun _ => rfl) rfl rfl
  | right n =>
    refine executes_move h .add n (.wide (.inc 3)) regular_cell.1 (fun _ => rfl) rfl rfl fun a => ?_
    rw [ofInt_toNat]
    rfl
  | left n =>
    refine executes_move h .sub n (.wide (.dec 3)) regular_cell.1 (fun _ => rfl) rfl rfl fun a => ?_
    rw [UInt64.ofInt_neg, ofInt_toNat]
    exact UInt64.sub_eq_add_neg a n
  | output => exact executes_transfer h 1 1 fun m hm => syscall_write hw hm hs
  | input => exact executes_transfer h 0 0 fun m hm => syscall_read hw hm hs
  | clear => exact executes_clear hw h hs
  | loopOpen | loopClose => cases ho

end

/-! ## Start and exit -/

/-- The prologue points `rbx` to the first cell. -/
lemma executes_prologue (hs : m.status = none) :
    ∃ m', Executes w (Long.backend.bytes Long.backend.prologue) m m' ∧ SameData m m' ∧ m'.regs 3 = address 0 := by
  obtain ⟨m', hex, hsame, hregs⟩ := Long.sets_load (w := w) .bx (Int64.ofNat Elf.tapeAddress) hs
  have hex' := hex.append (.nil m')
  rw [← Long.bytes_load] at hex'
  refine ⟨m', hex', hsame, ?_⟩
  rw [hregs]
  exact Function.update_self _ _ _

/-- The epilogue exits with status 0 and leaves the rest alone. -/
lemma executes_epilogue (h : Represents size s m) :
    ∃ m', Executes w (Long.backend.bytes Long.backend.epilogue) m { m' with status := some 0 } ∧
      Represents size s m' := by
  obtain ⟨m₁, hex₁, hsame₁, hregs₁⟩ := Long.sets_load (w := w) .ax 60 h.status
  obtain ⟨m₂, hex₂, hsame₂, hregs₂⟩ := Long.sets_load (w := w) .di 0 (hsame₁.status.trans h.status)
  have hsame := hsame₁.trans hsame₂
  have hregs : m₂.regs 3 = m.regs 3 ∧ m₂.regs 0 = 60 ∧ m₂.regs 7 = 0 := by
    rw [hregs₂, hregs₁]
    exact ⟨rfl, rfl, rfl⟩
  have h₂ := h.of_sameData hsame hregs.1
  let m₃ : Machine ι := { m₂ with pc := m₂.pc + Instr.syscall.encode.length }
  have hsys : m₃.syscall w = some { m₃ with status := some 0 } := by
    rw [Machine.syscall, if_pos hregs.2.1, hregs.2.2]
  have hex₃ : Executes w Instr.syscall.encode m₂ { m₃ with status := some 0 } :=
    executes_instr trivial h₂.status hsys rfl
  have hex := hex₁.append (hex₂.append (hex₃.append (.nil _)))
  simp only [← Long.bytes_load] at hex
  exact ⟨m₃, hex, h₂.pointer, h₂.memory, h₂.input, h₂.calls, h₂.status⟩

end X86

end TapeElf
