import TapeElf.Proofs.Emission
import TapeElf.Proofs.Fragment
import TapeElf.Proofs.X86.Decoding

/-!
# x86 code in both modes

The two modes differ in the width of registers and addresses and in the prefix for 64-bit operands, which only long mode
has: without it an operand has 32 bits, and in long mode the rest of its register becomes zero. Everything else they
share, down to the code of loop jumps (`branches_loopJump`). In protected mode all operations on the tape are single
instructions (`Protected.performs_emit`).

Of the flags only the zero flag is modelled, since no instruction here reads another. A system call leaves the
processor: whole programs, with the system around them, run on the `Machine` of long mode, which between its calls is
this processor (`run_core`).
-/

namespace TapeElf.X86

variable {bits : Nat}

/-! ## Execution -/

/-- A result of the full width, or of 32 bits. -/
def cut (wide : Bool) (x : BitVec bits) : BitVec bits := if wide then x else (x.setWidth 32).setWidth bits

/-- Sets a register to a result, and the zero flag by it. -/
def setResult (m : Core bits Bool) (wide : Bool) (r : UInt8) (x : BitVec bits) : Core bits Bool :=
  { m.set r.toNat (cut wide x) with flags := cut wide x = 0 }

/-- Sets the byte that a register points to to a result, and the zero flag by it. -/
def alterByte (m : Core bits Bool) (r : UInt8) (f : UInt8 → UInt8) : Core bits Bool :=
  let a := m.regs r.toNat
  { m.store a (f (m.memory a)) with flags := f (m.memory a) == 0 }

def Cond.holds : Cond → Bool → Bool
  | zero, flag => flag
  | nonzero, flag => !flag

/-- What an instruction does. Jumps are relative to the next instruction, so its own address does not matter. -/
def perform (wide : Bool) (m : Core bits Bool) : Instr → Option (Core bits Bool)
  | .xorSelf r => some (setResult m wide r 0)
  | .movImm r imm => some (m.set r.toNat (imm.toBitVec.setWidth bits))
  | .movSigned r imm => some (m.set r.toNat (cut wide (imm.toBitVec.signExtend bits)))
  | .movWide r imm => some (m.set r.toNat (imm.toBitVec.setWidth bits))
  | .mov dst src => some (m.set dst.toNat (cut wide (m.regs src.toNat)))
  | .inc r => some (setResult m wide r (m.regs r.toNat + 1))
  | .dec r => some (setResult m wide r (m.regs r.toNat - 1))
  | .arithByte op r imm => some (setResult m wide r (op.apply (m.regs r.toNat) (imm.toBitVec.signExtend bits)))
  | .arithWord op r imm => some (setResult m wide r (op.apply (m.regs r.toNat) (imm.toBitVec.signExtend bits)))
  | .arith op dst src => some (setResult m wide dst (op.apply (m.regs dst.toNat) (m.regs src.toNat)))
  | .incMem r => some (alterByte m r (· + 1))
  | .decMem r => some (alterByte m r (· - 1))
  | .arithMem op r imm => some (alterByte m r (op.apply · imm))
  | .movMem r imm => some (m.store (m.regs r.toNat) imm)
  | .testMem r imm => some { m with flags := m.memory (m.regs r.toNat) &&& imm == 0 }
  | .jcc cond offset => some (if cond.holds m.flags then m.goto (m.pc + BitVec.ofInt bits offset.toInt) else m)
  | .nop => some m
  | .syscall | .int80 | .ud2 => none
  | .wide i => perform true m i

def Long.processor : Processor 64 Bool Instr where
  decode := decode
  exec i _ m := perform false m i

/-- The registers that generated code has set aside in long mode. -/
def Long.usage : Usage where
  tape := 3
  scratch := some 1
  zero := none

/-- The instruction at the front of some bytes, where there are no prefixes. -/
def Protected.decode : Bytes → Option (Instr × Bytes)
  | [] => none
  | opcode :: rest => decodeOpcode opcode rest

def Protected.processor : Processor 32 Bool Instr where
  decode := Protected.decode
  exec i _ m := perform false m i

/-- The registers that generated code has set aside in protected mode. -/
def Protected.usage : Usage where
  tape := 6
  scratch := none
  zero := none

/-! ## Decoding -/

lemma Instr.length_encode_le (i : Instr) (h : i.Basic) : i.encode.length ≤ 6 := by
  cases i with
  | wide | movWide => exact h.elim
  | _ => simp [encode]

lemma Long.encodes {i : Instr} (h : i.Basic) : processor.Encodes i.encode i := by
  refine ⟨(i.length_encode_le h).trans (by decide), fun rest => ?_⟩
  obtain ⟨opcode, tail, he, hop, hdec⟩ := decodeOpcode_encode h
  show X86.decode _ = _
  rw [he, List.cons_append, decode_cons_of_plain hop.1, hdec]

lemma Protected.encodes {i : Instr} (h : i.Basic) : processor.Encodes i.encode i := by
  refine ⟨(i.length_encode_le h).trans (by decide), fun rest => ?_⟩
  obtain ⟨opcode, tail, he, -, hdec⟩ := decodeOpcode_encode h
  show Protected.decode _ = _
  rw [he, List.cons_append, Protected.decode, hdec]

lemma Protected.encodes_movImm (r : Reg) (imm : UInt32) :
    processor.Encodes (Instr.movImm r.number imm).encode (.movImm r.number imm) := by
  refine ⟨?_, fun rest => ?_⟩
  · rw [Instr.encode, List.length_cons, length_littleBytes]
    decide
  · rw [Instr.encode, List.cons_append]
    exact decodeOpcode_movImm r.number_lt_eight imm rest

/-! ## Loop jumps -/

lemma canPoint_of_notMem {r : Reg} (h : r.number.toNat ∉ [4, 5]) : canPoint r.number = true := by
  cases r with
  | sp | bp => exact absurd (by decide) h
  | _ => rfl

lemma loopJump_eq_alignedJump {r : Reg} (hr : canPoint r.number = true) (cond : Cond) (k : Int64) :
    loopJump cond r k = .alignedJump 1 32 0 k
      { bytes := [Instr.testMem r.number 0xff, .jcc cond (Int32.ofInt k.toInt)].flatMap Instr.encode } := by
  have halign : k.toInt % (1 : Nat) = 0 := Int.emod_one _
  rw [Emission.alignedJump, if_neg (not_not.mpr halign), Int.add_zero]
  split_ifs with hk
  · exact loopJump_eq hr cond k hk
  · rw [loopJump, if_neg hk]

/-- The code of a loop jump does the same on every processor that has the instructions without prefix. -/
lemma branches_loopJump {P : Processor bits Bool Instr} (hexec : ∀ i own m, P.exec i own m = perform false m i)
    (hencodes : ∀ i : Instr, i.Basic → P.Encodes i.encode i) {r : Reg}
    (hvalue : ∀ m, P.value m r.number.toNat = m.regs r.number.toNat) (hr : canPoint r.number = true)
    (scratch : Option Nat) (cond : Cond) {k : Int64} (hk : fits 32 (k.toInt + (0 : Nat))) :
    P.Branches scratch ([Instr.testMem r.number 0xff, .jcc cond (Int32.ofInt k.toInt)].flatMap Instr.encode)
      r.number.toNat (fun b => cond.holds (b == 0)) k.toInt := by
  rw [Int.natCast_zero, Int.add_zero] at hk
  have hoffset : (Int32.ofInt k.toInt).toInt = k.toInt := Int32.toInt_ofInt.trans (signed_of_fits (by decide) hk)
  rw [List.flatMap_cons, List.flatMap_singleton]
  refine (hencodes (.jcc cond (Int32.ofInt k.toInt)) trivial).branches cond.holds ?_ ?_
  · intro own m _
    rw [hexec, perform, hoffset]
  · intro m
    have hand (b : UInt8) : b &&& 0xff = b := UInt8.and_neg_one
    refine ⟨_, (hencodes (.testMem r.number 0xff) ⟨r.number_lt_eight, hr⟩).passes (hexec _ _ _) rfl, ?_, rfl, fun _ _ => rfl⟩
    show cond.holds (m.memory (m.regs r.number.toNat) &&& 0xff == 0) = _
    rw [hand, hvalue]

/-! ## The tape in protected mode -/

namespace Protected

lemma cut_word (wide : Bool) (x : BitVec 32) : cut wide x = x := by
  cases wide <;> simp [cut]

lemma bytes_checked (ok : Bool) (v : Int) (e : Emission) : (checked ok v e).bytes = e.bytes := by
  unfold checked
  split <;> rfl

lemma maps_setResult {i : Instr} {r : Reg} (f : BitVec 32 → BitVec 32) (h : i.Basic)
    (hi : ∀ m : Core 32 Bool, perform false m i = some (setResult m false r.number (f (m.regs r.number.toNat)))) :
    processor.Maps i.encode r.number.toNat f := by
  refine (encodes h).maps fun own m => ⟨decide (f (m.regs r.number.toNat) = 0), ?_⟩
  show perform false m i = _
  rw [hi, setResult, cut_word]

lemma performs_alterByte {i : Instr} (f : UInt8 → UInt8) (h : i.Basic)
    (hi : ∀ m : Core 32 Bool, ∃ flags, perform false m i = some { alterByte m Reg.si.number f with flags }) :
    processor.Performs usage i.encode (Tape.alter f) := by
  intro m _
  obtain ⟨flags, hflags⟩ := hi (m.goto (m.pc + BitVec.ofNat 32 i.encode.length))
  exact ⟨_, (encodes h).passes hflags rfl, rfl, fun _ _ _ => rfl⟩

/-- A small number is the same with the sign of its byte. -/
lemma signExtend_toUInt8 {n : UInt64} (h : n ≤ 0x7f) :
    n.toUInt8.toInt8.toBitVec.signExtend 32 = BitVec.ofNat 32 n.toNat := by
  have hn : n.toNat ≤ 0x7f := h
  have hmsb : n.toUInt8.toBitVec.msb = false := by
    rw [BitVec.msb_eq_false_iff_two_mul_lt]
    show 2 * (n.toNat % 256) < 256
    omega
  show n.toUInt8.toBitVec.signExtend 32 = _
  rw [BitVec.signExtend_eq_setWidth_of_msb_false hmsb]
  apply BitVec.eq_of_toNat_eq
  rw [BitVec.toNat_setWidth, BitVec.toNat_ofNat]
  show n.toNat % 256 % 2 ^ 32 = n.toNat % 2 ^ 32
  omega

lemma signExtend_toUInt32 (n : UInt64) : n.toUInt32.toBitVec.signExtend 32 = BitVec.ofNat 32 n.toNat := by
  rw [BitVec.signExtend_eq]
  exact BitVec.eq_of_toNat_eq rfl

lemma apply_zero (op : Arith) (x : BitVec 32) : op.apply x 0 = x := by
  cases op with
  | add => exact BitVec.add_zero x
  | sub => exact BitVec.sub_zero x

/-- A register is changed by a number modulo 2^32. -/
lemma maps_change (op : Arith) (r : Reg) (n : UInt64) :
    processor.Maps (change op r n).bytes r.number.toNat fun x => op.apply x (BitVec.ofNat 32 n.toNat) := by
  have hr := r.number_lt_eight
  unfold change
  split_ifs with hzero hsmall
  · have hid : (fun x => op.apply x (BitVec.ofNat 32 n.toNat)) = id := by
      funext x
      rw [hzero]
      exact apply_zero op x
    rw [hid]
    exact Processor.maps_nil _
  · rw [assemble_eq rfl, List.flatMap_singleton]
    refine maps_setResult (i := .arithByte op r.number _) _ hr fun m => ?_
    rw [perform, signExtend_toUInt8 hsmall]
  · rw [bytes_checked, assemble_eq rfl, List.flatMap_singleton]
    refine maps_setResult (i := .arithWord op r.number _) _ hr fun m => ?_
    rw [perform, signExtend_toUInt32]

lemma performs_move {bytes : Bytes} {f : BitVec 32 → BitVec 32} (h : processor.Maps bytes Reg.si.number.toNat f)
    {d : BitVec 32} (hd : ∀ x, f x = x + d) : processor.Performs usage bytes (Tape.move d) := by
  obtain rfl : f = (· + d) := funext hd
  exact Processor.Maps.performs (u := usage) h fun _ => rfl

/-- **What the operations on the tape do.** Where a number is too large for a register, its low word counts. -/
lemma performs_emit {x : Operation Reg} (h : x.OnTape .si) : processor.Performs usage (emit x).bytes x.act := by
  have hsi : Reg.si.number < 8 ∧ canPoint Reg.si.number = true := by decide
  cases x with
  | incReg r =>
    obtain rfl : r = .si := h
    exact performs_move (maps_setResult (i := .inc Reg.si.number) (· + 1) hsi.1 fun _ => rfl) fun _ => rfl
  | decReg r =>
    obtain rfl : r = .si := h
    exact performs_move (maps_setResult (i := .dec Reg.si.number) (· - 1) hsi.1 fun _ => rfl) fun x =>
      BitVec.sub_eq_add_neg x 1
  | addReg r n =>
    obtain rfl : r = .si := h
    exact performs_move (maps_change .add .si n) fun _ => rfl
  | subReg r n =>
    obtain rfl : r = .si := h
    exact performs_move (maps_change .sub .si n) fun x => BitVec.sub_eq_add_neg x _
  | incCell r =>
    obtain rfl : r = .si := h
    exact performs_alterByte (i := .incMem Reg.si.number) (· + 1) hsi fun _ => ⟨_, rfl⟩
  | decCell r =>
    obtain rfl : r = .si := h
    exact performs_alterByte (i := .decMem Reg.si.number) (· - 1) hsi fun _ => ⟨_, rfl⟩
  | addCell r n =>
    obtain rfl : r = .si := h
    exact performs_alterByte (i := .arithMem .add Reg.si.number n) (· + n) hsi fun _ => ⟨_, rfl⟩
  | subCell r n =>
    obtain rfl : r = .si := h
    exact performs_alterByte (i := .arithMem .sub Reg.si.number n) (· - n) hsi fun _ => ⟨_, rfl⟩
  | clearCell r =>
    obtain rfl : r = .si := h
    exact performs_alterByte (i := .movMem Reg.si.number 0) (fun _ => 0) hsi fun m => ⟨m.flags, rfl⟩
  | load | copy | syscall | loopFiller | jumpIfZero | jumpIfNonzero => exact h.elim

end Protected

end TapeElf.X86
