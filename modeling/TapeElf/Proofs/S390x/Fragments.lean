import TapeElf.Proofs.Fragment
import TapeElf.Proofs.S390x.Machine

/-!
# What s390x code does

The operations on the tape (`performs_emit`) and the loop jumps (`branches_loopJump`). A number is added in two parts, a
low word with its sign and then what is left to the high word (`maps_change`). A cell is cleared with a byte of register
zero, so that has to hold zero.
-/

namespace TapeElf.S390x

variable {r : Reg} {v : Int}

lemma encodes (i : Instr) : processor.Encodes i.encode i := by
  refine ⟨?_, decode_encode i⟩
  cases i <;> simp [Instr.encode, formatRI, formatRIL, head, Processor.window]

/-! ## Sums -/

lemma toInt_ofInt16 (h : fits 16 v) : (Int16.ofInt v).toInt = v :=
  Int16.toInt_ofInt.trans (signed_of_fits (by decide) h)

lemma toInt_ofInt32 (h : fits 32 v) : (Int32.ofInt v).toInt = v :=
  Int32.toInt_ofInt.trans (signed_of_fits (by decide) h)

lemma maps_changeWord (r : Reg) (h : fits 32 v) :
    processor.Maps (changeWord r v).encode r.number fun x => x + BitVec.ofInt 64 v := by
  unfold changeWord
  split
  · next hshort =>
    have := (encodes (.aghi r (Int16.ofInt v))).maps (r := r.number)
      (f := fun x => x + BitVec.ofInt 64 (Int16.ofInt v).toInt) fun _ m => ⟨_, rfl⟩
    rwa [toInt_ofInt16 hshort] at this
  · have := (encodes (.agfi r (Int32.ofInt v))).maps (r := r.number)
      (f := fun x => x + BitVec.ofInt 64 (Int32.ofInt v).toInt) fun _ m => ⟨_, rfl⟩
    rwa [toInt_ofInt32 h] at this

lemma append_add_high (x : BitVec 64) (imm : BitVec 32) :
    (x.extractLsb' 32 32 + imm) ++ x.setWidth 32 = x + imm.setWidth 64 <<< 32 := by
  have hx := x.isLt
  have himm := imm.isLt
  have hlow : x.toNat % 2 ^ 32 < 2 ^ 32 := Nat.mod_lt _ (by decide)
  apply BitVec.eq_of_toNat_eq
  rw [BitVec.toNat_append, BitVec.toNat_setWidth, ← Nat.shiftLeft_add_eq_or_of_lt hlow, BitVec.toNat_add,
    BitVec.extractLsb'_toNat, BitVec.toNat_add, BitVec.toNat_shiftLeft, BitVec.toNat_setWidth]
  simp only [Nat.shiftLeft_eq, Nat.shiftRight_eq_div_pow]
  omega

lemma maps_aih (r : Reg) (imm : Int32) :
    processor.Maps (Instr.aih r imm).encode r.number fun x => x + imm.toBitVec.setWidth 64 <<< 32 := by
  apply (encodes (.aih r imm)).maps
  intro own m
  rw [← append_add_high]
  exact ⟨_, rfl⟩

/-- What is added to the high word is what the low word leaves of the number. -/
lemma setWidth_ofInt_shiftLeft (h : v % 0x100000000 = 0) :
    (Int32.ofInt (v / 0x100000000)).toBitVec.setWidth 64 <<< 32 = BitVec.ofInt 64 v := by
  show (BitVec.ofInt 32 (v / 0x100000000)).setWidth 64 <<< 32 = _
  apply BitVec.eq_of_toNat_eq
  rw [BitVec.toNat_shiftLeft, BitVec.toNat_setWidth, BitVec.toNat_ofInt, BitVec.toNat_ofInt, Nat.shiftLeft_eq]
  omega

lemma maps_change (r : Reg) (v : Int) :
    processor.Maps (assemble (change r v)).bytes r.number fun x => x + BitVec.ofInt 64 v := by
  unfold change
  split
  · next hshort =>
    rw [Emission.bytes_assemble_singleton]
    exact maps_changeWord r hshort
  · have hlow : fits 32 (signed 32 v) := fits_signed (by decide) v
    have hdvd : (v - signed 32 v) % 0x100000000 = 0 := by
      simp only [signed, Nat.one_shiftLeft, Int.bmod_def]
      omega
    have hhigh := maps_aih r (Int32.ofInt ((v - signed 32 v) / 0x100000000))
    rw [setWidth_ofInt_shiftLeft hdvd] at hhigh
    have hword : processor.Maps (assemble (if signed 32 v = 0 then [] else [changeWord r (signed 32 v)])).bytes r.number
        fun x => x + BitVec.ofInt 64 (signed 32 v) := by
      split
      · next hzero =>
        have hid : (fun x : BitVec 64 => x + BitVec.ofInt 64 (signed 32 v)) = id := by
          funext x
          rw [hzero]
          exact BitVec.add_zero x
        rw [hid]
        exact Processor.maps_nil _
      · rw [Emission.bytes_assemble_singleton]
        exact maps_changeWord r hlow
    have hsum : (fun x => x + BitVec.ofInt 64 (v - signed 32 v)) ∘ (fun x => x + BitVec.ofInt 64 (signed 32 v)) =
        fun x => x + BitVec.ofInt 64 v := by
      funext x
      rw [Function.comp_apply, BitVec.add_assoc, ← BitVec.ofInt_add]
      congr 2
      omega
    rw [Emission.bytes_assemble_append, Emission.bytes_assemble_singleton, ← hsum]
    exact hword.append hhigh

/-! ## The tape -/

/-- The registers that generated code has set aside. -/
def usage : Usage where
  tape := 8
  scratch := some 5
  zero := some 0

lemma value_tape (m : Cpu) : processor.value m usage.tape = m.regs usage.tape := rfl

lemma performs_change (v : Int) :
    processor.Performs usage (assemble (change .r8 v)).bytes (Tape.move (BitVec.ofInt 64 v)) :=
  (maps_change .r8 v).performs value_tape

lemma passes_llgc (hr : r ≠ .r0) (m : Cpu) : ∃ m', processor.Passes (Instr.llgc scratch r).encode m m' ∧
    m'.regs = Function.update m.regs 5 ((m.memory (m.regs r.number)).toBitVec.setWidth 64) ∧ m'.memory = m.memory := by
  refine ⟨_, (encodes (.llgc scratch r)).passes rfl rfl, ?_, rfl⟩
  show Function.update m.regs 5 ((m.memory (if r = .r0 then 0 else m.regs r.number)).toBitVec.setWidth 64) = _
  rw [if_neg hr]

lemma passes_stc (src : Reg) (hr : r ≠ .r0) (m : Cpu) : ∃ m', processor.Passes (Instr.stc src r).encode m m' ∧
    m'.regs = m.regs ∧ m'.memory = Function.update m.memory (m.regs r.number) ⟨(m.regs src.number).setWidth 8⟩ := by
  refine ⟨_, (encodes (.stc src r)).passes rfl rfl, rfl, ?_⟩
  show Function.update m.memory (if r = .r0 then 0 else m.regs r.number) _ = _
  rw [if_neg hr]
  rfl

lemma performs_changeCell {f : UInt8 → UInt8} (hf : ∀ b, b + ⟨BitVec.ofInt 8 v⟩ = f b) :
    processor.Performs usage (assemble (changeCell .r8 v)).bytes (Tape.alter f) := by
  rw [changeCell, List.cons_append, Emission.bytes_assemble_cons, Emission.bytes_assemble_append,
    Emission.bytes_assemble_singleton]
  refine Processor.performs_alter rfl (by decide) value_tape (fun b => b.toBitVec.setWidth 64)
    (passes_llgc (by decide)) (maps_change scratch v) (passes_stc scratch (by decide)) ?_
  intro b
  rw [BitVec.setWidth_add _ _ (by decide), BitVec.setWidth_setWidth_of_le _ (by decide), BitVec.setWidth_eq,
    setWidth_ofInt (by decide), ← hf]
  rfl

lemma performs_clearCell : processor.Performs usage (Instr.stc .r0 .r8).encode (Tape.alter fun _ => 0) := by
  intro m hm
  obtain ⟨m', hpass, hregs, hmemory⟩ := passes_stc .r0 (show Reg.r8 ≠ .r0 by decide) m
  have hzero : m.regs 0 = 0 := hm 0 rfl
  refine ⟨m', hpass, ?_, fun k _ _ => congrFun hregs k⟩
  show Tape.mk (m'.regs 8) m'.memory = Tape.mk (m.regs 8) (Function.update m.memory (m.regs 8) 0)
  rw [hregs, hmemory, show m.regs Reg.r0.number = 0 from hzero]
  rfl

/-- **What the operations on the tape do.** -/
lemma performs_emit {x : Operation Reg} (h : x.OnTape .r8) : processor.Performs usage (emit x).bytes x.act := by
  have hbyte (n : UInt8) : (⟨BitVec.ofInt 8 n.toNat⟩ : UInt8) = n := by
    rw [BitVec.ofInt_natCast]
    exact congrArg UInt8.ofBitVec (BitVec.ofNat_uInt8ToNat n)
  cases x with
  | incReg r =>
    obtain rfl : r = .r8 := h
    exact performs_change 1
  | decReg r =>
    obtain rfl : r = .r8 := h
    exact performs_change (-1)
  | addReg r n =>
    obtain rfl : r = .r8 := h
    rw [Operation.act, ← ofInt_toInt64]
    exact performs_change _
  | subReg r n =>
    obtain rfl : r = .r8 := h
    rw [Operation.act, ← ofInt_neg_toInt64]
    exact performs_change _
  | incCell r =>
    obtain rfl : r = .r8 := h
    exact performs_changeCell (v := 1) fun _ => rfl
  | decCell r =>
    obtain rfl : r = .r8 := h
    rw [Operation.act]
    refine performs_changeCell (v := -1) fun b => ?_
    rw [UInt8.sub_eq_add_neg]
    rfl
  | addCell r n =>
    obtain rfl : r = .r8 := h
    rw [Operation.act]
    refine performs_changeCell fun b => ?_
    rw [hbyte]
  | subCell r n =>
    obtain rfl : r = .r8 := h
    rw [Operation.act]
    refine performs_changeCell fun b => ?_
    rw [UInt8.sub_eq_add_neg, BitVec.ofInt_neg]
    exact congrArg (b + -·) (hbyte n)
  | clearCell r =>
    obtain rfl : r = .r8 := h
    rw [emit, Emission.bytes_assemble_singleton]
    exact performs_clearCell
  | load | copy | syscall | loopFiller | jumpIfZero | jumpIfNonzero => exact h.elim

/-! ## Loop jumps -/

lemma compareCode_byte (b : UInt8) :
    compareCode (((b.toBitVec.setWidth 64).setWidth 32).toInt) 0 = if b = 0 then 0 else 2 := by
  have hb : b.toBitVec.toNat < 256 := b.toNat_lt
  have hint : ((b.toBitVec.setWidth 64).setWidth 32).toInt = b.toNat := by
    rw [BitVec.toInt_setWidth, BitVec.toNat_setWidth, Nat.mod_eq_of_lt (by omega)]
    exact Int.bmod_eq_of_le (by omega) (by omega)
  have hzero : (b.toNat : Int) = 0 ↔ b = 0 := by
    rw [Int.natCast_eq_zero, ← UInt8.toNat_inj]
    rfl
  rw [hint, compareCode]
  simp only [hzero]
  split
  · rfl
  · rw [if_neg (by omega)]

/-- A distance that can be jumped over is a number of halfwords. -/
lemma two_mul_halfwords (halign : v % 2 = 0) (h : fits 33 (v + 6)) : 2 * (Int32.ofInt ((v + 6) / 2)).toInt = v + 6 := by
  have hfits : fits 32 ((v + 6) / 2) := by
    rw [fits_iff] at h ⊢
    omega
  rw [toInt_ofInt32 hfits]
  omega

/-- A jump is counted in halfwords from the place of the branch. -/
lemma branches_loopJump (mask : Mask) {taken : UInt8 → Bool}
    (htaken : ∀ b, mask.takes (if b = 0 then 0 else 2) = taken b) (hr : r ≠ .r0) (halign : v % 2 = 0)
    (h : fits 33 (v + 6)) :
    processor.Branches usage.scratch
      (assemble [.llgc scratch r, .cfi scratch 0, .brcl mask (Int32.ofInt ((v + 6) / 2))]).bytes r.number taken v := by
  rw [Emission.bytes_assemble_cons, Emission.bytes_assemble_cons, Emission.bytes_assemble_singleton,
    ← List.append_assoc]
  refine (encodes (.brcl mask (Int32.ofInt ((v + 6) / 2)))).branches mask.takes ?_ ?_
  · intro own m hpc
    show some (if mask.takes m.flags then
      m.goto (own + BitVec.ofInt 64 (2 * (Int32.ofInt ((v + 6) / 2)).toInt)) else m) = _
    rw [two_mul_halfwords halign h, hpc]
    exact congrArg (fun a => some (if mask.takes m.flags then m.goto a else m)) (add_ofInt_add own 6 v)
  · intro m
    obtain ⟨m₁, hload, hregs, hmemory⟩ := passes_llgc hr m
    refine ⟨_, hload.append ((encodes (.cfi scratch 0)).passes rfl rfl), ?_, hmemory, ?_⟩
    · show mask.takes (compareCode ((m₁.regs 5).setWidth 32).toInt 0) = _
      rw [hregs, Function.update_self, compareCode_byte, htaken]
      rfl
    · intro k hk
      exact (congrFun hregs k).trans (Function.update_of_ne (fun he => hk (congrArg some he.symm)) _ _)

/-- The code for the comparison of a byte with zero is 0 or 2, and the masks tell these two apart. -/
lemma takes_byte (b : UInt8) :
    Mask.eq.takes (if b = 0 then 0 else 2) = (b == 0) ∧ Mask.ne.takes (if b = 0 then 0 else 2) = (b != 0) := by
  by_cases hb : b = 0
  · subst hb
    decide
  · rw [if_neg hb, bne, beq_eq_false_iff_ne.mpr hb]
    decide

end TapeElf.S390x
