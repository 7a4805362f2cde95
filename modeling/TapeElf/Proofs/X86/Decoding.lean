import TapeElf.Proofs.Numbers
import TapeElf.Proofs.X86.Machine

/-!
# Every instruction is decoded as itself

`decode_encode`: in the code of an instruction, whatever follows it, the processor finds that instruction. It has to
be `Regular`: its registers have numbers below 8, a register that points to a byte can do so, and operands are wide
where there is a form for it.
-/

namespace TapeElf

namespace X86

lemma takeLittle_littleBytes (width n : Nat) (h : n < 256 ^ width) (rest : Bytes) :
    takeLittle width (littleBytes width n ++ rest) = some (n, rest) := by
  induction width generalizing n with
  | zero =>
    obtain rfl : n = 0 := by simpa using h
    rfl
  | succ width ih =>
    have hdiv : n / 256 < 256 ^ width := by
      rw [Nat.pow_succ, Nat.mul_comm] at h
      exact Nat.div_lt_of_lt_mul h
    rw [littleBytes, List.cons_append, takeLittle, ih _ hdiv, Option.map_some, UInt8.toNat_ofNat']
    simp only [Option.some.injEq, Prod.mk.injEq, and_true]
    omega

lemma takeLittle_byte (b : UInt8) (rest : Bytes) : takeLittle 1 (b :: rest) = some (b.toNat, rest) := by
  simp [takeLittle]

lemma operand_fields (mode : UInt8) {reg rm : UInt8} (hmode : mode < 4) (hreg : reg < 8) (hrm : rm < 8) :
    operand mode reg rm >>> 6 = mode ∧ operand mode reg rm >>> 3 &&& 7 = reg ∧ operand mode reg rm &&& 7 = rm := by
  have key : ∀ mode < 4, ∀ reg < 8, ∀ rm < 8,
      let b := operand (UInt8.ofNat mode) (UInt8.ofNat reg) (UInt8.ofNat rm)
      b >>> 6 = UInt8.ofNat mode ∧ b >>> 3 &&& 7 = UInt8.ofNat reg ∧ b &&& 7 = UInt8.ofNat rm := by
    decide
  have := key mode.toNat hmode reg.toNat hreg rm.toNat hrm
  simpa only [UInt8.ofNat_toNat] using this

lemma Reg.number_lt_eight (r : Reg) : r.number < 8 := by
  cases r <;> decide

/-! ## Opcodes -/

namespace Instr

/-- An instruction that has a form without prefix in 64-bit code, and is not the load that has no other. -/
def Basic : Instr → Prop
  | xorSelf r | movSigned r _ | inc r | dec r | arithByte _ r _ | arithWord _ r _ => r < 8
  | mov dst src | arith _ dst src => dst < 8 ∧ src < 8
  | incMem r | decMem r | arithMem _ r _ | movMem r _ | testMem r _ => r < 8 ∧ canPoint r = true
  | jcc .. | ud2 | nop | syscall => True
  | movImm .. | movWide .. | int80 | wide _ => False

/-- An instruction of 64-bit code. -/
def Regular : Instr → Prop
  | movImm r _ | movWide r _ => r < 8
  | wide i => i.Basic
  | i => i.Basic

end Instr

/-- An opcode that is neither a prefix nor that of a load. -/
def PlainOpcode (opcode : UInt8) : Prop := opcode ≠ 0x48 ∧ ¬ (0xb8 ≤ opcode ∧ opcode < 0xc0)

instance : DecidablePred PlainOpcode := fun opcode =>
  inferInstanceAs (Decidable (opcode ≠ 0x48 ∧ ¬ (0xb8 ≤ opcode ∧ opcode < 0xc0)))

section

variable {opcode reg rm : UInt8} (hop : PlainOpcode opcode ∧ opcode ≠ 0x90 ∧ opcode ≠ 0x0f) (hreg : reg < 8)
  (hrm : rm < 8) (rest : Bytes)
include hop hreg hrm

lemma decodeOpcode_direct : decodeOpcode opcode (direct reg rm :: rest) = decodeDirect opcode reg rm rest := by
  obtain ⟨hmode, hfield, hrm'⟩ := operand_fields 3 (by decide) hreg hrm
  rw [decodeOpcode, if_neg hop.2.1, if_neg hop.2.2, if_neg hop.1.2]
  simp only [decodeOperand, direct, hmode, hfield, hrm', if_true]

lemma decodeOpcode_indirect (hpoint : canPoint rm = true) :
    decodeOpcode opcode (indirect reg rm :: rest) = decodeIndirect opcode reg rm rest := by
  obtain ⟨hmode, hfield, hrm'⟩ := operand_fields 0 (by decide) hreg hrm
  have hne : rm ≠ 4 ∧ rm ≠ 5 := by simpa [canPoint] using hpoint
  rw [decodeOpcode, if_neg hop.2.1, if_neg hop.2.2, if_neg hop.1.2]
  simp only [decodeOperand, indirect, hmode, hfield, hrm']
  rw [if_neg (by decide), if_pos ⟨trivial, hne⟩]

end

lemma Arith.digit_lt (op : Arith) : op.digit < 8 := by
  cases op <;> decide

lemma Arith.ofDigit?_digit (op : Arith) : ofDigit? op.digit = some op := by
  cases op <;> rfl

lemma decodeExtended_jcc (cond : Cond) (rest : Bytes) : decodeExtended ((0x80 ||| cond.code) :: rest) =
    (takeLittle 4 rest).map fun (n, rest) => (.jcc cond (UInt32.ofNat n).toInt32, rest) := by
  cases cond <;> rfl

lemma decodeOpcode_encode {i : Instr} (h : i.Basic) :
    ∃ opcode tail, i.encode = opcode :: tail ∧ PlainOpcode opcode ∧
      ∀ rest, decodeOpcode opcode (tail ++ rest) = some (i, rest) := by
  cases i with
  | xorSelf r =>
    refine ⟨_, _, rfl, by decide, fun rest => ?_⟩
    rw [List.cons_append, decodeOpcode_direct (by decide) h h]
    simp [decodeDirect]
  | movSigned r imm =>
    refine ⟨_, _, rfl, by decide, fun rest => ?_⟩
    rw [List.cons_append, decodeOpcode_direct (by decide) (by decide) h]
    simp [decodeDirect, takeLittle_littleBytes 4 _ (twos_lt 32 imm.toInt)]
  | mov dst src =>
    refine ⟨_, _, rfl, by decide, fun rest => ?_⟩
    rw [List.cons_append, decodeOpcode_direct (by decide) h.2 h.1]
    simp [decodeDirect]
  | inc r | dec r =>
    refine ⟨_, _, rfl, by decide, fun rest => ?_⟩
    rw [List.cons_append, decodeOpcode_direct (by decide) (by decide) h]
    simp [decodeDirect]
  | arithByte op r imm =>
    refine ⟨_, _, rfl, by decide, fun rest => ?_⟩
    have hbyte : twos 8 imm.toInt % 256 = twos 8 imm.toInt := Nat.mod_eq_of_lt (twos_lt 8 imm.toInt)
    rw [List.cons_append, decodeOpcode_direct (by decide) op.digit_lt h]
    simp [decodeDirect, op.ofDigit?_digit, takeLittle_byte, hbyte]
  | arithWord op r imm =>
    refine ⟨_, _, rfl, by decide, fun rest => ?_⟩
    rw [List.cons_append, decodeOpcode_direct (by decide) op.digit_lt h]
    simp [decodeDirect, op.ofDigit?_digit, takeLittle_littleBytes 4 _ imm.toNat_lt]
  | arith op dst src =>
    cases op <;>
    · refine ⟨_, _, rfl, by decide, fun rest => ?_⟩
      rw [List.cons_append, decodeOpcode_direct (by decide) h.2 h.1]
      simp [decodeDirect, Arith.opcode]
  | incMem r | decMem r =>
    refine ⟨_, _, rfl, by decide, fun rest => ?_⟩
    rw [List.cons_append, decodeOpcode_indirect (by decide) (by decide) h.1 _ h.2]
    simp [decodeIndirect]
  | arithMem op r imm =>
    refine ⟨_, _, rfl, by decide, fun rest => ?_⟩
    rw [List.cons_append, decodeOpcode_indirect (by decide) op.digit_lt h.1 _ h.2]
    simp [decodeIndirect, op.ofDigit?_digit, takeLittle_byte]
  | movMem r imm | testMem r imm =>
    refine ⟨_, _, rfl, by decide, fun rest => ?_⟩
    rw [List.cons_append, decodeOpcode_indirect (by decide) (by decide) h.1 _ h.2]
    simp [decodeIndirect, takeLittle_byte]
  | jcc cond offset =>
    refine ⟨_, _, rfl, by decide, fun rest => ?_⟩
    change decodeExtended (_ :: (littleBytes 4 (twos 32 offset.toInt) ++ rest)) = _
    simp [decodeExtended_jcc, takeLittle_littleBytes 4 _ (twos_lt 32 offset.toInt)]
  | ud2 | nop | syscall => exact ⟨_, _, rfl, by decide, fun rest => rfl⟩
  | movImm | movWide | int80 | wide => cases h

/-! ## Whole instructions -/

lemma loadOpcode {r : UInt8} (h : r < 8) :
    0xb8 + r ≠ 0x48 ∧ 0xb8 + r ≠ 0x90 ∧ 0xb8 + r ≠ 0x0f ∧ 0xb8 ≤ 0xb8 + r ∧ 0xb8 + r < 0xc0 ∧ 0xb8 + r - 0xb8 = r := by
  have key : ∀ n < 8, let r := UInt8.ofNat n
      0xb8 + r ≠ 0x48 ∧ 0xb8 + r ≠ 0x90 ∧ 0xb8 + r ≠ 0x0f ∧ 0xb8 ≤ 0xb8 + r ∧ 0xb8 + r < 0xc0 ∧
        0xb8 + r - 0xb8 = r := by
    decide
  simpa only [UInt8.ofNat_toNat] using key r.toNat h

/-- The opcode of a load holds the register. -/
lemma decodeOpcode_movImm {r : UInt8} (h : r < 8) (imm : UInt32) (rest : Bytes) :
    decodeOpcode (0xb8 + r) (littleBytes 4 imm.toNat ++ rest) = some (.movImm r imm, rest) := by
  obtain ⟨-, h₂, h₃, h₄, h₅, h₆⟩ := loadOpcode h
  rw [decodeOpcode, if_neg h₂, if_neg h₃, if_pos ⟨h₄, h₅⟩, takeLittle_littleBytes 4 _ imm.toNat_lt, h₆]
  simp

lemma decode_cons_of_plain {opcode : UInt8} (h : opcode ≠ 0x48) (rest : Bytes) :
    decode (opcode :: rest) = decodeOpcode opcode rest := by
  cases rest with
  | nil => rfl
  | cons b rest => rw [decode, if_neg h]

/-- **Every instruction is decoded as itself,** whatever follows it. -/
theorem decode_encode {i : Instr} (h : i.Regular) (rest : Bytes) : decode (i.encode ++ rest) = some (i, rest) := by
  have hbasic (hi : i.Basic) : decode (i.encode ++ rest) = some (i, rest) := by
    obtain ⟨opcode, tail, he, hop, hdec⟩ := decodeOpcode_encode hi
    rw [he, List.cons_append, decode_cons_of_plain hop.1, hdec]
  cases i with
  | movImm r imm =>
    rw [Instr.encode, List.cons_append, decode_cons_of_plain (loadOpcode h).1, decodeOpcode_movImm h]
  | movWide r imm =>
    obtain ⟨-, -, -, h₄, h₅, h₆⟩ := loadOpcode h
    change decodeWide (0xb8 + r) (littleBytes 8 imm.toNat ++ rest) = _
    rw [decodeWide, if_pos ⟨h₄, h₅⟩, takeLittle_littleBytes 8 _ imm.toNat_lt, h₆]
    simp
  | wide i =>
    obtain ⟨opcode, tail, he, hop, hdec⟩ := decodeOpcode_encode (i := i) h
    rw [Instr.encode, he]
    change decodeWide opcode (tail ++ rest) = _
    rw [decodeWide, if_neg hop.2, hdec, Option.map_some]
  | _ => exact hbasic h

end X86

end TapeElf
