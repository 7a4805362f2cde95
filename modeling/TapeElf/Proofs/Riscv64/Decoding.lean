import TapeElf.Proofs.Riscv64.Machine
import TapeElf.Proofs.Numbers

/-!
# Every RISC-V instruction is decoded as itself

`decode_encode`: in the code of an instruction, whatever follows it, the processor finds that instruction. It has to be
`Regular`: its immediate operand fits its field, and a compressed form is not one that the architecture reserves.
-/

namespace TapeElf.Riscv64

/-! ## Fields -/

lemma bits_lt (n low width : Nat) : bits n low width < 2 ^ width := by
  rw [bits, Nat.one_shiftLeft]
  exact Nat.mod_lt _ (Nat.two_pow_pos width)

lemma bits_eq (n low width : Nat) : bits n low width = n / 2 ^ low % 2 ^ width := by
  rw [bits, Nat.shiftRight_eq_div_pow, Nat.one_shiftLeft]

lemma Reg.number_lt (r : Reg) : r.number < 32 := by cases r <;> decide

@[simp] lemma Reg.ofNumber?_number (r : Reg) : Reg.ofNumber? r.number = some r := by cases r <;> rfl

lemma Reg.number_inj {r s : Reg} : r.number = s.number ↔ r = s := by cases r <;> cases s <;> decide

lemma compressedReg_number {r : Reg} (h : r ≠ .zero) : compressedReg r.number = some r := by
  cases r <;> first | rfl | contradiction

lemma Reg.number_ne_two (r : Reg) : r.number ≠ 2 := by cases r <;> decide

@[simp] lemma Cond.ofCode?_code (c : Cond) : Cond.ofCode? c.code = some c := by cases c <;> rfl

lemma Cond.code_lt (c : Cond) : c.code < 2 := by cases c <;> decide

section

variable {op : Nat} (rd rs : Reg)

lemma fields_formatI (hop : op < 128) (imm : Int) :
    let w := formatI op rd rs imm
    (w < 2 ^ 32 ∧ w % 4 = op % 4) ∧ bitField w 0 7 = op ∧ bitField w 12 3 = 0 ∧
      bitField w 7 5 = rd.number ∧ bitField w 15 5 = rs.number ∧ bitField w 20 12 = twos 12 imm := by
  have hd := rd.number_lt
  have hs := rs.number_lt
  have hn : twos 12 imm < 4096 := twos_lt 12 imm
  simp only [formatI, bitField, Nat.shiftLeft_eq]
  omega

lemma fields_upper (hop : op < 128) (imm : Int) :
    let w := twos 20 imm <<< 12 + rd.number <<< 7 + op
    (w < 2 ^ 32 ∧ w % 4 = op % 4) ∧ bitField w 0 7 = op ∧ bitField w 7 5 = rd.number ∧
      bitField w 12 20 = twos 20 imm := by
  have hd := rd.number_lt
  have hn : twos 20 imm < 1048576 := twos_lt 20 imm
  simp only [bitField, Nat.shiftLeft_eq]
  omega

lemma fields_store (hop : op < 128) :
    let w := rd.number <<< 20 + rs.number <<< 15 + op
    (w < 2 ^ 32 ∧ w % 4 = op % 4) ∧ bitField w 0 7 = op ∧ bitField w 12 3 = 0 ∧
      bitField w 7 5 = 0 ∧ bitField w 25 7 = 0 ∧ bitField w 15 5 = rs.number ∧ bitField w 20 5 = rd.number := by
  have hd := rd.number_lt
  have hs := rs.number_lt
  simp only [bitField, Nat.shiftLeft_eq]
  omega

end

/-! The offsets of branches and jumps and the operands of compressed forms are written in parts, out of order. -/

section

variable {n d : Nat}

lemma fields_branch {sign high r kind low top : Nat} (hsign : sign < 2) (hhigh : high < 64) (hr : r < 32)
    (hkind : kind < 2) (hlow : low < 16) (htop : top < 2) :
    let w := sign <<< 31 + high <<< 25 + r <<< 15 + kind <<< 12 + low <<< 8 + top <<< 7 + 0x63
    (w < 2 ^ 32 ∧ w % 4 = 3) ∧ bitField w 0 7 = 0x63 ∧ bitField w 12 3 = kind ∧ bitField w 15 5 = r ∧
      bitField w 20 5 = 0 ∧ bitField w 31 1 = sign ∧ bitField w 7 1 = top ∧ bitField w 25 6 = high ∧
      bitField w 8 4 = low := by
  simp only [bitField, Nat.shiftLeft_eq]
  omega

lemma parts_branch (hn : n < 8192) (heven : n % 2 = 0) :
    bits n 12 1 * 0x1000 + bits n 11 1 * 0x800 + bits n 5 6 * 0x20 + bits n 1 4 * 2 = n := by
  simp only [bits_eq]
  omega

lemma fields_jump {sign low mid high : Nat} (hsign : sign < 2) (hlow : low < 1024) (hmid : mid < 2) (hhigh : high < 256)
    (hd : d < 32) :
    let w := sign <<< 31 + low <<< 21 + mid <<< 20 + high <<< 12 + d <<< 7 + 0x6f
    (w < 2 ^ 32 ∧ w % 4 = 3) ∧ bitField w 0 7 = 0x6f ∧ bitField w 7 5 = d ∧
      bitField w 31 1 = sign ∧ bitField w 12 8 = high ∧ bitField w 20 1 = mid ∧ bitField w 21 10 = low := by
  simp only [bitField, Nat.shiftLeft_eq]
  omega

lemma parts_jump (hn : n < 2097152) (heven : n % 2 = 0) :
    bits n 20 1 * 0x100000 + bits n 12 8 * 0x1000 + bits n 11 1 * 0x800 + bits n 1 10 * 2 = n := by
  simp only [bits_eq]
  omega

lemma fields_compressed {op kind quadrant top low : Nat} (hop : op = kind * 0x2000 + quadrant) (hkind : kind < 8)
    (hquadrant : quadrant < 3) (htop : top < 2) (hd : d < 32) (hlow : low < 32) :
    let h := op + top <<< 12 + d <<< 7 + low <<< 2
    (h < 2 ^ 16 ∧ h % 4 ≠ 3) ∧ bitField h 13 3 * 4 + bitField h 0 2 = kind * 4 + quadrant ∧ bitField h 7 5 = d ∧
      bitField h 12 1 = top ∧ bitField h 2 5 = low := by
  simp only [bitField, Nat.shiftLeft_eq]
  omega

/-- The opcode of a compressed form is in its top three and its two low bits. -/
lemma fields_formatCI {op kind quadrant : Nat} (hop : op = kind * 0x2000 + quadrant) (hkind : kind < 8)
    (hquadrant : quadrant < 3) (rd : Reg) (imm : Int) :
    let h := formatCI op rd imm
    (h < 2 ^ 16 ∧ h % 4 ≠ 3) ∧ bitField h 13 3 * 4 + bitField h 0 2 = kind * 4 + quadrant ∧ bitField h 7 5 = rd.number ∧
      bitField h 12 1 * 0x20 + bitField h 2 5 = twos 6 imm := by
  obtain ⟨hw, hcode, hd, htop, hlow⟩ := fields_compressed hop hkind hquadrant (bits_lt (twos 6 imm) 5 1) rd.number_lt
    (bits_lt (twos 6 imm) 0 5)
  have hn : twos 6 imm < 64 := twos_lt 6 imm
  refine ⟨hw, hcode, hd, ?_⟩
  rw [formatCI, htop, hlow]
  simp only [bits_eq]
  omega

end

/-! ## Words and halfwords -/

lemma decode_word {w : Nat} {i : Instr} (hw : w < 2 ^ 32 ∧ w % 4 = 3) (h : decodeWord w = some i) (rest : Bytes) :
    decode (littleBytes 4 w ++ rest) = some (i, rest) := by
  have hhalf : Endian.front? .little 2 (littleBytes 4 w ++ rest) =
      some (w % 256 ^ 2, littleBytes 2 (w / 256 / 256) ++ rest) :=
    Endian.front?_bytes .little 2 w (littleBytes 2 (w / 256 / 256) ++ rest)
  have hword : Endian.front? .little 4 (littleBytes 4 w ++ rest) = some (w % 256 ^ 4, rest) :=
    Endian.front?_bytes .little 4 w rest
  have hkind : w % 256 ^ 2 % 4 = 3 := by omega
  rw [decode, hhalf, Option.bind_some, if_pos hkind, hword, Option.bind_some, Nat.mod_eq_of_lt (by omega), h]
  rfl

lemma decode_half {w : Nat} {i : Instr} (hw : w < 2 ^ 16 ∧ w % 4 ≠ 3) (h : decodeHalf w = some i) (rest : Bytes) :
    decode (littleBytes 2 w ++ rest) = some (i, rest) := by
  have hhalf : Endian.front? .little 2 (littleBytes 2 w ++ rest) = some (w % 256 ^ 2, rest) :=
    Endian.front?_bytes .little 2 w rest
  rw [Nat.mod_eq_of_lt (by omega)] at hhalf
  rw [decode, hhalf, Option.bind_some, if_neg hw.2, h]
  rfl

/-! ## Instructions -/

/-- An instruction whose operands its form can hold. -/
def Instr.Regular : Instr → Prop
  | addi _ _ imm | addiw _ _ imm => fits 12 imm
  | lui _ imm => fits 20 imm
  | branch _ _ offset => offset % 2 = 0 ∧ fits 13 offset
  | jal _ offset => offset % 2 = 0 ∧ fits 21 offset
  | cAddi rd imm | cLui rd imm => rd ≠ .zero ∧ imm ≠ 0 ∧ fits 6 imm
  | cAddiw rd imm | cLi rd imm => rd ≠ .zero ∧ fits 6 imm
  | cSlli rd shift => rd ≠ .zero ∧ 0 < shift ∧ shift < 64
  | cMv rd rs | cAdd rd rs => rd ≠ .zero ∧ rs ≠ .zero
  | lb .. | sb .. | ecall => True

lemma decode_encode {i : Instr} (h : i.Regular) (rest : Bytes) : decode (i.encode ++ rest) = some (i, rest) := by
  cases i with
  | addi rd rs imm =>
    obtain ⟨hw, hop, hkind, hd, hs, hn⟩ := fields_formatI rd rs (show 0x13 < 128 by decide) imm
    apply decode_word hw
    simp only [decodeWord, hop, hkind, hd, hs, hn, if_true, Reg.ofNumber?_number, signed_twos_of_fits (by decide) h,
      Option.bind_some, Option.map_some]
  | addiw rd rs imm =>
    obtain ⟨hw, hop, hkind, hd, hs, hn⟩ := fields_formatI rd rs (show 0x1b < 128 by decide) imm
    apply decode_word hw
    simp only [decodeWord, hop, hkind, hd, hs, hn, if_true, Reg.ofNumber?_number, signed_twos_of_fits (by decide) h,
      Option.bind_some, Option.map_some]
  | lui rd imm =>
    obtain ⟨hw, hop, hd, hn⟩ := fields_upper rd (show 0x37 < 128 by decide) imm
    apply decode_word hw
    simp only [decodeWord, hop, hd, hn, Reg.ofNumber?_number, signed_twos_of_fits (by decide) h, Option.map_some]
  | lb rd rs =>
    obtain ⟨hw, hop, hkind, hd, hs, hn⟩ := fields_formatI rd rs (show 0x03 < 128 by decide) 0
    have hzero : signed 12 (twos 12 0) = 0 := by decide
    apply decode_word hw
    simp only [decodeWord, hop, hkind, hd, hs, hn, hzero, and_self, if_true, Reg.ofNumber?_number,
      Option.bind_some, Option.map_some]
  | sb src rs =>
    obtain ⟨hw, hop, hkind, hlow, hhigh, hs, hd⟩ := fields_store src rs (show 0x23 < 128 by decide)
    apply decode_word hw
    simp only [decodeWord, hop, hkind, hlow, hhigh, hs, hd, and_self, if_true, Reg.ofNumber?_number,
      Option.bind_some, Option.map_some]
  | branch cond rs offset =>
    obtain ⟨heven, hfits⟩ := h
    obtain ⟨hw, hop, hkind, hs, hzero, h₁, h₂, h₃, h₄⟩ := fields_branch (bits_lt (twos 13 offset) 12 1)
      (bits_lt (twos 13 offset) 5 6) rs.number_lt cond.code_lt (bits_lt (twos 13 offset) 1 4)
      (bits_lt (twos 13 offset) 11 1)
    have hparts := parts_branch (twos_lt 13 offset) (twos_even (by decide) heven)
    apply decode_word hw
    simp only [decodeWord, branchOffset, hop, hkind, hs, hzero, h₁, h₂, h₃, h₄, if_true, Cond.ofCode?_code,
      Reg.ofNumber?_number, Option.bind_some, Option.map_some]
    rw [hparts, signed_twos_of_fits (by decide) hfits]
  | jal rd offset =>
    obtain ⟨heven, hfits⟩ := h
    obtain ⟨hw, hop, hd, h₁, h₂, h₃, h₄⟩ := fields_jump (bits_lt (twos 21 offset) 20 1) (bits_lt (twos 21 offset) 1 10)
      (bits_lt (twos 21 offset) 11 1) (bits_lt (twos 21 offset) 12 8) rd.number_lt
    have hparts := parts_jump (twos_lt 21 offset) (twos_even (by decide) heven)
    apply decode_word hw
    simp only [decodeWord, jumpOffset, hop, hd, h₁, h₂, h₃, h₄, Reg.ofNumber?_number, Option.map_some]
    rw [hparts, signed_twos_of_fits (by decide) hfits]
  | ecall => exact decode_word (by decide) (by decide) rest
  | cAddi rd imm =>
    obtain ⟨hrd, hne, hfits⟩ := h
    obtain ⟨hw, hop, hd, hn⟩ := fields_formatCI (show 0x0001 = 0 * 0x2000 + 1 by rfl) (by decide) (by decide) rd imm
    apply decode_half hw
    simp only [decodeHalf, hop, hd, hn, signed_twos_of_fits (by decide) hfits, hne, if_false, compressedReg_number hrd,
      Option.map_some]
  | cAddiw rd imm =>
    obtain ⟨hrd, hfits⟩ := h
    obtain ⟨hw, hop, hd, hn⟩ := fields_formatCI (show 0x2001 = 1 * 0x2000 + 1 by rfl) (by decide) (by decide) rd imm
    apply decode_half hw
    simp only [decodeHalf, hop, hd, hn, signed_twos_of_fits (by decide) hfits, compressedReg_number hrd,
      Option.map_some]
  | cLi rd imm =>
    obtain ⟨hrd, hfits⟩ := h
    obtain ⟨hw, hop, hd, hn⟩ := fields_formatCI (show 0x4001 = 2 * 0x2000 + 1 by rfl) (by decide) (by decide) rd imm
    apply decode_half hw
    simp only [decodeHalf, hop, hd, hn, signed_twos_of_fits (by decide) hfits, compressedReg_number hrd,
      Option.map_some]
  | cLui rd imm =>
    obtain ⟨hrd, hne, hfits⟩ := h
    obtain ⟨hw, hop, hd, hn⟩ := fields_formatCI (show 0x6001 = 3 * 0x2000 + 1 by rfl) (by decide) (by decide) rd imm
    apply decode_half hw
    simp only [decodeHalf, hop, hd, hn, signed_twos_of_fits (by decide) hfits, hne, rd.number_ne_two, or_self, if_false,
      compressedReg_number hrd, Option.map_some]
  | cSlli rd shift =>
    obtain ⟨hrd, hpos, hlt⟩ := h
    obtain ⟨hw, hop, hd, hn⟩ := fields_formatCI (show 0x0002 = 0 * 0x2000 + 2 by rfl) (by decide) (by decide) rd shift
    have hshift : twos 6 shift = shift := by
      rw [twos, Nat.one_shiftLeft]
      omega
    apply decode_half hw
    simp only [decodeHalf, hop, hd, hn, hshift, hpos.ne', if_false, compressedReg_number hrd, Option.map_some]
  | cMv rd rs =>
    obtain ⟨hrd, hrs⟩ := h
    obtain ⟨hw, hop, hd, htop, hlow⟩ := fields_compressed (show 0x8002 = 4 * 0x2000 + 2 by rfl) (by decide) (by decide)
      (show 0 < 2 by decide) rd.number_lt rs.number_lt
    apply decode_half hw
    simp only [decodeHalf, hop, hd, htop, hlow, compressedReg_number hrd, compressedReg_number hrs, Option.bind_some,
      Option.map_some, if_true]
  | cAdd rd rs =>
    obtain ⟨hrd, hrs⟩ := h
    obtain ⟨hw, hop, hd, htop, hlow⟩ := fields_compressed (show 0x8002 = 4 * 0x2000 + 2 by rfl) (by decide) (by decide)
      (show 1 < 2 by decide) rd.number_lt rs.number_lt
    apply decode_half hw
    simp only [decodeHalf, hop, hd, htop, hlow, compressedReg_number hrd, compressedReg_number hrs, Option.bind_some,
      Option.map_some, Nat.one_ne_zero, if_false]

end TapeElf.Riscv64
