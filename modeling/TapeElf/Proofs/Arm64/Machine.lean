import TapeElf.Proofs.Numbers
import TapeElf.Proofs.Processor
import TapeElf.Target.Arm64.Backend

/-!
# The ARM64 processor

The part of A64 that generated code needs. Of the flags only the one for zero is kept, since no condition here reads
another. A load or a store that writes its base register back, as all do here, must not move that same register: the
architecture does not say what happens then, so nothing does.

`decode_encode`: every instruction whose operands fit is decoded as itself.
-/

namespace TapeElf.Arm64

/-- The states of the processor, with the flag for zero. -/
abbrev Pe := Core 64 Bool

/-! ## Decoding -/

/-- The register of a number, which is not the one for zero or the stack pointer. -/
def reg? (n : Nat) : Option Reg := if h : n < 31 then some ⟨n, h⟩ else none

def Move.ofCode? (n : Nat) : Option Move := [Move.invert, .zero, .keep].find? fun k => k.code = n

def Cond.ofCode? (n : Nat) : Option Cond := [Cond.eq, .ne].find? fun c => c.code = n

/-- The field of an additive operation: it is on 64 bits, and does not set the flags. -/
def AddSub.code : AddSub → Nat
  | add => 4
  | sub => 6

def AddSub.ofCode? (n : Nat) : Option AddSub := [AddSub.add, .sub].find? fun op => op.code = n

/-- What a move leaves in its halfword. -/
def Move.result (kind : Move) (imm : Nat) : UInt16 :=
  UInt16.ofNat (if kind = .invert then 0xffff - imm else imm)

def decodeWord (w : Nat) : Option Instr :=
  let top := bitField w 29 3
  let rd := reg? (bitField w 0 5)
  let rn := reg? (bitField w 5 5)
  let rm := reg? (bitField w 16 5)
  match bitField w 24 5 with
  | 0x11 =>
    if bitField w 23 1 = 0 then
      (AddSub.ofCode? top).bind fun op => rd.bind fun rd => rn.map fun rn =>
        .addSubImm op rd rn (UInt16.ofNat (bitField w 10 12)) (bitField w 22 1 = 1)
    else none
  | 0x0b =>
    -- The second operand is not shifted.
    if bitField w 21 3 = 0 ∧ bitField w 10 6 = 0 then
      (AddSub.ofCode? top).bind fun op => rd.bind fun rd => rn.bind fun rn => rm.map fun rm => .addSub op rd rn rm
    else none
  | 0x0a =>
    if top = 5 ∧ bitField w 21 3 = 0 ∧ bitField w 10 6 = 0 ∧ bitField w 5 5 = zeroReg then
      rd.bind fun rd => rm.map fun rm => .mov rd rm
    else none
  | 0x12 =>
    if bitField w 23 1 = 1 then
      (if 4 ≤ top then Move.ofCode? (top - 4) else none).bind fun kind => rd.map fun rd =>
        .movWide kind rd (kind.result (bitField w 5 16)) (UInt8.ofNat (bitField w 21 2 * 16))
    -- The mask of the eight low bits, with the result thrown away.
    else if top = 7 ∧ bitField w 10 13 = 0x1007 ∧ bitField w 0 5 = zeroReg then rn.map fun rn => .testByte rn
    else none
  | 0x18 =>
    -- The base is indexed after the access, by nothing.
    if top = 1 ∧ bitField w 10 12 = 1 then
      if bitField w 22 2 = 0 then
        rn.bind fun rn => if bitField w 0 5 = zeroReg then some (.storeZero rn) else rd.map fun rd => .storeByte rd rn
      else if bitField w 22 2 = 1 then rn.bind fun rn => rd.map fun rd => .loadByte rd rn
      else none
    else none
  | 0x14 =>
    if top = 2 then
      if bitField w 4 1 = 0 then
        (Cond.ofCode? (bitField w 0 4)).map fun cond => .branch cond (signed 19 (bitField w 5 19))
      else none
    else if w = 0xd4000001 then some .svc
    else if w = 0xd4200020 then some .brk
    else none
  | 0x15 => if w = 0xd503201f then some .nop else none
  | _ => none

/-- The instruction at the front of some bytes. -/
def decode (bytes : Bytes) : Option (Instr × Bytes) :=
  (Endian.front? .little 4 bytes).bind fun word => (decodeWord word.1).map fun i => (i, word.2)

/-! ## Execution -/

/-- What a move makes of a register. The operand of an inverting one is the complement of what it leaves. -/
def Move.apply (kind : Move) (x : BitVec 64) (imm : UInt16) (shift : Nat) : BitVec 64 :=
  match kind with
  | .invert => ~~~((~~~imm.toBitVec).setWidth 64 <<< shift)
  | .zero => imm.toBitVec.setWidth 64 <<< shift
  | .keep => insertHalf x shift imm

def AddSub.apply : AddSub → BitVec 64 → BitVec 64 → BitVec 64
  | .add, x, y => x + y
  | .sub, x, y => x - y

def Cond.holds : Cond → Bool → Bool
  | .eq, zero => zero
  | .ne, zero => !zero

/-- What an instruction at an address does. -/
def exec (i : Instr) (own : BitVec 64) (m : Pe) : Option Pe :=
  match i with
  | .movWide kind rd imm shift => some (m.set rd.val (kind.apply (m.regs rd.val) imm shift.toNat))
  | .addSubImm op rd rn imm high =>
    some (m.set rd.val (op.apply (m.regs rn.val) (imm.toBitVec.setWidth 64 <<< if high then 12 else 0)))
  | .addSub op rd rn rm => some (m.set rd.val (op.apply (m.regs rn.val) (m.regs rm.val)))
  | .mov rd rm => some (m.set rd.val (m.regs rm.val))
  | .testByte rn => some { m with flags := (m.regs rn.val).setWidth 8 = 0 }
  | .loadByte rt rn =>
    if rt = rn then none else some (m.set rt.val ((m.memory (m.regs rn.val)).toBitVec.setWidth 64))
  | .storeByte rt rn => if rt = rn then none else some (m.store (m.regs rn.val) ⟨(m.regs rt.val).setWidth 8⟩)
  | .storeZero rn => some (m.store (m.regs rn.val) 0)
  | .branch cond words => some (if cond.holds m.flags then m.goto (own + BitVec.ofInt 64 (4 * words)) else m)
  | .svc | .brk => none
  | .nop => some m

def processor : Processor 64 Bool Instr where
  decode := decode
  exec := exec

/-! ## Instructions are decoded as themselves -/

/-- An instruction whose operands its form can hold. -/
def Instr.Regular : Instr → Prop
  | movWide _ _ _ shift => shift ∈ [0, 16, 32, 48]
  | addSubImm _ _ _ imm _ => imm < 0x1000
  | branch _ words => fits 19 words
  | addSub .. | mov .. | testByte _ | loadByte .. | storeByte .. | storeZero _ | svc | brk | nop => True

@[simp] lemma reg?_val (r : Reg) : reg? r.val = some r := dif_pos r.isLt

lemma val_lt (r : Reg) : r.val < 32 := Nat.lt_succ_of_lt r.isLt

@[simp] lemma Move.ofCode?_code (k : Move) : Move.ofCode? k.code = some k := by cases k <;> rfl

@[simp] lemma Cond.ofCode?_code (c : Cond) : Cond.ofCode? c.code = some c := by cases c <;> rfl

@[simp] lemma AddSub.ofCode?_code (op : AddSub) : AddSub.ofCode? op.code = some op := by cases op <;> rfl

lemma AddSub.code_lt (op : AddSub) : op.code < 8 := by cases op <;> decide

lemma decode_word {w : Nat} {i : Instr} (hw : w < 2 ^ 32) (h : decodeWord w = some i) (rest : Bytes) :
    decode (littleBytes 4 w ++ rest) = some (i, rest) := by
  have hword : Endian.front? .little 4 (littleBytes 4 w ++ rest) = some (w % 256 ^ 4, rest) :=
    Endian.front?_bytes .little 4 w rest
  rw [Nat.mod_eq_of_lt (by omega)] at hword
  rw [decode, hword, Option.bind_some, h]
  rfl

section

variable {top d n m imm : Nat} (htop : top < 8) (hd : d < 32) (hn : n < 32)
include htop hd

lemma fields_movWide {half : Nat} (hhalf : half < 4) (himm : imm < 65536) :
    let w := top <<< 29 + 0x12 <<< 24 + (half + 4) <<< 21 + imm <<< 5 + d
    w < 2 ^ 32 ∧ bitField w 24 5 = 0x12 ∧ bitField w 29 3 = top ∧ bitField w 23 1 = 1 ∧
      bitField w 21 2 = half ∧ bitField w 5 16 = imm ∧ bitField w 0 5 = d := by
  simp only [bitField, Nat.shiftLeft_eq]
  omega

include hn

lemma fields_addSubImm {high : Nat} (hhigh : high < 2) (himm : imm < 4096) :
    let w := top <<< 29 + 0x11 <<< 24 + high <<< 22 + imm <<< 10 + n <<< 5 + d
    w < 2 ^ 32 ∧ bitField w 24 5 = 0x11 ∧ bitField w 29 3 = top ∧ bitField w 23 1 = 0 ∧ bitField w 22 1 = high ∧
      bitField w 10 12 = imm ∧ bitField w 5 5 = n ∧ bitField w 0 5 = d := by
  simp only [bitField, Nat.shiftLeft_eq]
  omega

lemma fields_register {kind : Nat} (hkind : kind < 32) (hm : m < 32) :
    let w := top <<< 29 + kind <<< 24 + m <<< 16 + n <<< 5 + d
    w < 2 ^ 32 ∧ bitField w 24 5 = kind ∧ bitField w 29 3 = top ∧ bitField w 21 3 = 0 ∧ bitField w 10 6 = 0 ∧
      bitField w 16 5 = m ∧ bitField w 5 5 = n ∧ bitField w 0 5 = d := by
  simp only [bitField, Nat.shiftLeft_eq]
  omega

lemma fields_access {opc : Nat} (hopc : opc < 4) :
    let w := top <<< 29 + 0x18 <<< 24 + opc <<< 22 + 1 <<< 10 + n <<< 5 + d
    w < 2 ^ 32 ∧ bitField w 24 5 = 0x18 ∧ bitField w 29 3 = top ∧ bitField w 10 12 = 1 ∧ bitField w 22 2 = opc ∧
      bitField w 5 5 = n ∧ bitField w 0 5 = d := by
  simp only [bitField, Nat.shiftLeft_eq]
  omega

end

lemma fields_testByte {n : Nat} (hn : n < 32) :
    let w := 0xf2401c00 + n <<< 5 + zeroReg
    w < 2 ^ 32 ∧ bitField w 24 5 = 0x12 ∧ bitField w 29 3 = 7 ∧ bitField w 23 1 = 0 ∧ bitField w 10 13 = 0x1007 ∧
      bitField w 5 5 = n ∧ bitField w 0 5 = zeroReg := by
  simp only [bitField, Nat.shiftLeft_eq, zeroReg]
  omega

lemma fields_branch {n c : Nat} (hn : n < 1 <<< 19) (hc : c < 2) :
    let w := 0x54000000 + n <<< 5 + c
    w < 2 ^ 32 ∧ bitField w 24 5 = 0x14 ∧ bitField w 29 3 = 2 ∧ bitField w 4 1 = 0 ∧ bitField w 5 19 = n ∧
      bitField w 0 4 = c := by
  simp only [bitField, Nat.shiftLeft_eq] at *
  omega

lemma half_field {half : Nat} (h : half < 4) : (UInt8.ofNat (half * 16)).toNat / 16 ||| 4 = half + 4 := by
  interval_cases half <;> rfl

lemma Move.result_operand (kind : Move) (imm : UInt16) :
    kind.result (if kind = .invert then 0xffff - imm.toNat else imm.toNat) = imm := by
  have himm := imm.toNat_lt
  cases kind with
  | invert =>
    rw [Move.result, if_pos rfl, if_pos rfl, Nat.sub_sub_self (by omega), UInt16.ofNat_toNat]
  | zero | keep => exact UInt16.ofNat_toNat

lemma decode_encode {i : Instr} (h : i.Regular) (rest : Bytes) : decode (i.encode ++ rest) = some (i, rest) := by
  cases i with
  | movWide kind rd imm shift =>
    obtain ⟨half, hhalf, rfl⟩ : ∃ half < 4, shift = UInt8.ofNat (half * 16) := by
      simp only [Instr.Regular, List.mem_cons, List.not_mem_nil, or_false] at h
      rcases h with rfl | rfl | rfl | rfl
      exacts [⟨0, by decide⟩, ⟨1, by decide⟩, ⟨2, by decide⟩, ⟨3, by decide⟩]
    have hoperand : (if kind = .invert then 0xffff - imm.toNat else imm.toNat) < 65536 := by
      have := imm.toNat_lt
      split <;> omega
    have hword : (Instr.movWide kind rd imm (UInt8.ofNat (half * 16))).word = (kind.code + 4) <<< 29 + 0x12 <<< 24 +
        (half + 4) <<< 21 + (if kind = .invert then 0xffff - imm.toNat else imm.toNat) <<< 5 + rd.val := by
      rw [Instr.word, half_field hhalf]
      cases kind <;> simp only [Move.code] <;> omega
    have htop : kind.code + 4 < 8 := by cases kind <;> decide
    obtain ⟨hw, hkind, htop, hone, hhalf, hn, hd⟩ := fields_movWide htop (val_lt rd) hhalf hoperand
    rw [Instr.encode, hword]
    apply decode_word hw
    simp only [decodeWord, hkind, htop, hone, hhalf, hn, hd, if_true, Nat.le_add_left, Nat.add_sub_cancel,
      Move.ofCode?_code, reg?_val, Option.bind_some, Option.map_some, Move.result_operand]
  | addSubImm op rd rn imm high =>
    have himm : imm.toNat < 4096 := h
    have hword : (Instr.addSubImm op rd rn imm high).word =
        op.code <<< 29 + 0x11 <<< 24 + high.toNat <<< 22 + imm.toNat <<< 10 + rn.val <<< 5 + rd.val := by
      rw [Instr.word.eq_def]
      dsimp only
      rw [Nat.mod_eq_of_lt himm]
      cases op <;> cases high <;> rfl
    obtain ⟨hw, hkind, htop, hzero, hhigh, hn, hs, hd⟩ :=
      fields_addSubImm op.code_lt (val_lt rd) (val_lt rn) high.toNat_lt himm
    rw [Instr.encode, hword]
    apply decode_word hw
    simp only [decodeWord, hkind, htop, hzero, hhigh, hn, hs, hd, if_true, AddSub.ofCode?_code, reg?_val,
      Option.bind_some, Option.map_some, UInt16.ofNat_toNat, Bool.toNat_eq_one, Bool.decide_eq_true]
  | addSub op rd rn rm =>
    have hword : (Instr.addSub op rd rn rm).word =
        op.code <<< 29 + 0x0b <<< 24 + rm.val <<< 16 + rn.val <<< 5 + rd.val := by
      cases op <;> rfl
    obtain ⟨hw, hkind, htop, hzero, hzero', hm, hn, hd⟩ :=
      fields_register op.code_lt (val_lt rd) (val_lt rn) (show 0x0b < 32 by decide) (val_lt rm)
    rw [Instr.encode, hword]
    apply decode_word hw
    simp only [decodeWord, hkind, htop, hzero, hzero', hm, hn, hd, and_self, if_true, AddSub.ofCode?_code, reg?_val,
      Option.bind_some, Option.map_some]
  | mov rd rm =>
    have hword : (Instr.mov rd rm).word = 5 <<< 29 + 0x0a <<< 24 + rm.val <<< 16 + zeroReg <<< 5 + rd.val := by
      simp only [Instr.word, zeroReg]
      omega
    obtain ⟨hw, hkind, htop, hzero, hzero', hm, hn, hd⟩ := fields_register (show 5 < 8 by decide) (val_lt rd)
      (show zeroReg < 32 by decide) (show 0x0a < 32 by decide) (val_lt rm)
    rw [Instr.encode, hword]
    apply decode_word hw
    simp only [decodeWord, hkind, htop, hzero, hzero', hm, hn, hd, and_self, if_true, reg?_val, Option.bind_some,
      Option.map_some]
  | testByte rn =>
    obtain ⟨hw, hkind, htop, hzero, hmask, hn, hd⟩ := fields_testByte (val_lt rn)
    apply decode_word hw
    simp only [decodeWord, hkind, htop, hzero, hmask, hn, hd, Nat.zero_ne_one, and_self, if_true, if_false, reg?_val,
      Option.map_some]
  | loadByte rt rn =>
    obtain ⟨hw, hkind, htop, hone, hopc, hn, hd⟩ :=
      fields_access (show 1 < 8 by decide) (val_lt rt) (val_lt rn) (show 1 < 4 by decide)
    apply decode_word hw
    simp only [decodeWord, hkind, htop, hone, hopc, hn, hd, and_self, Nat.one_ne_zero, if_true, if_false, reg?_val,
      Option.bind_some, Option.map_some]
  | storeByte rt rn =>
    obtain ⟨hw, hkind, htop, hone, hopc, hn, hd⟩ :=
      fields_access (show 1 < 8 by decide) (val_lt rt) (val_lt rn) (show 0 < 4 by decide)
    have hne : rt.val ≠ zeroReg := rt.isLt.ne
    apply decode_word hw
    simp only [decodeWord, hkind, htop, hone, hopc, hn, hd, hne, and_self, if_true, if_false, reg?_val,
      Option.bind_some, Option.map_some]
  | storeZero rn =>
    obtain ⟨hw, hkind, htop, hone, hopc, hn, hd⟩ :=
      fields_access (show 1 < 8 by decide) (show zeroReg < 32 by decide) (val_lt rn) (show 0 < 4 by decide)
    apply decode_word hw
    simp only [decodeWord, hkind, htop, hone, hopc, hn, hd, and_self, if_true, reg?_val, Option.bind_some]
  | branch cond words =>
    have hcond : cond.code < 2 := by cases cond <;> decide
    obtain ⟨hw, hkind, htop, hzero, hn, hc⟩ := fields_branch (twos_lt 19 words) hcond
    apply decode_word hw
    simp only [decodeWord, hkind, htop, hzero, hn, hc, if_true, Cond.ofCode?_code, Option.map_some,
      signed_twos_of_fits (by decide) h]
  | svc | brk | nop => exact decode_word (by decide) (by decide) rest

end TapeElf.Arm64
