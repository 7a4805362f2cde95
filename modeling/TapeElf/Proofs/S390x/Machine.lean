import TapeElf.Proofs.Numbers
import TapeElf.Proofs.Processor
import TapeElf.Target.S390x.Backend

/-!
# The z/Architecture processor

The part of z/Architecture that generated code needs. The two highest bits of an instruction give its length; `decode`
takes the first halfword and, if there is more, the halfword or the word behind it as one number.

Arithmetic sets the condition code, and a branch takes a mask with a bit for every code. A memory operand is an index
without base or displacement, and register zero as an index is none at all.

`decode_encode`: every instruction is decoded as itself.
-/

namespace TapeElf.S390x

/-- The states of the processor, with the condition code. -/
abbrev Cpu := Core 64 (Fin 4)

/-! ## Decoding -/

/-- The register of a number, if generated code uses it. -/
def Reg.ofNumber? (n : Nat) : Option Reg := Reg.all.find? fun r => r.number = n

/-- The mask of a field, if generated code uses it. -/
def Mask.ofCode? (n : Nat) : Option Mask := [Mask.eq, .ne, .always].find? fun k => k.code = n

def decodeShort (h : Nat) : Option Instr :=
  if h = 0x0a00 then some .svc else if h = 0x0700 then some .nopr else none

def decodeMedium (h imm : Nat) : Option Instr :=
  let r := Reg.ofNumber? (bitField h 4 4)
  match bitField h 8 8, bitField h 0 4 with
  | 0x42, _ =>
    if imm = 0 then r.bind fun r => (Reg.ofNumber? (bitField h 0 4)).map fun index => .stc r index else none
  | 0x47, _ => if h = 0x4700 ∧ imm = 0 then some .nop else none
  | 0xa5, 0x0 => r.map fun r => .iihh r (UInt16.ofNat imm)
  | 0xa5, 0x1 => r.map fun r => .iihl r (UInt16.ofNat imm)
  | 0xa7, 0x4 => (Mask.ofCode? (bitField h 4 4)).map fun mask => .brc mask (Int16.ofNat imm)
  | 0xa7, 0x9 => r.map fun r => .lghi r (Int16.ofNat imm)
  | 0xa7, 0xb => r.map fun r => .aghi r (Int16.ofNat imm)
  | 0xb9, _ =>
    if h = 0xb904 ∧ bitField imm 8 8 = 0 then
      (Reg.ofNumber? (bitField imm 4 4)).bind fun dst => (Reg.ofNumber? (bitField imm 0 4)).map fun src => .lgr dst src
    else none
  | _, _ => none

def decodeLong (h imm : Nat) : Option Instr :=
  let r := Reg.ofNumber? (bitField h 4 4)
  match bitField h 8 8, bitField h 0 4 with
  | 0xc0, 0x1 => r.map fun r => .lgfi r (Int32.ofNat imm)
  | 0xc0, 0x4 => (Mask.ofCode? (bitField h 4 4)).map fun mask => .brcl mask (Int32.ofNat imm)
  | 0xc0, 0x8 => r.map fun r => .iihf r (UInt32.ofNat imm)
  | 0xc2, 0x8 => r.map fun r => .agfi r (Int32.ofNat imm)
  | 0xc2, 0xd => r.map fun r => .cfi r (Int32.ofNat imm)
  | 0xcc, 0x8 => r.map fun r => .aih r (Int32.ofNat imm)
  | 0xe3, _ =>
    if imm = 0x90 then r.bind fun r => (Reg.ofNumber? (bitField h 0 4)).map fun index => .llgc r index else none
  | _, _ => none

def decode (bytes : Bytes) : Option (Instr × Bytes) :=
  (Endian.front? .big 2 bytes).bind fun h =>
    match bitField h.1 14 2 with
    | 0 => (decodeShort h.1).map fun i => (i, h.2)
    | 3 => (Endian.front? .big 4 h.2).bind fun imm => (decodeLong h.1 imm.1).map fun i => (i, imm.2)
    | _ => (Endian.front? .big 2 h.2).bind fun imm => (decodeMedium h.1 imm.1).map fun i => (i, imm.2)

/-! ## Execution -/

/-- The address that an index names. -/
def address (m : Cpu) (index : Reg) : BitVec 64 := if index = .r0 then 0 else m.regs index.number

/-- The condition code of a sum, given as the exact number: zero, negative, positive, or too large for its width. -/
def sumCode (bits : Nat) (sum : Int) : Fin 4 :=
  if fits bits sum then (if sum = 0 then 0 else if sum < 0 then 1 else 2) else 3

/-- The condition code of a comparison: equal, lower, higher. -/
def compareCode (x y : Int) : Fin 4 := if x = y then 0 else if x < y then 1 else 2

/-- Whether a mask has the bit of a condition code. -/
def Mask.takes (mask : Mask) (code : Fin 4) : Bool := mask.code.testBit (3 - code.val)

def addTo (m : Cpu) (r : Reg) (imm : Int) : Cpu :=
  { m.set r.number (m.regs r.number + BitVec.ofInt 64 imm) with
    flags := sumCode 64 ((m.regs r.number).toInt + imm) }

def addHigh (m : Cpu) (r : Reg) (imm : BitVec 32) : Cpu :=
  let high := (m.regs r.number).extractLsb' 32 32
  { m.set r.number ((high + imm) ++ (m.regs r.number).setWidth 32) with
    flags := sumCode 32 (high.toInt + imm.toInt) }

/-- What an instruction at an address does. -/
def exec (i : Instr) (own : BitVec 64) (m : Cpu) : Option Cpu :=
  match i with
  | .lgr dst src => some (m.set dst.number (m.regs src.number))
  | .lghi r imm => some (m.set r.number (BitVec.ofInt 64 imm.toInt))
  | .lgfi r imm => some (m.set r.number (BitVec.ofInt 64 imm.toInt))
  | .iihh r imm => some (m.set r.number (insertHalf (m.regs r.number) 48 imm))
  | .iihl r imm => some (m.set r.number (insertHalf (m.regs r.number) 32 imm))
  | .iihf r imm => some (m.set r.number (imm.toBitVec ++ (m.regs r.number).setWidth 32))
  | .llgc r index => some (m.set r.number ((m.memory (address m index)).toBitVec.setWidth 64))
  | .stc r index => some (m.store (address m index) ⟨(m.regs r.number).setWidth 8⟩)
  | .aghi r imm => some (addTo m r imm.toInt)
  | .agfi r imm => some (addTo m r imm.toInt)
  | .aih r imm => some (addHigh m r imm.toBitVec)
  | .cfi r imm => some { m with flags := compareCode ((m.regs r.number).setWidth 32).toInt imm.toInt }
  | .brc mask halfwords =>
    some (if mask.takes m.flags then m.goto (own + BitVec.ofInt 64 (2 * halfwords.toInt)) else m)
  | .brcl mask halfwords =>
    some (if mask.takes m.flags then m.goto (own + BitVec.ofInt 64 (2 * halfwords.toInt)) else m)
  | .svc => none
  | .nop | .nopr => some m

def processor : Processor 64 (Fin 4) Instr where
  decode := decode
  exec := exec

/-! ## Instructions are decoded as themselves -/

lemma Reg.number_lt (r : Reg) : r.number < 16 := by cases r <;> decide

@[simp] lemma Reg.ofNumber?_number (r : Reg) : Reg.ofNumber? r.number = some r := by cases r <;> rfl

lemma Mask.code_lt (k : Mask) : k.code < 16 := by cases k <;> decide

@[simp] lemma Mask.ofCode?_code (k : Mask) : Mask.ofCode? k.code = some k := by cases k <;> rfl

lemma bigBytes_two {high low : Nat} (h : low < 256) :
    bigBytes 2 (high * 256 + low) = [UInt8.ofNat high, UInt8.ofNat low] := by
  have hlow : UInt8.ofNat (high * 256 + low) = UInt8.ofNat low := by
    rw [← UInt8.toNat_inj, UInt8.toNat_ofNat', UInt8.toNat_ofNat']
    omega
  have hhigh : (high * 256 + low) / 256 = high := by omega
  simp only [bigBytes, littleBytes, hlow, hhigh, List.reverse_cons, List.reverse_nil, List.nil_append, List.cons_append]

section

variable {h imm : Nat} {i : Instr} (rest : Bytes)

lemma decode_short (hh : h < 2 ^ 16) (hlen : bitField h 14 2 = 0) (hi : decodeShort h = some i) :
    decode (bigBytes 2 h ++ rest) = some (i, rest) := by
  have hfirst : Endian.front? .big 2 (bigBytes 2 h ++ rest) = some (h % 256 ^ 2, rest) :=
    Endian.front?_bytes .big 2 h rest
  rw [Nat.mod_eq_of_lt (by omega)] at hfirst
  rw [decode, hfirst, Option.bind_some]
  simp only [hlen, hi, Option.map_some]

lemma decode_medium (hh : h < 2 ^ 16) (hlen : bitField h 14 2 = 1 ∨ bitField h 14 2 = 2) (himm : imm < 2 ^ 16)
    (hi : decodeMedium h imm = some i) : decode (bigBytes 2 h ++ bigBytes 2 imm ++ rest) = some (i, rest) := by
  have hfirst : Endian.front? .big 2 (bigBytes 2 h ++ (bigBytes 2 imm ++ rest)) =
      some (h % 256 ^ 2, bigBytes 2 imm ++ rest) := Endian.front?_bytes .big 2 h _
  have hsecond : Endian.front? .big 2 (bigBytes 2 imm ++ rest) = some (imm % 256 ^ 2, rest) :=
    Endian.front?_bytes .big 2 imm rest
  rw [Nat.mod_eq_of_lt (by omega)] at hfirst hsecond
  rw [List.append_assoc, decode, hfirst, Option.bind_some]
  rcases hlen with hlen | hlen
  all_goals simp only [hlen, hsecond, Option.bind_some, hi, Option.map_some]

lemma decode_long (hh : h < 2 ^ 16) (hlen : bitField h 14 2 = 3) (himm : imm < 2 ^ 32)
    (hi : decodeLong h imm = some i) : decode (bigBytes 2 h ++ bigBytes 4 imm ++ rest) = some (i, rest) := by
  have hfirst : Endian.front? .big 2 (bigBytes 2 h ++ (bigBytes 4 imm ++ rest)) =
      some (h % 256 ^ 2, bigBytes 4 imm ++ rest) := Endian.front?_bytes .big 2 h _
  have hsecond : Endian.front? .big 4 (bigBytes 4 imm ++ rest) = some (imm % 256 ^ 4, rest) :=
    Endian.front?_bytes .big 4 imm rest
  rw [Nat.mod_eq_of_lt (by omega)] at hfirst hsecond
  rw [List.append_assoc, decode, hfirst, Option.bind_some]
  simp only [hlen, hsecond, Option.bind_some, hi, Option.map_some]

end

lemma fields_head {top field low : Nat} (htop : top < 256) (hfield : field < 16) (hlow : low < 16) :
    let h := top * 256 + (field * 16 + low)
    h < 2 ^ 16 ∧ bitField h 14 2 = top / 64 ∧ bitField h 8 8 = top ∧ bitField h 4 4 = field ∧ bitField h 0 4 = low := by
  simp only [bitField]
  omega

lemma head_eq {opcode field : Nat} (hfield : field < 16) :
    head opcode field = bigBytes 2 (opcode / 16 * 256 + (field * 16 + opcode % 16)) := by
  rw [bigBytes_two (by omega), head, nibbles]

lemma decode_formatRI {opcode field imm : Nat} {i : Instr} (hop : 0x400 ≤ opcode ∧ opcode < 0xc00) (hfield : field < 16)
    (himm : imm < 2 ^ 16) (rest : Bytes)
    (hi : ∀ h, bitField h 8 8 = opcode / 16 → bitField h 0 4 = opcode % 16 → bitField h 4 4 = field →
      decodeMedium h imm = some i) :
    decode (formatRI opcode field imm ++ rest) = some (i, rest) := by
  obtain ⟨hh, hlen, htop, hf, hlow⟩ :=
    fields_head (show opcode / 16 < 256 by omega) hfield (show opcode % 16 < 16 by omega)
  rw [formatRI, head_eq hfield]
  exact decode_medium rest hh (by omega) himm (hi _ htop hlow hf)

lemma decode_formatRIL {opcode field imm : Nat} {i : Instr} (hop : 0xc00 ≤ opcode ∧ opcode < 0x1000)
    (hfield : field < 16) (himm : imm < 2 ^ 32) (rest : Bytes)
    (hi : ∀ h, bitField h 8 8 = opcode / 16 → bitField h 0 4 = opcode % 16 → bitField h 4 4 = field →
      decodeLong h imm = some i) :
    decode (formatRIL opcode field imm ++ rest) = some (i, rest) := by
  obtain ⟨hh, hlen, htop, hf, hlow⟩ :=
    fields_head (show opcode / 16 < 256 by omega) hfield (show opcode % 16 < 16 by omega)
  rw [formatRIL, head_eq hfield]
  exact decode_long rest hh (by omega) himm (hi _ htop hlow hf)

/-- The code of an access to memory starts with an opcode, a register and an index. -/
lemma access_eq (opcode : Nat) (r index : Reg) :
    [UInt8.ofNat opcode, nibbles r.number index.number] =
      bigBytes 2 (opcode * 256 + (r.number * 16 + index.number)) := by
  have hr := r.number_lt
  have hindex := index.number_lt
  rw [bigBytes_two (by omega), nibbles]

lemma decode_encode (i : Instr) (rest : Bytes) : decode (i.encode ++ rest) = some (i, rest) := by
  cases i with
  | lgr dst src =>
    obtain ⟨himm, -, hzero, hdst, hsrc⟩ := fields_head (show 0 < 256 by decide) dst.number_lt src.number_lt
    have hcode : (Instr.lgr dst src).encode =
        bigBytes 2 0xb904 ++ bigBytes 2 (0 * 256 + (dst.number * 16 + src.number)) := by
      rw [← access_eq]
      rfl
    rw [hcode]
    apply decode_medium rest (by decide) (by decide) himm
    simp only [decodeMedium, show bitField 0xb904 8 8 = 0xb9 by decide, show bitField 0xb904 0 4 = 4 by decide, hzero,
      hdst, hsrc, and_self, if_true, Reg.ofNumber?_number, Option.bind_some, Option.map_some]
  | lghi r imm =>
    apply decode_formatRI (by decide) r.number_lt (twos_lt 16 _)
    intro h htop hlow hr
    simp only [decodeMedium, htop, hlow, hr, Reg.ofNumber?_number, Option.map_some, int16_ofNat_twos]
  | lgfi r imm =>
    apply decode_formatRIL (by decide) r.number_lt (twos_lt 32 _)
    intro h htop hlow hr
    simp only [decodeLong, htop, hlow, hr, Reg.ofNumber?_number, Option.map_some, int32_ofNat_twos]
  | iihh r imm =>
    apply decode_formatRI (by decide) r.number_lt imm.toNat_lt
    intro h htop hlow hr
    simp only [decodeMedium, htop, hlow, hr, Reg.ofNumber?_number, Option.map_some, UInt16.ofNat_toNat]
  | iihl r imm =>
    apply decode_formatRI (by decide) r.number_lt imm.toNat_lt
    intro h htop hlow hr
    simp only [decodeMedium, htop, hlow, hr, Reg.ofNumber?_number, Option.map_some, UInt16.ofNat_toNat]
  | iihf r imm =>
    apply decode_formatRIL (by decide) r.number_lt imm.toNat_lt
    intro h htop hlow hr
    simp only [decodeLong, htop, hlow, hr, Reg.ofNumber?_number, Option.map_some, UInt32.ofNat_toNat]
  | llgc r index =>
    obtain ⟨hh, hlen, htop, hr, hindex⟩ := fields_head (show 0xe3 < 256 by decide) r.number_lt index.number_lt
    have hcode : (Instr.llgc r index).encode =
        bigBytes 2 (0xe3 * 256 + (r.number * 16 + index.number)) ++ bigBytes 4 0x90 := by
      rw [← access_eq]
      rfl
    rw [hcode]
    apply decode_long rest hh hlen (by decide)
    simp only [decodeLong, htop, hr, hindex, if_true, Reg.ofNumber?_number, Option.bind_some, Option.map_some]
  | stc r index =>
    obtain ⟨hh, hlen, htop, hr, hindex⟩ := fields_head (show 0x42 < 256 by decide) r.number_lt index.number_lt
    have hcode : (Instr.stc r index).encode =
        bigBytes 2 (0x42 * 256 + (r.number * 16 + index.number)) ++ bigBytes 2 0 := by
      rw [← access_eq]
      rfl
    rw [hcode]
    apply decode_medium rest hh (.inl hlen) (by decide)
    simp only [decodeMedium, htop, hr, hindex, if_true, Reg.ofNumber?_number, Option.bind_some, Option.map_some]
  | aghi r imm =>
    apply decode_formatRI (by decide) r.number_lt (twos_lt 16 _)
    intro h htop hlow hr
    simp only [decodeMedium, htop, hlow, hr, Reg.ofNumber?_number, Option.map_some, int16_ofNat_twos]
  | agfi r imm =>
    apply decode_formatRIL (by decide) r.number_lt (twos_lt 32 _)
    intro h htop hlow hr
    simp only [decodeLong, htop, hlow, hr, Reg.ofNumber?_number, Option.map_some, int32_ofNat_twos]
  | aih r imm =>
    apply decode_formatRIL (by decide) r.number_lt (twos_lt 32 _)
    intro h htop hlow hr
    simp only [decodeLong, htop, hlow, hr, Reg.ofNumber?_number, Option.map_some, int32_ofNat_twos]
  | cfi r imm =>
    apply decode_formatRIL (by decide) r.number_lt (twos_lt 32 _)
    intro h htop hlow hr
    simp only [decodeLong, htop, hlow, hr, Reg.ofNumber?_number, Option.map_some, int32_ofNat_twos]
  | brc mask halfwords =>
    apply decode_formatRI (by decide) mask.code_lt (twos_lt 16 _)
    intro h htop hlow hmask
    simp only [decodeMedium, htop, hlow, hmask, Mask.ofCode?_code, Option.map_some, int16_ofNat_twos]
  | brcl mask halfwords =>
    apply decode_formatRIL (by decide) mask.code_lt (twos_lt 32 _)
    intro h htop hlow hmask
    simp only [decodeLong, htop, hlow, hmask, Mask.ofCode?_code, Option.map_some, int32_ofNat_twos]
  | svc =>
    show decode (bigBytes 2 0x0a00 ++ rest) = _
    exact decode_short rest (by decide) (by decide) (by decide)
  | nop =>
    show decode (bigBytes 2 0x4700 ++ bigBytes 2 0 ++ rest) = _
    exact decode_medium rest (by decide) (by decide) (by decide) (by decide)
  | nopr =>
    show decode (bigBytes 2 0x0700 ++ rest) = _
    exact decode_short rest (by decide) (by decide) (by decide)

end TapeElf.S390x
