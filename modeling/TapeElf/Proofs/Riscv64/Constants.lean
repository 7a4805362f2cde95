import TapeElf.Proofs.Riscv64.Decoding

/-!
# Constants are loaded

The code that loads a constant is a listing of a few instructions, all on the destination and with operands that their
forms can hold, and it leaves the constant there and everything else as it was (`loadsConstant_emit`).

A step for a large constant takes the low twelve bits off and loads what is left without its trailing zeros, an odd
number times a power of two (`trailingZeros_spec`). So the number of bits goes down by twelve every time, and three
steps bring any number down to 32 bits.
-/

namespace TapeElf.Riscv64

variable {rd : Reg} {v : Int}

/-! ## Instructions that load constants -/

/-- An instruction that loads a part of a constant. -/
def Instr.LoadsPart (rd : Reg) : Instr → Prop
  | cLi r imm => r = rd ∧ fits 6 imm
  | cLui r imm => r = rd ∧ imm ≠ 0 ∧ fits 6 imm
  | lui r imm => r = rd ∧ fits 20 imm
  | addi r s imm => r = rd ∧ (s = rd ∨ s = .zero) ∧ fits 12 imm
  | addiw r s imm => r = rd ∧ s = rd ∧ fits 12 imm
  | cAddiw r imm => r = rd ∧ fits 6 imm
  | cSlli r shift => r = rd ∧ 1 ≤ shift ∧ shift ≤ 63
  | cAddi r imm => r = rd ∧ imm ≠ 0 ∧ fits 6 imm
  | lb .. | sb .. | branch .. | jal .. | ecall | cMv .. | cAdd .. => False

lemma Instr.LoadsPart.regular {i : Instr} (hrd : rd ≠ .zero) (h : i.LoadsPart rd) : i.Regular := by
  cases i with
  | cLi r imm | cLui r imm | cAddiw r imm | cAddi r imm =>
    obtain ⟨rfl, h⟩ := h
    exact ⟨hrd, h⟩
  | cSlli r shift =>
    obtain ⟨rfl, h⟩ := h
    exact ⟨hrd, h.1, Nat.lt_succ_of_le h.2⟩
  | lui r imm => exact h.2
  | addi r s imm | addiw r s imm => exact h.2.2
  | lb | sb | branch | jal | ecall | cMv | cAdd => exact h.elim

lemma encodes {i : Instr} (h : i.Regular) : processor.Encodes i.encode i := by
  refine ⟨?_, decode_encode h⟩
  cases i <;> simp [Instr.encode, Processor.window]

lemma value_number (hrd : rd ≠ .zero) (m : Hart) : value m rd.number = m.regs rd.number := by
  apply if_neg
  intro h
  exact hrd (Reg.number_inj.mp h)

lemma word_ofInt (x : Int) : word (BitVec.ofInt 64 x) = BitVec.ofInt 64 (signed 32 x) := by
  rw [word, BitVec.signExtend, setWidth_ofInt (by decide), BitVec.toInt_ofInt, signed, Nat.one_shiftLeft]

section

variable (hrd : rd ≠ .zero)
include hrd

lemma maps_encode {i : Instr} {f : BitVec 64 → BitVec 64} (h : i.Regular)
    (hexec : ∀ own m, exec i own m = some (put m rd (f (value m rd.number)))) :
    processor.Maps i.encode rd.number f := by
  apply (encodes h).maps
  intro own m
  refine ⟨(), ?_⟩
  show exec i own m = some (m.set rd.number _)
  rw [hexec, put, if_neg hrd, value_number hrd]

lemma maps_addi (h : fits 12 v) :
    processor.Maps (Instr.addi rd rd v).encode rd.number fun x => x + BitVec.ofInt 64 v :=
  maps_encode hrd h fun _ _ => rfl

lemma maps_cAddi (hne : v ≠ 0) (h : fits 6 v) :
    processor.Maps (Instr.cAddi rd v).encode rd.number fun x => x + BitVec.ofInt 64 v :=
  maps_encode hrd ⟨hrd, hne, h⟩ fun _ _ => rfl

lemma maps_addLow (h : fits 12 v) :
    processor.Maps (assemble (addLow rd v)).bytes rd.number fun x => x + BitVec.ofInt 64 v := by
  unfold addLow
  split_ifs with hzero hshort
  · have hid : (fun x : BitVec 64 => x + BitVec.ofInt 64 v) = id := by
      funext x
      rw [hzero]
      exact BitVec.add_zero x
    rw [hid]
    exact Processor.maps_nil _
  · rw [Emission.bytes_assemble_singleton]
    exact maps_cAddi hrd hzero hshort
  · rw [Emission.bytes_assemble_singleton]
    exact maps_addi hrd h

end

/-! ## Constants of 32 bits -/

lemma upperPart_mul_add (v : Int) : upperPart v * 0x1000 + signed 12 v = v := by
  simp only [upperPart, signed, Nat.one_shiftLeft, Int.bmod_def]
  omega

/-- The upper part that is loaded is the right one, or wraps around if rounding has taken it past the largest. -/
lemma signed_upperPart (h : fits 32 v) : fits 20 (signed 20 (upperPart v)) = true ∧
    signed 32 (signed 20 (upperPart v) * 0x1000 + signed 12 v) = v ∧
    (signed 12 v = 0 ∨ signed 20 (upperPart v) = 0 → signed 20 (upperPart v) * 0x1000 + signed 12 v = v) := by
  have hv := upperPart_mul_add v
  have hlow : fits 12 (signed 12 v) := fits_signed (by decide) v
  rw [fits_iff] at *
  simp only [signed, upperPart, Nat.one_shiftLeft, Int.bmod_def] at *
  omega

lemma maps_upper (hrd : rd ≠ .zero) {high : Int} (hne : high ≠ 0) (h : fits 20 high) :
    processor.Maps (assemble (if fits 6 high then [.cLui rd high] else [.lui rd high])).bytes rd.number
      fun _ => BitVec.ofInt 64 (high * 0x1000) := by
  have hshift : BitVec.ofInt 64 high <<< 12 = BitVec.ofInt 64 (high * 0x1000) := ofInt_shiftLeft 64 high 12
  split
  · next hshort =>
    rw [Emission.bytes_assemble_singleton, ← hshift]
    exact maps_encode hrd ⟨hrd, hne, hshort⟩ fun _ _ => rfl
  · have hword : word (BitVec.ofInt 64 high <<< 12) = BitVec.ofInt 64 (high * 0x1000) := by
      rw [fits_iff] at h
      rw [hshift, word_ofInt, signed_of_fits (by decide)]
      rw [fits_iff]
      omega
    rw [Emission.bytes_assemble_singleton, ← hword]
    exact maps_encode hrd h fun _ _ => rfl

lemma maps_shortConstant (hrd : rd ≠ .zero) (h : fits 32 v) :
    processor.Maps (assemble (shortConstant rd v)).bytes rd.number fun _ => BitVec.ofInt 64 v := by
  have hlow : fits 12 (signed 12 v) := fits_signed (by decide) v
  obtain ⟨hhigh, hword, hexact⟩ := signed_upperPart h
  unfold shortConstant
  dsimp only
  generalize signed 12 v = low at *
  generalize signed 20 (upperPart v) = high at *
  by_cases hzero : high = 0
  · -- Only the low part is loaded.
    have hv : low = v := by
      have := hexact (.inr hzero)
      omega
    simp only [hzero, if_true, ne_eq, not_true_eq_false, and_false, if_false, List.nil_append]
    split
    · next hshort =>
      rw [Emission.bytes_assemble_singleton, ← hv]
      exact maps_encode hrd ⟨hrd, hshort⟩ fun _ _ => rfl
    · rw [Emission.bytes_assemble_singleton, ← hv]
      exact maps_encode hrd hlow fun _ _ => congrArg some (congrArg _ (BitVec.zero_add _))
  · simp only [hzero, if_false, ne_eq, not_false_eq_true, and_true]
    rw [Emission.bytes_assemble_append]
    by_cases hnone : low = 0
    · rw [if_pos hnone, ← hexact (.inl hnone), hnone, Int.add_zero]
      exact (maps_upper hrd hzero hhigh).append (Processor.maps_nil _)
    · -- The sum is cut to 32 bits, which takes it back to the number if the upper part has wrapped around.
      have hsum : word (BitVec.ofInt 64 (high * 0x1000) + BitVec.ofInt 64 low) = BitVec.ofInt 64 v := by
        rw [← BitVec.ofInt_add, word_ofInt, hword]
      have hadd : processor.Maps (assemble (if fits 6 low then [.cAddiw rd low] else [.addiw rd rd low])).bytes
          rd.number fun x => word (x + BitVec.ofInt 64 low) := by
        split
        · next hshort =>
          rw [Emission.bytes_assemble_singleton]
          exact maps_encode hrd ⟨hrd, hshort⟩ fun _ _ => rfl
        · rw [Emission.bytes_assemble_singleton]
          exact maps_encode hrd hlow fun _ _ => rfl
      rw [if_neg hnone, ← hsum]
      exact (maps_upper hrd hzero hhigh).append hadd

/-! ## Larger constants -/

lemma trailingZeros_spec {n : Nat} (h : n ≠ 0) : ∃ odd, odd % 2 = 1 ∧ n = odd * 2 ^ trailingZeros n := by
  fun_induction trailingZeros n with
  | case1 n hstop => exact ⟨n, by omega, by rw [pow_zero, mul_one]⟩
  | case2 n hgo ih =>
    obtain ⟨odd, hodd, hn⟩ := ih (by omega)
    refine ⟨odd, hodd, ?_⟩
    rw [pow_succ, ← mul_assoc, ← hn]
    omega

lemma shiftRight_trailingZeros {u : Int} (h : u ≠ 0) :
    let zeros := trailingZeros u.natAbs
    (u >>> zeros) * 2 ^ zeros = u ∧ (u >>> zeros) % 2 = 1 := by
  obtain ⟨odd, hodd, hu⟩ := trailingZeros_spec (Int.natAbs_ne_zero.mpr h)
  intro zeros
  change u.natAbs = odd * 2 ^ zeros at hu
  have hdvd : (2 ^ zeros : Int) ∣ u := by
    rw [← Int.natAbs_dvd_natAbs, hu, Int.natAbs_pow]
    exact Dvd.intro_left odd rfl
  have hmul : (u >>> zeros) * 2 ^ zeros = u := by
    rw [Int.shiftRight_eq_div_pow]
    exact_mod_cast Int.ediv_mul_cancel hdvd
  have habs : (u >>> zeros).natAbs = odd := by
    have hpow : 0 < 2 ^ zeros := Nat.two_pow_pos zeros
    rw [← hmul, Int.natAbs_mul, Int.natAbs_pow] at hu
    exact Nat.eq_of_mul_eq_mul_right hpow hu
  exact ⟨hmul, by omega⟩

/-- The bits that a part loses are those that its shift takes out of the word. -/
lemma ofInt_signed_mul {zeros : Nat} (h : zeros ≤ 52) (q : Int) :
    BitVec.ofInt 64 (signed (52 - zeros) q * 2 ^ (zeros + 12)) = BitVec.ofInt 64 (q * 2 ^ (zeros + 12)) := by
  have hpow : (2 ^ (52 - zeros) * 2 ^ (zeros + 12) : Int) = 2 ^ 64 := by
    rw [← pow_add]
    congr 1
    omega
  obtain ⟨t, ht⟩ : ((2 ^ (52 - zeros) : Nat) : Int) ∣ signed (52 - zeros) q - q := by
    rw [signed, Nat.one_shiftLeft]
    exact Int.dvd_bmod_sub_self
  apply ofInt_eq_of_dvd
  refine ⟨t, ?_⟩
  push_cast at ht
  rw [← sub_mul, ht, ← hpow]
  ring

/-- What is left of a large constant: twelve bits less, or 32 at most, and in its place again after the shift. -/
structure Split (v : Int) (bits : Nat) (part : Int × Nat) : Prop where
  shift_pos : 1 ≤ part.2
  shift_le : part.2 ≤ 63
  fits_part : fits 32 part.1 ∨ fits (bits - 12) part.1
  value : BitVec.ofInt 64 part.1 <<< part.2 = BitVec.ofInt 64 (upperPart v * 0x1000)

lemma natAbs_upperPart_le {bits : Nat} (hbits : 12 < bits) (h : fits bits v) :
    (upperPart v).natAbs ≤ 2 ^ (bits - 13) := by
  have hpow : 2 ^ (bits - 1) = 0x1000 * 2 ^ (bits - 13) := by
    rw [show bits - 1 = 12 + (bits - 13) by omega, pow_add]
    rfl
  rw [fits_iff, hpow] at h
  unfold upperPart
  generalize 2 ^ (bits - 13) = p at h ⊢
  omega

lemma split_splitConstant {bits : Nat} (hlarge : ¬ fits 32 v) (hbits : 32 < bits) (h : fits bits v) (h64 : fits 64 v) :
    Split v bits (splitConstant v) := by
  have hupper : upperPart v ≠ 0 := by
    rw [fits_iff] at hlarge
    unfold upperPart
    omega
  have hle := natAbs_upperPart_le (by omega) h
  have hle64 := natAbs_upperPart_le (by decide) h64
  obtain ⟨hmul, hodd⟩ := shiftRight_trailingZeros hupper
  unfold splitConstant
  dsimp only
  generalize trailingZeros (upperPart v).natAbs = zeros at *
  generalize upperPart v >>> zeros = q at *
  have habs : q.natAbs * 2 ^ zeros = (upperPart v).natAbs := by rw [← hmul, Int.natAbs_mul, Int.natAbs_pow]; rfl
  have hzeros : zeros ≤ 51 := by
    have hpow : 2 ^ zeros ≤ 2 ^ 51 :=
      (Nat.le_mul_of_pos_left _ (by omega)).trans (habs.trans_le hle64)
    exact (Nat.pow_le_pow_iff_right (by decide)).mp hpow
  -- An odd number is not the power of two that bounds it.
  have hfits : fits (bits - 12) (signed (52 - zeros) q) := by
    have hle' : q.natAbs ≤ 2 ^ (bits - 13) :=
      (Nat.le_mul_of_pos_right _ (Nat.two_pow_pos zeros)).trans (habs.trans_le hle)
    have hcut := natAbs_bmod_le q (1 <<< (52 - zeros))
    have heven : 2 ^ (bits - 13) = 2 * 2 ^ (bits - 14) := by
      rw [← pow_succ']
      congr 1
      omega
    rw [fits_iff, signed, show bits - 12 - 1 = bits - 13 by omega]
    omega
  have hvalue :
      BitVec.ofInt 64 (signed (52 - zeros) q * 2 ^ (zeros + 12)) = BitVec.ofInt 64 (upperPart v * 0x1000) := by
    rw [ofInt_signed_mul (by omega), ← hmul, pow_add]
    congr 1
    ring
  split
  · next hkeep =>
    refine ⟨hkeep.1, by omega, .inl hkeep.2.2, ?_⟩
    rw [ofInt_shiftLeft, ← hvalue, pow_add]
    congr 1
    ring
  · refine ⟨by omega, by omega, .inr hfits, ?_⟩
    rw [ofInt_shiftLeft, hvalue]

lemma Split.fits_sixtyFour {part : Int × Nat} (h : Split v 64 part) : fits 64 part.1 := by
  rcases h.fits_part with h | h
  · exact fits_widen (by decide) h
  · exact fits_widen (by decide) h

lemma maps_constant (hrd : rd ≠ .zero) (h : fits 64 v) :
    processor.Maps (assemble (constant rd v)).bytes rd.number fun _ => BitVec.ofInt 64 v := by
  fun_induction constant rd v with
  | case1 v hshort => exact maps_shortConstant hrd hshort
  | case2 v hlarge part ih =>
    have hsplit : Split v 64 part := split_splitConstant hlarge (by decide) h h
    have hshift : processor.Maps (Instr.cSlli rd part.2).encode rd.number fun x => x <<< part.2 :=
      maps_encode hrd ⟨hrd, hsplit.shift_pos, Nat.lt_succ_of_le hsplit.shift_le⟩ fun _ _ => rfl
    have hsum : BitVec.ofInt 64 part.1 <<< part.2 + BitVec.ofInt 64 (signed 12 v) = BitVec.ofInt 64 v := by
      rw [hsplit.value, ← BitVec.ofInt_add, upperPart_mul_add]
    rw [Emission.bytes_assemble_append, Emission.bytes_assemble_cons, ← hsum]
    exact (ih hsplit.fits_sixtyFour).append (hshift.append (maps_addLow hrd (fits_signed (by decide) v)))

/-! ## The listing -/

lemma loadsPart_of_mem_shortConstant (h : fits 32 v) : ∀ i ∈ shortConstant rd v, i.LoadsPart rd := by
  have hlow : fits 12 (signed 12 v) := fits_signed (by decide) v
  have hhigh := (signed_upperPart h).1
  unfold shortConstant
  dsimp only
  intro i hi
  rcases List.mem_append.mp hi with hi | hi
  · split_ifs at hi with hzero hshort
    · cases hi
    · obtain rfl := List.mem_singleton.mp hi
      exact ⟨rfl, hzero, hshort⟩
    · obtain rfl := List.mem_singleton.mp hi
      exact ⟨rfl, hhigh⟩
  · split_ifs at hi with hnone hshort hzero hzero
    · cases hi
    · obtain rfl := List.mem_singleton.mp hi
      exact ⟨rfl, hshort⟩
    · obtain rfl := List.mem_singleton.mp hi
      exact ⟨rfl, hshort⟩
    · obtain rfl := List.mem_singleton.mp hi
      exact ⟨rfl, .inr rfl, hlow⟩
    · obtain rfl := List.mem_singleton.mp hi
      exact ⟨rfl, rfl, hlow⟩

lemma loadsPart_of_mem_addLow (h : fits 12 v) : ∀ i ∈ addLow rd v, i.LoadsPart rd := by
  unfold addLow
  intro i hi
  split_ifs at hi with hzero hshort
  · cases hi
  · obtain rfl := List.mem_singleton.mp hi
    exact ⟨rfl, hzero, hshort⟩
  · obtain rfl := List.mem_singleton.mp hi
    exact ⟨rfl, .inl rfl, h⟩

lemma loadsPart_of_mem_constant (h : fits 64 v) : ∀ i ∈ constant rd v, i.LoadsPart rd := by
  fun_induction constant rd v with
  | case1 v hshort => exact loadsPart_of_mem_shortConstant hshort
  | case2 v hlarge part ih =>
    have hsplit : Split v 64 part := split_splitConstant hlarge (by decide) h h
    rw [List.forall_mem_append, List.forall_mem_cons]
    exact ⟨ih hsplit.fits_sixtyFour, ⟨rfl, hsplit.shift_pos, hsplit.shift_le⟩,
      loadsPart_of_mem_addLow (fits_signed (by decide) v)⟩

/-- Every step is two instructions and is twelve bits, and 32 bits are two instructions. -/
lemma length_constant_le_of_fits (h : fits 64 v) :
    ∀ steps, fits (32 + 12 * steps) v → (constant rd v).length ≤ 2 + 2 * steps := by
  fun_induction constant rd v with
  | case1 v hshort =>
    intro steps _
    unfold shortConstant
    dsimp only
    split_ifs <;> simp <;> omega
  | case2 v hlarge part ih =>
    intro steps hsteps
    obtain _ | steps := steps
    · exact absurd hsteps hlarge
    have hlow : (addLow rd (signed 12 v)).length ≤ 1 := by
      unfold addLow
      split_ifs <;> simp
    have hsplit : Split v 64 part := split_splitConstant hlarge (by decide) h h
    have hpart : fits (32 + 12 * steps) part.1 := by
      rcases (split_splitConstant hlarge (by omega) hsteps h).fits_part with h | h
      · exact fits_widen (by omega) h
      · exact fits_widen (by omega) h
    have := ih hsplit.fits_sixtyFour steps hpart
    rw [List.length_append, List.length_cons]
    omega

lemma fits_toInt (value : Int64) : fits 64 value.toInt := by
  have := value.le_toInt
  have := value.toInt_lt
  rw [fits_iff]
  omega

/-- The code loads a constant into a register. -/
structure LoadsConstant (rd : Reg) (value : Int64) (code : Emission) : Prop where
  fault : code.fault = none
  /-- It is a listing of a few legal instructions on the register. -/
  listing : ∃ instrs, processor.Lists instrs code.bytes ∧ instrs.length ≤ 8 ∧ ∀ i ∈ instrs, i.LoadsPart rd
  /-- From every state it leaves the constant in the register, and all else as it was. -/
  effect : ∀ m, ∃ m', processor.Passes code.bytes m m' ∧
    m'.regs = Function.update m.regs rd.number value.toBitVec ∧ m'.memory = m.memory

/-- **Every constant is loaded**, into every register but zero. -/
theorem loadsConstant_emit (hrd : rd ≠ .zero) (value : Int64) :
    LoadsConstant rd value (backend.emit (.load rd value)) := by
  have hfits := fits_toInt value
  have hparts : ∀ i ∈ constant rd value.toInt, i.LoadsPart rd := loadsPart_of_mem_constant hfits
  refine ⟨rfl, ⟨constant rd value.toInt, ?_, ?_, hparts⟩, ?_⟩
  · exact Processor.lists_flatMap fun i hi => encodes ((hparts i hi).regular hrd)
  · exact length_constant_le_of_fits hfits 3 (fits_widen (by decide) hfits)
  · have hvalue : BitVec.ofInt 64 value.toInt = value.toBitVec := BitVec.ofInt_toInt
    rw [← hvalue]
    exact maps_constant hrd hfits

theorem loadsConstant_emit_a0 :
    Reg.a0 ≠ .zero ∧ LoadsConstant .a0 0x123456789abcdef (backend.emit (.load .a0 0x123456789abcdef)) :=
  ⟨by decide, loadsConstant_emit (by decide) _⟩

end TapeElf.Riscv64
