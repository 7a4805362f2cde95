import Mathlib
import TapeElf.Bytes

/-!
# Numbers of a fixed width

Signed numbers and their two's complement, and the machine words that stand for them: `BitVec.ofInt` takes sums,
products and shifts to those of words, and two numbers to the same word iff they differ by a multiple of `2 ^ bits`.

A word can be put together from its halfwords (`half`, `insertHalf`). If it starts out as copies of a bit, halfwords that
are nothing else can be skipped (`Patched`).
-/

namespace TapeElf

/-! ## Signed numbers -/

lemma bmod_twos (bits : Nat) (i : Int) : (twos bits i : Int).bmod (2 ^ bits) = i.bmod (2 ^ bits) := by
  have h : ((2 ^ bits : Nat) : Int) ≠ 0 := Int.natCast_ne_zero.mpr (Nat.two_pow_pos bits).ne'
  rw [twos, Nat.one_shiftLeft, Int.toNat_of_nonneg (Int.emod_nonneg i h), Int.emod_bmod]

lemma fits_iff {bits : Nat} {i : Int} :
    fits bits i = true ↔ -(2 ^ (bits - 1) : Nat) ≤ i ∧ i < (2 ^ (bits - 1) : Nat) := by
  rw [fits, Bool.and_eq_true, decide_eq_true_eq, decide_eq_true_eq, Nat.one_shiftLeft]

lemma fits_widen {a b : Nat} {i : Int} (h : a ≤ b) (hi : fits a i = true) : fits b i = true := by
  have hpow : 2 ^ (a - 1) ≤ 2 ^ (b - 1) := Nat.pow_le_pow_right (by decide) (by omega)
  rw [fits_iff] at *
  omega

lemma signed_twos (bits : Nat) (i : Int) : signed bits (twos bits i) = signed bits i := by
  rw [signed, signed, Nat.one_shiftLeft, bmod_twos]

lemma signed_of_fits {bits : Nat} {i : Int} (hpos : 0 < bits) (h : fits bits i = true) : signed bits i = i := by
  rw [fits_iff] at h
  have hpow : 2 ^ bits = 2 * 2 ^ (bits - 1) := by
    rw [← Nat.pow_succ', Nat.succ_eq_add_one, Nat.sub_add_cancel hpos]
  rw [signed, Nat.one_shiftLeft]
  exact Int.bmod_eq_of_le (by omega) (by omega)

lemma fits_signed {bits : Nat} (hpos : 0 < bits) (i : Int) : fits bits (signed bits i) = true := by
  have hpow : 2 ^ bits = 2 * 2 ^ (bits - 1) := by
    rw [← Nat.pow_succ', Nat.succ_eq_add_one, Nat.sub_add_cancel hpos]
  have hle := Int.le_bmod (x := i) (Nat.two_pow_pos bits)
  have hlt := Int.bmod_lt (x := i) (Nat.two_pow_pos bits)
  rw [fits_iff, signed, Nat.one_shiftLeft]
  omega

/-- The two's complement of a number that fits spells it. -/
lemma signed_twos_of_fits {bits : Nat} {i : Int} (hpos : 0 < bits) (h : fits bits i = true) :
    signed bits (twos bits i) = i := by
  rw [signed_twos, signed_of_fits hpos h]

lemma twos_even {bits : Nat} (hpos : 0 < bits) {i : Int} (h : i % 2 = 0) : twos bits i % 2 = 0 := by
  have hdvd : (2 : Int) ∣ (2 ^ bits : Nat) := by
    exact_mod_cast dvd_pow_self 2 hpos.ne'
  have hmod : i % (2 ^ bits : Nat) % 2 = 0 := by rw [Int.emod_emod_of_dvd i hdvd, h]
  rw [twos, Nat.one_shiftLeft]
  omega

@[simp] lemma int32_ofNat_twos (i : Int32) : Int32.ofNat (twos 32 i.toInt) = i := by
  have := i.le_toInt
  have := i.toInt_lt
  rw [← Int32.toInt_inj, Int32.toInt_ofNat', Int32.size]
  exact (bmod_twos 32 _).trans (Int.bmod_eq_of_le (by omega) (by omega))

@[simp] lemma int16_ofNat_twos (i : Int16) : Int16.ofNat (twos 16 i.toInt) = i := by
  have := i.le_toInt
  have := i.toInt_lt
  rw [← Int16.toInt_inj, Int16.toInt_ofNat', Int16.size]
  exact (bmod_twos 16 _).trans (Int.bmod_eq_of_le (by omega) (by omega))

@[simp] lemma int8_ofNat_twos (i : Int8) : Int8.ofNat (twos 8 i.toInt) = i := by
  have := i.le_toInt
  have := i.toInt_lt
  rw [← Int8.toInt_inj, Int8.toInt_ofNat', Int8.size]
  exact (bmod_twos 8 _).trans (Int.bmod_eq_of_le (by omega) (by omega))

/-! ## Words -/

lemma ofInt_eq_of_dvd {bits : Nat} {x y : Int} (h : (2 ^ bits : Int) ∣ x - y) :
    BitVec.ofInt bits x = BitVec.ofInt bits y := by
  have hmod : x % (2 ^ bits : Nat) = y % (2 ^ bits : Nat) := by
    rw [Int.emod_eq_emod_iff_emod_sub_eq_zero, ← Int.dvd_iff_emod_eq_zero]
    exact_mod_cast h
  apply BitVec.eq_of_toNat_eq
  rw [BitVec.toNat_ofInt, BitVec.toNat_ofInt, hmod]

lemma ofInt_shiftLeft (bits : Nat) (x : Int) (n : Nat) : BitVec.ofInt bits x <<< n = BitVec.ofInt bits (x * 2 ^ n) := by
  have htwo : BitVec.twoPow bits n = BitVec.ofInt bits (2 ^ n) := by
    apply BitVec.eq_of_toNat_eq
    rw [BitVec.toNat_ofInt, BitVec.toNat_twoPow]
    norm_cast
  rw [BitVec.shiftLeft_eq_mul_twoPow, BitVec.ofInt_mul, htwo]

/-- Cutting a word off keeps what its low bits stand for. -/
lemma setWidth_ofInt {v w : Nat} (h : w ≤ v) (x : Int) : (BitVec.ofInt v x).setWidth w = BitVec.ofInt w x := by
  have hdvd : (2 ^ w : Int) ∣ 2 ^ v := pow_dvd_pow 2 h
  apply BitVec.eq_of_toNat_eq
  rw [BitVec.toNat_setWidth, BitVec.toNat_ofInt, BitVec.toNat_ofInt]
  zify
  rw [Int.toNat_of_nonneg (Int.emod_nonneg x (by positivity)), Int.toNat_of_nonneg (Int.emod_nonneg x (by positivity)),
    Int.emod_emod_of_dvd x hdvd]

lemma setWidth_signExtend {v w : Nat} (h : w ≤ v) (x : BitVec w) : (x.signExtend v).setWidth w = x := by
  rw [BitVec.signExtend, setWidth_ofInt h, BitVec.ofInt_toInt]

lemma ofInt_toInt64 (n : UInt64) : BitVec.ofInt 64 n.toInt64.toInt = BitVec.ofNat 64 n.toNat := by
  show BitVec.ofInt 64 n.toBitVec.toInt = BitVec.ofNat 64 n.toBitVec.toNat
  rw [BitVec.ofInt_toInt, BitVec.ofNat_toNat, BitVec.setWidth_eq]

lemma ofInt_neg_toInt64 (n : UInt64) : BitVec.ofInt 64 (-n.toInt64).toInt = -BitVec.ofNat 64 n.toNat := by
  show BitVec.ofInt 64 (-n.toBitVec).toInt = -BitVec.ofNat 64 n.toBitVec.toNat
  rw [BitVec.ofInt_toInt, BitVec.ofNat_toNat, BitVec.setWidth_eq]

lemma ofInt_toInt8 (n : UInt8) : (⟨BitVec.ofInt 8 n.toInt8.toInt⟩ : UInt8) = n :=
  congrArg UInt8.ofBitVec BitVec.ofInt_toInt

lemma ofNat_twos (bits : Nat) (i : Int) : BitVec.ofNat bits (twos bits i) = BitVec.ofInt bits i := by
  apply BitVec.eq_of_toInt_eq
  rw [← BitVec.ofInt_natCast, BitVec.toInt_ofInt, BitVec.toInt_ofInt, bmod_twos]

/-- A jump is counted from the end of the code, and not from the place of the branch. -/
lemma add_ofInt_add {bits : Nat} (own : BitVec bits) (size : Nat) (v : Int) :
    own + BitVec.ofInt bits (v + size) = own + BitVec.ofNat bits size + BitVec.ofInt bits v := by
  rw [BitVec.ofInt_add, BitVec.ofInt_natCast, BitVec.add_comm (BitVec.ofInt bits v), BitVec.add_assoc]

/-! ## Halfwords -/

/-- The halfword of a word at a bit position. -/
def half (x : BitVec 64) (shift : Nat) : UInt16 := ⟨x.extractLsb' shift 16⟩

lemma getLsbD_half (x : BitVec 64) (k : Nat) {j : Nat} (hj : j < 16) :
    (half x k).toBitVec.getLsbD j = x.getLsbD (k + j) := by
  rw [half, BitVec.getLsbD_extractLsb', decide_eq_true hj, Bool.true_and]

/-- A halfword of copies of a bit. -/
def fillHalf (sign : Bool) : UInt16 := if sign then 0xffff else 0

lemma getLsbD_fillHalf (sign : Bool) {j : Nat} (hj : j < 16) : (fillHalf sign).toBitVec.getLsbD j = sign := by
  cases sign with
  | false => simp [fillHalf]
  | true =>
    show (BitVec.allOnes 16).getLsbD j = true
    rw [BitVec.getLsbD_allOnes, decide_eq_true hj]

/-- A word with another halfword at a bit position. -/
def insertHalf (x : BitVec 64) (shift : Nat) (half : UInt16) : BitVec 64 :=
  (x &&& ~~~((BitVec.allOnes 16).setWidth 64 <<< shift)) ||| (half.toBitVec.setWidth 64 <<< shift)

lemma getLsbD_insertHalf (x : BitVec 64) (k : Nat) (half : UInt16) {i : Nat} (hi : i < 64) :
    (insertHalf x k half).getLsbD i = if k ≤ i ∧ i < k + 16 then half.toBitVec.getLsbD (i - k) else x.getLsbD i := by
  have hwide : i - k < 64 := by omega
  simp only [insertHalf, BitVec.getLsbD_or, BitVec.getLsbD_and, BitVec.getLsbD_not, BitVec.getLsbD_shiftLeft,
    BitVec.getLsbD_setWidth, BitVec.getLsbD_allOnes, hi]
  split_ifs with h
  · have hlow : ¬ i < k := by omega
    have hin : i - k < 16 := by omega
    simp [hlow, hin, hwide]
  · by_cases hlow : i < k
    · simp [hlow]
    · have hout : ¬ i - k < 16 := by omega
      simp [hlow, hout, hwide, BitVec.getLsbD_of_ge half.toBitVec (i - k) (by omega)]

lemma half_fill (sign : Bool) {k : Nat} (hk : k ≤ 48) : half (BitVec.fill 64 sign) k = fillHalf sign := by
  rw [← UInt16.toBitVec_inj]
  apply BitVec.eq_of_getLsbD_eq
  intro j hj
  rw [getLsbD_half _ _ hj, getLsbD_fillHalf sign hj, BitVec.getLsbD_fill, decide_eq_true (by omega), Bool.and_true]

lemma half_insertHalf_of_disjoint (x : BitVec 64) (imm : UInt16) {k k' : Nat} (hk : k + 16 ≤ k' ∨ k' + 16 ≤ k)
    (hk' : k' ≤ 48) : half (insertHalf x k imm) k' = half x k' := by
  rw [← UInt16.toBitVec_inj]
  apply BitVec.eq_of_getLsbD_eq
  intro j hj
  rw [getLsbD_half _ _ hj, getLsbD_half _ _ hj, getLsbD_insertHalf _ _ _ (by omega), if_neg (by omega)]

/-- A word that is already right up to some bit, and holds copies of the sign from there on. -/
def Patched (value : BitVec 64) (sign : Bool) (n : Nat) (x : BitVec 64) : Prop :=
  ∀ i < 64, x.getLsbD i = if i < n then value.getLsbD i else sign

namespace Patched

variable {value x : BitVec 64} {sign : Bool} {k : Nat}

/-- A halfword that is nothing but copies of the sign is right as it is. -/
lemma skip (h : Patched value sign k x) (hfill : half value k = fillHalf sign) : Patched value sign (k + 16) x := by
  intro i hi
  rw [h i hi]
  by_cases hin : k ≤ i ∧ i < k + 16
  · have hbit : value.getLsbD i = sign := by
      rw [← getLsbD_fillHalf sign (show i - k < 16 by omega), ← hfill, getLsbD_half _ _ (by omega),
        Nat.add_sub_cancel' hin.1]
    rw [if_neg (by omega), if_pos hin.2, hbit]
  · have hiff : i < k ↔ i < k + 16 := by omega
    simp only [hiff]

lemma insert (h : Patched value sign k x) : Patched value sign (k + 16) (insertHalf x k (half value k)) := by
  intro i hi
  rw [getLsbD_insertHalf _ _ _ hi]
  by_cases hin : k ≤ i ∧ i < k + 16
  · rw [if_pos hin, if_pos hin.2, getLsbD_half _ _ (by omega), Nat.add_sub_cancel' hin.1]
  · have hiff : i < k ↔ i < k + 16 := by omega
    rw [if_neg hin, h i hi]
    simp only [hiff]

lemma eq (h : Patched value sign 64 x) : x = value := by
  apply BitVec.eq_of_getLsbD_eq
  intro i hi
  exact (h i hi).trans (if_pos hi)

end Patched

end TapeElf
