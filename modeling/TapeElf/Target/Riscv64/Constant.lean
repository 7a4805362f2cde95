import TapeElf.Target.Riscv64.Instr

/-!
# RISC-V constants

A constant of 32 bits is loaded in two parts: twenty upper bits, then twelve lower ones that are added as a
signed number, so the upper part is rounded to the nearest multiple of 4096. A larger constant is loaded
by loading its rounded upper part, without its trailing zeros, shifting it into place and adding the low
twelve bits. Compressed forms are used wherever an immediate operand fits one.
-/

namespace TapeElf.Riscv64

/-- The number of times 2 divides a number other than zero. -/
def trailingZeros (n : Nat) : Nat :=
  if n = 0 ∨ n % 2 = 1 then 0 else trailingZeros (n / 2) + 1
termination_by n
decreasing_by omega

/-- What is left of a constant, in units of 4096, when its low twelve bits are taken off as a signed
number. -/
def upperPart (v : Int) : Int := (v + 0x800) / 0x1000

def shortConstant (rd : Reg) (v : Int) : List Instr :=
  let low := signed 12 v
  let high := signed 20 (upperPart v)
  (if high = 0 then [] else if fits 6 high then [.cLui rd high] else [.lui rd high]) ++
  (if low = 0 ∧ high ≠ 0 then []
    else if fits 6 low then (if high = 0 then [.cLi rd low] else [.cAddiw rd low])
    else if high = 0 then [.addi rd .zero low] else [.addiw rd rd low])

def addLow (rd : Reg) (low : Int) : List Instr :=
  if low = 0 then [] else if fits 6 low then [.cAddi rd low] else [.addi rd rd low]

/-- The part of a large constant that is loaded first, and how far it is then shifted: the upper part
without its trailing zeros, or twelve of them kept if a single instruction can then load it. -/
def splitConstant (v : Int) : Int × Nat :=
  let upper := upperPart v
  let zeros := trailingZeros upper.natAbs
  let high := signed (52 - zeros) (upper >>> zeros)
  if 0 < zeros ∧ ¬ fits 12 high ∧ fits 32 (high * 0x1000) then (high * 0x1000, zeros)
  else (high, zeros + 12)

/-! ## The upper part is smaller -/

theorem natAbs_bmod_le (x : Int) (m : Nat) : (x.bmod m).natAbs ≤ x.natAbs := by
  rcases Nat.eq_zero_or_pos m with rfl | hm
  · simp [Int.bmod_def]
  have hm : (0 : Int) < m := by omega
  have split := Int.mul_ediv_add_emod x m
  have low := Int.emod_nonneg x (Int.ne_of_gt hm)
  have high := Int.emod_lt_of_pos x hm
  have sign : x / m ≤ -1 ∨ x / m = 0 ∨ 1 ≤ x / m := by omega
  have product : m * (x / m) ≤ -(m : Int) ∨ m * (x / m) = 0 ∨ (m : Int) ≤ m * (x / m) := by
    rcases sign with h | h | h
    · have := Int.mul_le_mul_of_nonneg_left h (Int.le_of_lt hm)
      exact .inl (by omega)
    · exact .inr (.inl (by rw [h, Int.mul_zero]))
    · have := Int.mul_le_mul_of_nonneg_left h (Int.le_of_lt hm)
      exact .inr (.inr (by omega))
  rw [Int.bmod_def]
  generalize m * (x / m) = p at split product
  split <;> omega

theorem natAbs_upperPart_lt {v : Int} (h : ¬ fits 32 v) : (upperPart v).natAbs < v.natAbs := by
  unfold fits at h
  unfold upperPart
  simp at h
  omega

/-- A constant is done once it has 32 bits, and is otherwise measured by its size. -/
def constantSize (v : Int) : Nat := if fits 32 v then 0 else v.natAbs

theorem constantSize_splitConstant_lt {v : Int} (h : ¬ fits 32 v) :
    constantSize (splitConstant v).1 < constantSize v := by
  have upper := natAbs_upperPart_lt h
  unfold splitConstant
  simp only
  split
  · next keep =>
    simp only [constantSize, keep.2.2, h, if_true, Bool.false_eq_true, if_false]
    omega
  · have high := natAbs_bmod_le (upperPart v >>> trailingZeros (upperPart v).natAbs)
      (1 <<< (52 - trailingZeros (upperPart v).natAbs))
    have quotient := Int.natAbs_ediv_le_natAbs (upperPart v) (2 ^ trailingZeros (upperPart v).natAbs : Nat)
    rw [← Int.shiftRight_eq_div_pow] at quotient
    simp only [constantSize, h, Bool.false_eq_true, if_false]
    unfold signed
    split <;> omega

/-! ## Loading a constant -/

def constant (rd : Reg) (v : Int) : List Instr :=
  if fits 32 v then shortConstant rd v
  else
    let part := splitConstant v
    constant rd part.1 ++ .cSlli rd part.2 :: addLow rd (signed 12 v)
termination_by constantSize v
decreasing_by exact constantSize_splitConstant_lt ‹_›

end TapeElf.Riscv64
