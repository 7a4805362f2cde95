/-!
# Byte strings and fixed-width numbers

* `Bytes`: a byte string; sources, paths, machine code and images are all of this type.
* `littleBytes w n`, `bigBytes w n`: the low `w` bytes of `n`, least or most significant first.
* `twos k i`: the two's complement of `i` on `k` bits, as a natural number.
* `signed k i`: the signed number that the low `k` bits of `i` spell; `fits k i`: it is `i` itself.
-/

namespace TapeElf

abbrev Bytes := List UInt8

def Bytes.ofString (s : String) : Bytes := s.toUTF8.toList

/-! ## Numbers as bytes -/

/-- The low `width` bytes of `n`, least significant first. Higher bytes are dropped. -/
def littleBytes : Nat → Nat → Bytes
  | 0, _ => []
  | width + 1, n => UInt8.ofNat n :: littleBytes width (n / 256)

/-- The low `width` bytes of `n`, most significant first. -/
def bigBytes (width n : Nat) : Bytes := (littleBytes width n).reverse

@[simp] theorem length_littleBytes (width n : Nat) : (littleBytes width n).length = width := by
  induction width generalizing n with
  | zero => rfl
  | succ width ih => simp [littleBytes, ih]

@[simp] theorem length_bigBytes (width n : Nat) : (bigBytes width n).length = width := by
  simp [bigBytes]

/-- Which end of a number comes first. -/
inductive Endian where
  | little | big
deriving DecidableEq, Repr

def Endian.bytes : Endian → Nat → Nat → Bytes
  | .little => littleBytes
  | .big => bigBytes

@[simp] theorem Endian.length_bytes (e : Endian) (width n : Nat) : (e.bytes width n).length = width := by
  cases e <;> simp [Endian.bytes]

/-! ## Signed numbers -/

/-- The two's complement of `i` on `bits` bits. Bits that do not fit are dropped. -/
def twos (bits : Nat) (i : Int) : Nat := (i % (1 <<< bits : Nat)).toNat

/-- The signed number spelled by the low `bits` bits of `i`. -/
def signed (bits : Nat) (i : Int) : Int := i.bmod (1 <<< bits)

/-- Whether `i` is a two's-complement number of `bits` bits. -/
def fits (bits : Nat) (i : Int) : Bool := -(1 <<< (bits - 1) : Nat) ≤ i && i < (1 <<< (bits - 1) : Nat)

theorem twos_lt (bits : Nat) (i : Int) : twos bits i < 1 <<< bits := by
  have h : 0 < 1 <<< bits := by
    rw [Nat.one_shiftLeft]
    exact Nat.two_pow_pos bits
  have := Int.emod_nonneg i (Int.ne_of_gt (Int.natCast_pos.mpr h))
  have := Int.emod_lt_of_pos i (Int.natCast_pos.mpr h)
  unfold twos
  omega

end TapeElf
