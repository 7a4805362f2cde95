import TapeElf.Proofs.Elf.Image

/-!
# The end of the address space

The code segment is the whole file, so its end follows from the load address and the length of the code. Before a file
is written, its end is compared with the largest address.

In the 32-bit class this keeps every file inside the address space. In the 64-bit class the end is computed in 64 bits
and stays at the largest number if it exceeds them, so the comparison never fails: a file that is loaded close to the
end of the address space may run past it (`Overruns`). Apart from these files, none does (`staysInside_iff`).

The other way round, the end is the address after the last byte, and in the 32-bit class a file that fills the address
space to its last byte is refused, though it stays inside. The comparison is right about all others (`misjudged_iff`).
-/

namespace TapeElf.Elf

/-- The address after the last byte of some code. -/
def Layout.codeEnd (l : Layout) (code : Bytes) : Nat := l.loadAddress + 0x100 + code.length

namespace Executable

/-- No file with this code gets out of the address space. -/
structure StaysInside (x : Executable) (code : Bytes) : Prop where
  /-- What is written ends inside of it. -/
  written : ∀ l sink sink' n, x.layout = .ok l → x.write sink code = (sink', .ok n) →
    l.codeEnd code ≤ 2 ^ x.elfClass.addressBits
  /-- What would end outside of it is refused, and nothing is written. -/
  refused : ∀ l sink, x.layout = .ok l → 2 ^ x.elfClass.addressBits < l.codeEnd code →
    x.write sink code = (sink, .error Cause.imageTooLarge.diagnostic)

/-- A file of the 64-bit class ends outside of the address space, though its size is a number of 64 bits. -/
def Overruns (x : Executable) (code : Bytes) : Prop :=
  x.elfClass = .elf64 ∧ 0x100 + code.length < 2 ^ 64 ∧ ∃ l, x.layout = .ok l ∧ 2 ^ 64 < l.codeEnd code

variable {x : Executable} {l : Layout} {code : Bytes}

/-- What the comparison with the largest address comes to. -/
lemma fitsAddressSpace_iff {size : Nat} : x.fitsAddressSpace l size = true ↔
    match x.elfClass with
    | .elf32 => l.loadAddress + size < 2 ^ 32
    | .elf64 => size < 2 ^ 64 := by
  have hsize : UInt64.size = 2 ^ 64 := rfl
  have hmax32 : Class.elf32.maxAddress = 2 ^ 32 - 1 := rfl
  have hmax64 : Class.elf64.maxAddress = 2 ^ 64 - 1 := rfl
  cases hc : x.elfClass with
  | elf32 =>
    simp only [fitsAddressSpace, Bool.and_eq_true, decide_eq_true_eq, hc, hsize, hmax32]
    omega
  | elf64 =>
    simp only [fitsAddressSpace, Bool.and_eq_true, decide_eq_true_eq, hc, hsize, hmax64]
    omega

section

variable (hl : x.layout = .ok l)
include hl

lemma image_of_fits (h : x.fitsAddressSpace l (0x100 + code.length) = true) :
    x.image code = .ok (x.imageAt l code) := by
  refine image_eq_ok_iff.mpr ⟨l, hl, ?_, rfl⟩
  rw [(Layout.sound_of hl).codeOffset_eq]
  exact h

lemma image_of_not_fits (h : ¬ x.fitsAddressSpace l (0x100 + code.length) = true) :
    x.image code = .error Cause.imageTooLarge.diagnostic := by
  have hoffset := (Layout.sound_of hl).codeOffset_eq
  simp only [image, hl, hoffset, h, Bool.false_eq_true, if_false]

lemma write_of_not_fits (h : ¬ x.fitsAddressSpace l (0x100 + code.length) = true) (sink : Sink) :
    x.write sink code = (sink, .error Cause.imageTooLarge.diagnostic) := by
  rw [write_eq_image, image_of_not_fits hl h]

lemma fits_of_write {sink sink' : Sink} {n : Nat} (h : x.write sink code = (sink', .ok n)) :
    x.fitsAddressSpace l (0x100 + code.length) = true := by
  by_contra hfits
  rw [write_of_not_fits hl hfits sink] at h
  cases h

end

lemma staysInside_of_not_overruns (h : ¬ x.Overruns code) : x.StaysInside code where
  written l sink sink' n hl hwrite := by
    have hfits := fitsAddressSpace_iff.mp (fits_of_write hl hwrite)
    cases hc : x.elfClass with
    | elf32 =>
      simp only [hc] at hfits
      simp only [Layout.codeEnd, Class.addressBits]
      omega
    | elf64 =>
      simp only [hc] at hfits
      by_contra hend
      exact h ⟨hc, hfits, l, hl, Nat.lt_of_not_le hend⟩
  refused l sink hl hend := by
    apply write_of_not_fits hl
    intro hfits
    rw [fitsAddressSpace_iff] at hfits
    cases hc : x.elfClass with
    | elf32 =>
      simp only [hc] at hfits
      simp only [hc, Layout.codeEnd, Class.addressBits] at hend
      omega
    | elf64 =>
      simp only [hc] at hfits
      rw [hc] at hend
      exact h ⟨hc, hfits, l, hl, hend⟩

lemma Overruns.exists_image (h : x.Overruns code) :
    ∃ l, x.layout = .ok l ∧ 2 ^ 64 < l.codeEnd code ∧ x.image code = .ok (x.imageAt l code) := by
  obtain ⟨hc, hsize, l, hl, hend⟩ := h
  have hfits : x.fitsAddressSpace l (0x100 + code.length) = true := by
    rw [fitsAddressSpace_iff]
    simp only [hc]
    exact hsize
  exact ⟨l, hl, hend, image_of_fits hl hfits⟩

lemma Overruns.not_staysInside (h : x.Overruns code) : ¬ x.StaysInside code := by
  intro hinside
  obtain ⟨l, hl, hend, himage⟩ := h.exists_image
  -- a sink without a limit would have received it
  have hrefused := hinside.refused l {} hl (by rw [h.1]; exact hend)
  rw [write_eq_image, himage] at hrefused
  cases hrefused

/-- **Files stay inside the address space, except for those that overrun it.** -/
theorem staysInside_iff (x : Executable) (code : Bytes) : x.StaysInside code ↔ ¬ x.Overruns code :=
  ⟨fun hinside hover => hover.not_staysInside hinside, staysInside_of_not_overruns⟩

/-- Behind a tape of 4503599627370463 blocks there is room for 65280 bytes of code, and one more is written. -/
theorem not_staysInside_one_byte_too_many :
    let x : Executable := { elfClass := .elf64, endian := .little, machine := 62, tapeBlocks := 4503599627370463 }
    ¬ x.StaysInside (List.replicate 65281 0x90) := by
  intro x
  apply Overruns.not_staysInside
  have hlayout : x.layout = .ok
      { tapeSize := 18446744073709416448, loadAddress := 18446744073709486080, codeOffset := 0x100 } := by
    decide +kernel
  refine ⟨rfl, ?_, _, hlayout, ?_⟩
  · rw [List.length_replicate]
    decide
  · rw [Layout.codeEnd, List.length_replicate]
    decide

/-! ## The comparison -/

/-- The file is misjudged: it overruns the address space and is not refused, or it just fills that of the 32-bit class
and is refused. -/
def Misjudged (x : Executable) (code : Bytes) : Prop :=
  x.Overruns code ∨ x.elfClass = .elf32 ∧ ∃ l, x.layout = .ok l ∧ l.codeEnd code = 2 ^ 32

lemma Misjudged.exists_layout (h : x.Misjudged code) : ∃ l, x.layout = .ok l := by
  rcases h with ⟨-, -, l, hl, -⟩ | ⟨-, l, hl, -⟩ <;> exact ⟨l, hl⟩

/-- **Of all other files the comparison tells whether they stay inside the address space.** -/
theorem misjudged_iff (hl : x.layout = .ok l) : x.Misjudged code ↔
    ¬ (x.fitsAddressSpace l (0x100 + code.length) = true ↔ l.codeEnd code ≤ 2 ^ x.elfClass.addressBits) := by
  have habove := (Layout.sound_of hl).above
  have hlayout (l' : Layout) : x.layout = .ok l' ↔ l = l' := by
    rw [hl]
    exact ⟨Except.ok.inj, congrArg _⟩
  rw [fitsAddressSpace_iff]
  unfold Misjudged Overruns
  simp only [hlayout, exists_eq_left', Layout.codeEnd]
  cases hc : x.elfClass with
  | elf32 =>
    simp only [Class.addressBits, reduceCtorEq, false_and, false_or, true_and]
    omega
  | elf64 =>
    simp only [Class.addressBits, reduceCtorEq, false_and, or_false, true_and]
    omega

/-- Behind a tape of 1048543 blocks, 65280 bytes of code would just fit, and are refused. -/
example : Misjudged { elfClass := .elf32, endian := .little, machine := 3, tapeBlocks := 1048543 }
    (List.replicate 65280 0x90) := by
  have hlayout : layout { elfClass := .elf32, endian := .little, machine := 3, tapeBlocks := 1048543 } = .ok
      { tapeSize := 4294832128, loadAddress := 4294901760, codeOffset := 0x100 } := by
    decide +kernel
  refine .inr ⟨rfl, _, hlayout, ?_⟩
  rw [Layout.codeEnd, List.length_replicate]
  decide

end Executable

end TapeElf.Elf
