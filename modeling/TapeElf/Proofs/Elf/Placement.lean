import TapeElf.Proofs.Elf.Image

/-!
# Where the parts of an executable are placed

* `HasRoom c blocks`: there are blocks, and past the tape more than 64 KiB of the address space are left;
* `Layout.of_eq`: a tape has a layout exactly if it has room, and which one;
* `Words`: the same computation in 64-bit words. Where a sum is checked, one that leaves the 64 bits refuses the tape;
  any other operation that leaves them stops with `overflow`, which never happens (`Words.addresses_eq`);
* `Placed c blocks l`: the addresses of a layout, each the least one that is fit.
-/

namespace TapeElf.Elf

/-- A tape of `blocks` blocks leaves more than 64 KiB of the address space. -/
def HasRoom (c : Class) (blocks : UInt64) : Prop :=
  1 ≤ blocks.toNat ∧ 0x10000 + 0x1000 * blocks.toNat < 2 ^ c.addressBits - 0x10000

instance (c : Class) (blocks : UInt64) : Decidable (HasRoom c blocks) := inferInstanceAs (Decidable (_ ∧ _))

/-- The least multiple of `k` above `n`. -/
def nextMultiple (k n : Nat) : Nat := n / k * k + k

lemma isLeast_nextMultiple {k : Nat} (hk : 0 < k) (n : Nat) : IsLeast {a | k ∣ a ∧ n < a} (nextMultiple k n) := by
  refine ⟨⟨?_, ?_⟩, ?_⟩
  · exact Nat.dvd_add (Nat.dvd_mul_left k (n / k)) (Nat.dvd_refl k)
  · exact Nat.lt_div_mul_add hk
  · rintro a ⟨⟨m, rfl⟩, hlt⟩
    have hm : n / k + 1 ≤ m := Nat.div_lt_of_lt_mul hlt
    calc nextMultiple k n = k * (n / k + 1) := by rw [nextMultiple, Nat.mul_add, Nat.mul_one, Nat.mul_comm]
      _ ≤ k * m := Nat.mul_le_mul_left k hm

/-- The layout past a tape of `size` bytes, whether or not it fits the address space. -/
def placement (c : Class) (size : Nat) : Layout where
  tapeSize := size
  loadAddress := nextMultiple 0x10000 (0x10000 + size)
  codeOffset := nextMultiple 0x100 c.headersSize

lemma placement_entry (c : Class) (size : Nat) :
    (placement c size).entry = nextMultiple 0x10000 (0x10000 + size) + 0x100 :=
  congrArg _ (Elf.codeOffset_eq c)

lemma Layout.of_tapeSize {c : Class} {blocks : UInt64} {size : Nat} (h : Elf.tapeSize blocks = .ok size) :
    Layout.of c blocks = if (placement c size).entry ≤ c.maxAddress then .ok (placement c size)
      else .error Cause.tapeTooLarge.diagnostic := by
  rw [Layout.of, h]
  rfl

lemma addressBits_cases (c : Class) : 2 ^ c.addressBits = 2 ^ 32 ∨ 2 ^ c.addressBits = 2 ^ 64 := by
  cases c
  · exact .inl rfl
  · exact .inr rfl

lemma blockLimit_eq : (1 : Nat) <<< 52 - 1 = 2 ^ 52 - 1 := rfl

/-- The entry is in the address space exactly if there is room past the tape. -/
lemma placement_entry_le_iff {c : Class} {blocks : UInt64} (h : blocks ≠ 0) :
    (placement c (blocks.toNat * 0x1000)).entry ≤ c.maxAddress ↔ HasRoom c blocks := by
  have hpos : blocks.toNat ≠ 0 := fun h0 => h (UInt64.toNat.inj h0)
  have hmax := maxAddress_add_one c
  rw [placement_entry, nextMultiple, HasRoom]
  rcases addressBits_cases c with hbits | hbits <;> rw [hbits] at hmax ⊢ <;> omega

/-- **A tape has a layout exactly if it has room**, and else it is refused. -/
lemma Layout.of_eq (c : Class) (blocks : UInt64) : Layout.of c blocks =
    if blocks = 0 then .error Cause.tapeSizeZero.diagnostic
    else if HasRoom c blocks then .ok (placement c (blocks.toNat * 0x1000))
    else .error Cause.tapeTooLarge.diagnostic := by
  by_cases h0 : blocks = 0
  · rw [if_pos h0, Layout.of, Elf.tapeSize, if_pos h0]
  rw [if_neg h0]
  by_cases hlarge : blocks.toNat ≥ 1 <<< 52 - 1
  · have hroom : ¬ HasRoom c blocks := by
      rw [blockLimit_eq] at hlarge
      rw [HasRoom]
      rcases addressBits_cases c with hbits | hbits <;> rw [hbits] <;> omega
    rw [if_neg hroom, Layout.of, Elf.tapeSize, if_neg h0, if_pos hlarge]
  · have hsize : Elf.tapeSize blocks = .ok (blocks.toNat * 0x1000) := by
      rw [Elf.tapeSize, if_neg h0, if_neg hlarge]
      rfl
    rw [Layout.of_tapeSize hsize]
    exact if_congr (placement_entry_le_iff h0) rfl rfl

example : HasRoom .elf32 1048543 ∧ ¬ HasRoom .elf32 1048544 := by decide

/-! ## In 64-bit words -/

namespace Words

/-- Why a computation in words stops. -/
inductive Stop where
  | overflow
  | refused (d : Diagnostic)

/-- The word of an exact result, or `stop` if it takes more than 64 bits. -/
def fit (stop : Stop) (n : Nat) : Except Stop UInt64 :=
  if n < 2 ^ 64 then .ok (UInt64.ofNat n) else .error stop

/-- A sum that nothing checks. -/
def add (a b : UInt64) : Except Stop UInt64 := fit .overflow (a.toNat + b.toNat)

/-- A product that nothing checks. -/
def mul (a b : UInt64) : Except Stop UInt64 := fit .overflow (a.toNat * b.toNat)

/-- A sum that is checked: if it overflows, the tape is refused. -/
def addChecked (a b : UInt64) : Except Stop UInt64 :=
  fit (.refused Cause.tapeTooLarge.diagnostic) (a.toNat + b.toNat)

def tapeSize (blocks : UInt64) : Except Stop UInt64 :=
  if blocks = 0 then .error (.refused Cause.tapeSizeZero.diagnostic)
  else if (0xffffffffffffffff : UInt64) >>> 12 ≤ blocks then .error (.refused Cause.tapeTooLarge.diagnostic)
  else mul blocks 0x1000

def codeOffset (c : Class) : Except Stop UInt64 := do
  let segments ← mul (UInt64.ofNat segmentCount) (UInt64.ofNat c.segmentSize)
  let headers ← add (UInt64.ofNat c.headerSize) segments
  add (headers &&& ~~~0xff) 0x100

/-- A layout in words. -/
structure Addresses where
  tapeSize : UInt64
  loadAddress : UInt64
  codeOffset : UInt64

def Addresses.layout (w : Addresses) : Layout := ⟨w.tapeSize.toNat, w.loadAddress.toNat, w.codeOffset.toNat⟩

def Addresses.entry (w : Addresses) : Except Stop UInt64 := add w.loadAddress w.codeOffset

/-- The address of the code past a tape of `size` bytes. -/
def loadAddress (size : UInt64) : Except Stop UInt64 := do
  let tapeEnd ← addChecked 0x10000 size
  addChecked (tapeEnd &&& ~~~0xffff) 0x10000

/-- The addresses past a tape of `size` bytes. -/
def place (c : Class) (size : UInt64) : Except Stop Addresses := do
  let load ← loadAddress size
  let offset ← codeOffset c
  let entry ← addChecked load offset
  if UInt64.ofNat c.maxAddress < entry then .error (.refused Cause.tapeTooLarge.diagnostic)
  else .ok ⟨size, load, offset⟩

def addresses (c : Class) (blocks : UInt64) : Except Stop Addresses := do
  let size ← tapeSize blocks
  place c size

lemma fit_of_lt (stop : Stop) {n : Nat} (h : n < 2 ^ 64) : ∃ w : UInt64, fit stop n = .ok w ∧ w.toNat = n :=
  ⟨UInt64.ofNat n, if_pos h, UInt64.toNat_ofNat_of_lt' h⟩

lemma fit_of_le (stop : Stop) {n : Nat} (h : 2 ^ 64 ≤ n) : fit stop n = .error stop :=
  if_neg (Nat.not_lt.mpr h)

lemma addChecked_of_lt {a b : UInt64} (h : a.toNat + b.toNat < 2 ^ 64) :
    ∃ w : UInt64, addChecked a b = .ok w ∧ w.toNat = a.toNat + b.toNat := fit_of_lt _ h

lemma addChecked_of_le {a b : UInt64} (h : 2 ^ 64 ≤ a.toNat + b.toNat) :
    addChecked a b = .error (.refused Cause.tapeTooLarge.diagnostic) := fit_of_le _ h

lemma toNat_and_not_add (x m : UInt64) : (x &&& ~~~m).toNat + (x &&& m).toNat = x.toNat := by
  have hdisjoint : (x.toBitVec &&& ~~~m.toBitVec) &&& (x.toBitVec &&& m.toBitVec) = 0 := by
    ext i
    simp only [BitVec.getElem_and, BitVec.getElem_not]
    cases x.toBitVec[i] <;> cases m.toBitVec[i] <;> simp
  have hjoin : (x.toBitVec &&& ~~~m.toBitVec) ||| (x.toBitVec &&& m.toBitVec) = x.toBitVec := by
    ext i
    simp only [BitVec.getElem_or, BitVec.getElem_and, BitVec.getElem_not]
    cases x.toBitVec[i] <;> cases m.toBitVec[i] <;> rfl
  have hsum := congrArg BitVec.toNat (BitVec.add_eq_or_of_and_eq_zero _ _ hdisjoint)
  rw [hjoin, BitVec.toNat_add_of_and_eq_zero hdisjoint] at hsum
  exact hsum

/-- Clearing the low 16 bits rounds down to a multiple of 64 KiB. -/
lemma toNat_clear (x : UInt64) : (x &&& ~~~0xffff).toNat = x.toNat / 0x10000 * 0x10000 := by
  have hsplit := toNat_and_not_add x 0xffff
  have hlow : (x &&& 0xffff).toNat = x.toNat % 2 ^ 16 := by
    rw [UInt64.toNat_and]
    exact Nat.and_two_pow_sub_one_eq_mod x.toNat 16
  omega

/-- The headers are small, so nothing overflows on the way to the code. -/
lemma codeOffset_eq (c : Class) : codeOffset c = .ok 0x100 := by
  cases c <;> rfl

lemma limit_le_iff (blocks : UInt64) :
    (0xffffffffffffffff : UInt64) >>> 12 ≤ blocks ↔ blocks.toNat ≥ 1 <<< 52 - 1 :=
  UInt64.le_iff_toNat_le

/-- **The size of the tape does not overflow.** -/
lemma tapeSize_eq (blocks : UInt64) :
    (tapeSize blocks).map UInt64.toNat = (Elf.tapeSize blocks).mapError Stop.refused := by
  by_cases h0 : blocks = 0
  · rw [tapeSize, Elf.tapeSize, if_pos h0, if_pos h0]
    rfl
  rw [tapeSize, Elf.tapeSize, if_neg h0, if_neg h0]
  by_cases hlarge : blocks.toNat ≥ 1 <<< 52 - 1
  · rw [if_pos ((limit_le_iff blocks).mpr hlarge), if_pos hlarge]
    rfl
  · rw [if_neg fun h => hlarge ((limit_le_iff blocks).mp h), if_neg hlarge]
    have hlt : blocks.toNat * 0x1000 < 2 ^ 64 := by
      rw [blockLimit_eq] at hlarge
      omega
    obtain ⟨size, hsize, hval⟩ := fit_of_lt .overflow hlt
    have hmul : mul blocks 0x1000 = .ok size := hsize
    rw [hmul]
    exact congrArg Except.ok hval

lemma toNat_maxAddress (c : Class) : (UInt64.ofNat c.maxAddress).toNat = c.maxAddress := by
  cases c <;> rfl

/-- Of the two sums only the result has to fit: the end of the tape is below it. -/
lemma loadAddress_eq (size : UInt64) : loadAddress size =
    fit (.refused Cause.tapeTooLarge.diagnostic) (nextMultiple 0x10000 (0x10000 + size.toNat)) := by
  rcases Nat.lt_or_ge ((0x10000 : UInt64).toNat + size.toNat) (2 ^ 64) with hlt | hle
  · obtain ⟨tapeEnd, hadd, hend⟩ := addChecked_of_lt hlt
    have hblock : (0x10000 : UInt64).toNat = 0x10000 := rfl
    simp only [loadAddress, hadd, bind, Except.bind]
    rw [addChecked, toNat_clear, hend, hblock, nextMultiple]
  · have hlarge : 2 ^ 64 ≤ nextMultiple 0x10000 (0x10000 + size.toNat) :=
      Nat.le_trans hle (isLeast_nextMultiple (by decide) _).1.2.le
    rw [loadAddress, addChecked_of_le hle, fit_of_le _ hlarge]
    rfl

lemma layout_mk {c : Class} {size load : UInt64} (h : load.toNat = nextMultiple 0x10000 (0x10000 + size.toNat)) :
    (Addresses.mk size load 0x100).layout = placement c size.toNat := by
  rw [Addresses.layout, placement, h]
  exact congrArg _ (Elf.codeOffset_eq c).symm

/-- A sum that overflows belongs to a tape that fits no address space. -/
lemma place_eq (c : Class) (size : UInt64) : (place c size).map Addresses.layout =
    if (placement c size.toNat).entry ≤ c.maxAddress then .ok (placement c size.toNat)
    else .error (.refused Cause.tapeTooLarge.diagnostic) := by
  have hmax : c.maxAddress < 2 ^ 64 := toNat_maxAddress c ▸ UInt64.toNat_lt _
  have hentry := placement_entry c size.toNat
  rcases Nat.lt_or_ge (nextMultiple 0x10000 (0x10000 + size.toNat)) (2 ^ 64) with hlt | hle
  · obtain ⟨load, hfit, hload⟩ := fit_of_lt (.refused Cause.tapeTooLarge.diagnostic) hlt
    -- a multiple of 64 KiB leaves room for the headers
    have hsum : load.toNat + (0x100 : UInt64).toNat < 2 ^ 64 := by
      change load.toNat + 0x100 < 2 ^ 64
      rw [nextMultiple] at hload hlt
      omega
    obtain ⟨entry, hadd, hval⟩ := addChecked_of_lt hsum
    replace hval : entry.toNat = load.toNat + 0x100 := hval
    have hlarge : UInt64.ofNat c.maxAddress < entry ↔ ¬ (placement c size.toNat).entry ≤ c.maxAddress := by
      rw [UInt64.lt_iff_toNat_lt, toNat_maxAddress]
      omega
    simp only [place, loadAddress_eq, hfit, codeOffset_eq, hadd, bind, Except.bind]
    by_cases hfits : (placement c size.toNat).entry ≤ c.maxAddress
    · rw [if_pos hfits, if_neg (hlarge.not_left.mpr hfits)]
      exact congrArg Except.ok (layout_mk hload)
    · rw [if_neg hfits, if_pos (hlarge.mpr hfits)]
      rfl
  · rw [if_neg (by omega), place, loadAddress_eq, fit_of_le _ hle]
    rfl

/-- **No address overflows.** The words stand for the layout, and a sum that overflows belongs to a tape that has
none. -/
lemma addresses_eq (c : Class) (blocks : UInt64) :
    (addresses c blocks).map Addresses.layout = (Layout.of c blocks).mapError Stop.refused := by
  have heq := tapeSize_eq blocks
  cases hexact : Elf.tapeSize blocks with
  | error d =>
    cases hsize : tapeSize blocks with
    | ok size => rw [hsize, hexact] at heq; cases heq
    | error stop =>
      rw [hsize, hexact] at heq
      cases heq
      rw [addresses, hsize, Layout.of, hexact]
      rfl
  | ok n =>
    cases hsize : tapeSize blocks with
    | error stop => rw [hsize, hexact] at heq; cases heq
    | ok size =>
      rw [hsize, hexact] at heq
      cases heq
      rw [addresses, hsize, Layout.of_tapeSize hexact]
      refine (place_eq c size).trans ?_
      split <;> rfl

lemma Addresses.entry_eq {w : Addresses} (h : w.layout.entry < 2 ^ 64) :
    w.entry.map UInt64.toNat = .ok w.layout.entry := by
  obtain ⟨entry, hadd, hval⟩ := fit_of_lt .overflow h
  have hentry : w.entry = .ok entry := hadd
  rw [hentry]
  exact congrArg Except.ok hval

lemma layout_of_addresses {c : Class} {blocks : UInt64} {w : Addresses} (h : addresses c blocks = .ok w) :
    Layout.of c blocks = .ok w.layout := by
  have heq := addresses_eq c blocks
  rw [h] at heq
  cases hof : Layout.of c blocks with
  | error d => rw [hof] at heq; cases heq
  | ok l =>
    rw [hof] at heq
    exact (congrArg Except.ok (Except.ok.inj heq)).symm

end Words

/-! ## The addresses of a layout -/

/-- Each address of a layout is the least one that is fit. -/
structure Placed (c : Class) (blocks : UInt64) (l : Layout) : Prop where
  tapeSize_eq : l.tapeSize = 0x1000 * blocks.toNat
  loadAddress : IsLeast {a | 0x10000 ∣ a ∧ 0x10000 + 0x1000 * blocks.toNat < a} l.loadAddress
  codeOffset : IsLeast {a | 0x100 ∣ a ∧ c.headersSize < a} l.codeOffset
  entry_eq : l.entry = l.loadAddress + l.codeOffset
  entry_lt : l.entry < 2 ^ c.addressBits

lemma Layout.placed_of {c : Class} {blocks : UInt64} {l : Layout} (h : Layout.of c blocks = .ok l) :
    Placed c blocks l := by
  have hsound := Layout.sound_of h
  rw [Layout.of_eq] at h
  split_ifs at h
  cases h
  refine ⟨Nat.mul_comm _ _, ?_, isLeast_nextMultiple (by decide) _, rfl, ?_⟩
  · rw [Nat.mul_comm]
    exact isLeast_nextMultiple (by decide) _
  · rw [placement_entry]
    exact hsound.entry_lt

lemma Layout.exists_of_iff (c : Class) (blocks : UInt64) : (∃ l, Layout.of c blocks = .ok l) ↔ HasRoom c blocks := by
  rw [Layout.of_eq]
  constructor
  · rintro ⟨l, h⟩
    split_ifs at h with h0 hroom
    exact hroom
  · intro hroom
    have h0 : blocks ≠ 0 := by
      rintro rfl
      exact absurd hroom.1 (by decide)
    exact ⟨_, by rw [if_neg h0, if_pos hroom]⟩

/-- **The layout of a tape.** No operation on words overflows on the way to it. There is one exactly if there are
blocks and more than 64 KiB are left past the tape. The code is loaded at the first multiple of 64 KiB past the tape
and starts at the first multiple of 256 past the headers. -/
theorem Layout.of_places (c : Class) (blocks : UInt64) :
    (Words.tapeSize blocks).map UInt64.toNat = (Elf.tapeSize blocks).mapError .refused ∧
    (Words.addresses c blocks).map Words.Addresses.layout = (Layout.of c blocks).mapError .refused ∧
    (∀ w, Words.addresses c blocks = .ok w → w.entry.map UInt64.toNat = .ok w.layout.entry) ∧
    ((∃ l, Layout.of c blocks = .ok l) ↔ HasRoom c blocks) ∧
    (blocks = 0 → Layout.of c blocks = .error Cause.tapeSizeZero.diagnostic) ∧
    (blocks ≠ 0 → ¬ HasRoom c blocks → Layout.of c blocks = .error Cause.tapeTooLarge.diagnostic) ∧
    ∀ l, Layout.of c blocks = .ok l → Placed c blocks l := by
  refine ⟨Words.tapeSize_eq blocks, Words.addresses_eq c blocks, ?_, Layout.exists_of_iff c blocks, ?_, ?_, ?_⟩
  · intro w hw
    have hlt := (Layout.placed_of (Words.layout_of_addresses hw)).entry_lt
    exact Words.Addresses.entry_eq (by rcases addressBits_cases c with hbits | hbits <;> omega)
  · intro h0
    rw [Layout.of_eq, if_pos h0]
  · intro h0 hroom
    rw [Layout.of_eq, if_neg h0, if_neg hroom]
  · intro l hl
    exact Layout.placed_of hl

end TapeElf.Elf
