import TapeElf.Proofs.S390x.Fragments

/-!
# Constants on s390x

Code that loads a constant is one or two instructions that leave it in the register and change nothing else, provided
that register zero holds zero (`loadsByWords_emit`).

The first loads a low word with its sign, so the high word starts out as copies of that sign (`patched_low`). If one of
its two halfwords is to be nothing else, the other one is inserted; if not, the whole high word is
(`sets_insertHigh`).
-/

namespace TapeElf.S390x

variable {r : Reg} {v : Int} {value : Int64}

/-! ## The low word -/

/-- A word is loaded with its sign. Zero has no instruction of its own, and is copied from register zero. -/
lemma sets_loadWord (h : fits 32 v) {m : Cpu} (hzero : m.regs 0 = 0) :
    processor.Sets (loadWord r v).encode m r.number (BitVec.ofInt 64 v) := by
  unfold loadWord
  split_ifs with hv hshort
  · refine ⟨_, (encodes (.lgr r .r0)).passes rfl rfl, ?_, rfl⟩
    show Function.update m.regs r.number (m.regs 0) = _
    rw [hzero, hv]
    rfl
  · refine ⟨_, (encodes (.lghi r (Int16.ofInt v))).passes rfl rfl, ?_, rfl⟩
    show Function.update m.regs r.number (BitVec.ofInt 64 (Int16.ofInt v).toInt) = _
    rw [toInt_ofInt16 hshort]
  · refine ⟨_, (encodes (.lgfi r (Int32.ofInt v))).passes rfl rfl, ?_, rfl⟩
    show Function.update m.regs r.number (BitVec.ofInt 64 (Int32.ofInt v).toInt) = _
    rw [toInt_ofInt32 h]

/-- The low word of a constant, with its sign, is right up to bit 32. -/
lemma patched_low (value : Int64) :
    Patched value.toBitVec (signed 32 value.toInt < 0) 32 (BitVec.ofInt 64 (signed 32 value.toInt)) := by
  have hvalue : value.toBitVec = BitVec.ofInt 64 value.toInt := BitVec.ofInt_toInt.symm
  have hlow : (value.toBitVec.setWidth 32).toInt = signed 32 value.toInt := by
    rw [hvalue, setWidth_ofInt (by decide), BitVec.toInt_ofInt, signed, Nat.one_shiftLeft]
  intro i hi
  rw [← hlow, ← BitVec.msb_eq_toInt]
  show ((value.toBitVec.setWidth 32).signExtend 64).getLsbD i = _
  rw [BitVec.getLsbD_signExtend, decide_eq_true hi, Bool.true_and]
  split
  · next hin => rw [BitVec.getLsbD_setWidth, decide_eq_true hin, Bool.true_and]
  · rfl

/-! ## The high word -/

lemma twos_high (value : Int64) : twos 32 (value.toInt / 0x100000000) = value.toBitVec.toNat / 0x100000000 := by
  have hlt := value.toBitVec.isLt
  have hint : value.toInt = value.toBitVec.toInt := rfl
  rw [hint, BitVec.toInt_eq_toNat_cond, twos, Nat.one_shiftLeft]
  split <;> omega

lemma half_high (x : BitVec 64) :
    half x 32 = UInt16.ofNat (x.toNat / 0x100000000) ∧ half x 48 = UInt16.ofNat ((x.toNat / 0x100000000) >>> 16) := by
  refine ⟨?_, ?_⟩
  · show UInt16.ofNat (x.toNat >>> 32) = _
    rw [Nat.shiftRight_eq_div_pow]
  · show UInt16.ofNat (x.toNat >>> 48) = _
    rw [Nat.shiftRight_eq_div_pow, Nat.shiftRight_eq_div_pow, Nat.div_div_eq_div_mul]

lemma append_of_patched {x y : BitVec 64} {sign : Bool} (h : Patched x sign 32 y) :
    (UInt32.ofNat (x.toNat / 0x100000000)).toBitVec ++ y.setWidth 32 = x := by
  have hhigh : (UInt32.ofNat (x.toNat / 0x100000000)).toBitVec = x.extractLsb' 32 32 := by
    show BitVec.ofNat 32 _ = BitVec.ofNat 32 (x.toNat >>> 32)
    rw [Nat.shiftRight_eq_div_pow]
  apply BitVec.eq_of_getLsbD_eq
  intro i hi
  rw [hhigh, BitVec.getLsbD_append, BitVec.getLsbD_setWidth, BitVec.getLsbD_extractLsb']
  split
  · next hin => rw [decide_eq_true hin, Bool.true_and, h i hi, if_pos hin]
  · rw [decide_eq_true (by omega), Bool.true_and, Nat.add_sub_cancel' (by omega)]

lemma sets_insertHigh {low : Int} {m : Cpu} (h : Patched value.toBitVec (low < 0) 32 (m.regs r.number)) :
    processor.Sets (insertHigh r low (twos 32 (value.toInt / 0x100000000))).encode m r.number value.toBitVec := by
  obtain ⟨hhalf, hhalf'⟩ := half_high value.toBitVec
  have hfill : (fillHalf (low < 0)).toNat = if low < 0 then 0xffff else 0 := by
    by_cases hlow : low < 0 <;> simp [fillHalf, hlow]
  rw [twos_high]
  unfold insertHigh
  simp only [← hfill]
  split_ifs with hskip hskip'
  · have hsame : half value.toBitVec 48 = fillHalf (low < 0) := by
      rw [hhalf', hskip, UInt16.ofNat_toNat]
    refine ⟨_, (encodes (.iihl r _)).passes rfl rfl, ?_, rfl⟩
    show Function.update m.regs r.number (insertHalf (m.regs r.number) 32 _) = _
    rw [← hhalf, (h.insert.skip hsame).eq]
  · have hsame : half value.toBitVec 32 = fillHalf (low < 0) := by
      rw [hhalf, ← UInt16.toNat_inj, UInt16.toNat_ofNat', ← hskip']
    refine ⟨_, (encodes (.iihh r _)).passes rfl rfl, ?_, rfl⟩
    show Function.update m.regs r.number (insertHalf (m.regs r.number) 48 _) = _
    rw [← hhalf', (h.skip hsame).insert.eq]
  · refine ⟨_, (encodes (.iihf r _)).passes rfl rfl, ?_, rfl⟩
    show Function.update m.regs r.number (_ ++ (m.regs r.number).setWidth 32) = _
    rw [append_of_patched h]

/-! ## Constants -/

lemma sets_load (r : Reg) (value : Int64) {m : Cpu} (hzero : m.regs 0 = 0) :
    processor.Sets (assemble (load r value)).bytes m r.number value.toBitVec := by
  unfold load
  dsimp only
  split
  · next hshort =>
    have hvalue : BitVec.ofInt 64 value.toInt = value.toBitVec := BitVec.ofInt_toInt
    rw [Emission.bytes_assemble_singleton, ← hvalue]
    exact sets_loadWord hshort hzero
  · rw [Emission.bytes_assemble_cons, Emission.bytes_assemble_singleton]
    refine (sets_loadWord (fits_signed (by decide) _) hzero).append fun m₁ hm₁ => sets_insertHigh ?_
    rw [hm₁]
    exact patched_low value

/-- An instruction that loads a word with its sign. -/
def Instr.LoadsLow (r : Reg) : Instr → Prop
  | lgr dst src => dst = r ∧ src = .r0
  | lghi dst _ | lgfi dst _ => dst = r
  | _ => False

/-- An instruction that replaces the high word, or a half of it. -/
def Instr.InsertsHigh (r : Reg) : Instr → Prop
  | iihh dst _ | iihl dst _ | iihf dst _ => dst = r
  | _ => False

/-- The code loads a constant into a register. -/
structure LoadsByWords (r : Reg) (value : Int64) (code : Emission) : Prop where
  fault : code.fault = none
  /-- It is the load of a low word, and at most one insertion into the high word. -/
  listing : ∃ first rest, processor.Lists (first :: rest) code.bytes ∧ first.LoadsLow r ∧ rest.length ≤ 1 ∧
    ∀ i ∈ rest, i.InsertsHigh r
  /-- From every state where register zero holds zero it leaves the constant in the register, and all else as it was. -/
  effect : ∀ m, m.regs 0 = 0 → ∃ m', processor.Passes code.bytes m m' ∧
    m'.regs = Function.update m.regs r.number value.toBitVec ∧ m'.memory = m.memory

lemma loadsLow_loadWord (r : Reg) (v : Int) : (loadWord r v).LoadsLow r := by
  unfold loadWord
  split_ifs
  exacts [⟨rfl, rfl⟩, rfl, rfl]

lemma insertsHigh_insertHigh (r : Reg) (low : Int) (high : Nat) : (insertHigh r low high).InsertsHigh r := by
  unfold insertHigh
  extract_lets fill
  split_ifs
  exacts [rfl, rfl, rfl]

lemma exists_load_eq (r : Reg) (value : Int64) : ∃ first rest, load r value = first :: rest ∧ first.LoadsLow r ∧
    rest.length ≤ 1 ∧ ∀ i ∈ rest, i.InsertsHigh r := by
  unfold load
  extract_lets v low
  split
  · exact ⟨_, [], rfl, loadsLow_loadWord r v, Nat.zero_le _, List.forall_mem_nil _⟩
  · exact ⟨_, [_], rfl, loadsLow_loadWord r low, le_rfl, List.forall_mem_singleton.mpr (insertsHigh_insertHigh ..)⟩

/-- **Every constant is loaded**, into every register. -/
theorem loadsByWords_emit (r : Reg) (value : Int64) : LoadsByWords r value (backend.emit (.load r value)) := by
  have hlists : processor.Lists (load r value) (backend.emit (.load r value)).bytes :=
    Processor.lists_flatMap fun i _ => encodes i
  obtain ⟨first, rest, hload, hinstrs⟩ := exists_load_eq r value
  rw [hload] at hlists
  exact ⟨rfl, ⟨first, rest, hlists, hinstrs⟩, fun m hzero => sets_load r value hzero⟩

end TapeElf.S390x
