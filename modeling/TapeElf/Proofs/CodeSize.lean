import TapeElf.Proofs.Backpatching

/-!
# How much room code takes

A counted operation takes no more room than as many single ones, on every target (`Arch.compact`). For large counts
this is clear once there is some bound; what has to be looked at are the small counts, and the constants of RISC-V,
which have none (`length_constant_le`).

A jump that is accepted is accepted over every shorter distance (`Arch.accepts_mono`).
-/

namespace TapeElf

/-- A counted operation takes no more room than as many single ones, and to clear a cell no more than a jump. -/
structure Backend.Compact (b : Backend) : Prop where
  addCell : ∀ n, (b.emit (.addCell b.roles.tape n)).bytes.length ≤ 2 * (b.emit (.incCell b.roles.tape)).bytes.length
  subCell : ∀ n, (b.emit (.subCell b.roles.tape n)).bytes.length ≤ 2 * (b.emit (.decCell b.roles.tape)).bytes.length
  addReg : ∀ n : UInt64, 2 ≤ n.toNat → n.toNat < 2 ^ 63 →
    (b.emit (.addReg b.roles.tape n)).bytes.length ≤ n.toNat * (b.emit (.incReg b.roles.tape)).bytes.length
  subReg : ∀ n : UInt64, 2 ≤ n.toNat → n.toNat < 2 ^ 63 →
    (b.emit (.subReg b.roles.tape n)).bytes.length ≤ n.toNat * (b.emit (.decReg b.roles.tape)).bytes.length
  clearCell : (b.emit (.clearCell b.roles.tape)).bytes.length ≤ b.jumpSize

section

variable {n : UInt64} (h : n.toNat < 2 ^ 63)
include h

lemma toInt_toInt64 : n.toInt64.toInt = n.toNat := by
  rw [← UInt64.ofNat_toNat (x := n), UInt64.toInt64_ofNat', Int64.toInt_ofNat_of_lt (by simpa using h)]
  simp

lemma natAbs_toInt64 : n.toInt64.toInt.natAbs = n.toNat := by
  rw [toInt_toInt64 h, Int.natAbs_natCast]

lemma natAbs_neg_toInt64 : (-n.toInt64).toInt.natAbs = n.toNat := by
  rw [toInt_neg_of_nonneg (by rw [toInt_toInt64 h]; omega), Int.natAbs_neg, natAbs_toInt64 h]

end

/-! ## x86 -/

namespace X86

lemma length_assemble_le (instrs : List Instr) :
    (assemble instrs).bytes.length ≤ (instrs.map fun i => i.encode.length).sum := by
  unfold assemble
  split
  · rw [List.length_flatMap]
  · exact Nat.zero_le _

namespace Long

lemma length_load_le (r : Reg) (v : Int64) : ((load r v).map fun i => i.encode.length).sum ≤ 10 := by
  unfold load
  dsimp only
  repeat' split
  all_goals simp [Instr.encode]

lemma length_change_le {n : UInt64} (h : 2 ≤ n.toNat) (op : Arith) (r : Reg) :
    ((change op r n).map fun i => i.encode.length).sum ≤ n.toNat * 3 := by
  unfold change
  split
  · simp
  split
  · simp only [List.map_cons, List.map_nil, List.sum_cons, List.sum_nil, Instr.encode, List.length_cons,
      List.length_nil]
    omega
  next hsmall =>
  have hn : ¬ n.toNat ≤ 0x7f := hsmall
  split
  · simp only [List.map_cons, List.map_nil, List.sum_cons, List.sum_nil, Instr.encode, List.length_cons,
      length_littleBytes]
    omega
  · have := length_load_le .cx n.toInt64
    simp only [List.map_append, List.sum_append, List.map_cons, List.map_nil, List.sum_cons, List.sum_nil, Instr.encode,
      List.length_cons, List.length_nil]
    omega

theorem compact : backend.Compact where
  addCell n := (by decide : 3 ≤ 2 * 2)
  subCell n := (by decide : 3 ≤ 2 * 2)
  addReg n h _ := (length_assemble_le _).trans (length_change_le h .add .bx)
  subReg n h _ := (length_assemble_le _).trans (length_change_le h .sub .bx)
  clearCell := by decide

end Long

namespace Protected

lemma length_change_le {n : UInt64} (h : 2 ≤ n.toNat) (op : Arith) (r : Reg) :
    (change op r n).bytes.length ≤ n.toNat * 2 := by
  unfold change
  split
  · exact Nat.zero_le _
  split
  · change 3 ≤ n.toNat * 2
    omega
  next hsmall =>
  have hn : ¬ n.toNat ≤ 0x7f := hsmall
  have hlen : (assemble [.arithWord op r.number n.toUInt32]).bytes.length = 6 := rfl
  unfold checked
  split
  · omega
  · simp only
    omega

theorem compact : backend.Compact where
  addCell n := (by decide : 3 ≤ 2 * 2)
  subCell n := (by decide : 3 ≤ 2 * 2)
  addReg n h _ := length_change_le h .add .si
  subReg n h _ := length_change_le h .sub .si
  clearCell := by decide

end Protected

end X86

/-! ## ARM64 -/

namespace Arm64

lemma length_assemble (instrs : List Instr) : (assemble instrs).bytes.length = 4 * instrs.length := by
  have hfour : ∀ i ∈ instrs, i.encode.length = 4 := fun i _ => by simp [Instr.encode]
  change (instrs.flatMap Instr.encode).length = 4 * instrs.length
  rw [List.length_flatMap, List.map_congr_left hfour]
  simp [Nat.mul_comm]

lemma length_moves_le (r : Reg) (v : Int) (fill : UInt16) (lead : Move) (shifts : List UInt8) :
    (moves r v fill lead shifts).length ≤ shifts.length := by
  induction shifts generalizing lead with
  | nil => exact Nat.le_refl _
  | cons shift shifts ih =>
    unfold moves
    dsimp only
    split
    · exact (ih lead).trans (Nat.le_succ _)
    · exact Nat.succ_le_succ (ih .keep)

lemma length_load_le (r : Reg) (v : Int64) : (load r v).length ≤ 4 := by
  unfold load
  dsimp only
  split
  · simp
  · exact length_moves_le _ _ _ _ _

lemma length_change_le {n : UInt64} (h : 2 ≤ n.toNat) (op : AddSub) (r : Reg) : (change op r n).length ≤ n.toNat := by
  unfold change
  split
  · simp
  split
  · simp only [List.length_singleton]
    omega
  next hsmall =>
  have hn : ¬ n.toNat < 0x1000 := hsmall
  split
  · dsimp only
    split <;> simp only [List.length_cons, List.length_nil] <;> omega
  · have := length_load_le scratch n.toInt64
    simp only [List.length_append, List.length_singleton]
    omega

theorem compact : backend.Compact where
  addCell n := (by decide : 12 ≤ 2 * 12)
  subCell n := (by decide : 12 ≤ 2 * 12)
  addReg n h _ := by
    have := length_change_le h .add 19
    change (assemble (change .add 19 n)).bytes.length ≤ n.toNat * 4
    rw [length_assemble]
    omega
  subReg n h _ := by
    have := length_change_le h .sub 19
    change (assemble (change .sub 19 n)).bytes.length ≤ n.toNat * 4
    rw [length_assemble]
    omega
  clearCell := by decide

end Arm64

/-! ## RISC-V -/

namespace Riscv64

lemma length_shortConstant_le (rd : Reg) (v : Int) : (assemble (shortConstant rd v)).bytes.length ≤ 8 := by
  unfold shortConstant
  dsimp only
  repeat' split
  all_goals simp [Emission.assemble, Instr.encode]

lemma length_addLow_le (rd : Reg) (low : Int) : (assemble (addLow rd low)).bytes.length ≤ 4 := by
  unfold addLow
  repeat' split
  all_goals simp [Emission.assemble, Instr.encode]

/-- What is loaded first of a large constant is short, or much smaller. -/
lemma splitConstant_cases {v : Int} (h : ¬ fits 32 v) :
    fits 32 (splitConstant v).1 = true ∨ (splitConstant v).1.natAbs + 6 ≤ v.natAbs := by
  have hupper : (upperPart v).natAbs + 6 ≤ v.natAbs := by
    simp only [fits, Bool.and_eq_true, decide_eq_true_eq] at h
    unfold upperPart
    omega
  unfold splitConstant
  dsimp only
  split
  · next hkeep => exact .inl hkeep.2.2
  · have hhigh := natAbs_bmod_le (upperPart v >>> trailingZeros (upperPart v).natAbs)
      (1 <<< (52 - trailingZeros (upperPart v).natAbs))
    have hshift := Int.natAbs_ediv_le_natAbs (upperPart v) (2 ^ trailingZeros (upperPart v).natAbs : Nat)
    rw [← Int.shiftRight_eq_div_pow] at hshift
    exact .inr (by unfold signed; omega)

/-- Every step for a large constant adds six bytes at most, and leaves one that is smaller by more than that. -/
lemma length_constant_le (rd : Reg) (v : Int) :
    (assemble (constant rd v)).bytes.length ≤ 8 + if fits 32 v then 0 else v.natAbs := by
  fun_induction constant rd v with
  | case1 v h =>
    have := length_shortConstant_le rd v
    omega
  | case2 v h part ih =>
    have hlow := length_addLow_le rd (signed 12 v)
    have hlarge : 6 ≤ v.natAbs := by
      simp only [fits, Bool.and_eq_true, decide_eq_true_eq] at h
      omega
    rw [Emission.bytes_assemble_append, Emission.bytes_assemble_cons, List.length_append, List.length_append,
      Instr.encode, length_littleBytes, if_neg h]
    unfold assemble at ih hlow
    rcases splitConstant_cases h with hshort | hsmaller
    · rw [if_pos hshort] at ih
      omega
    · change part.1.natAbs + 6 ≤ v.natAbs at hsmaller
      split at ih <;> omega

lemma length_change_le {v : Int} (h : 2 ≤ v.natAbs) (r : Reg) :
    (assemble (change r v)).bytes.length ≤ v.natAbs * 2 := by
  unfold change
  split
  · simp [Emission.assemble]
  split
  · rw [Emission.bytes_assemble_singleton, Instr.encode, length_littleBytes]
    omega
  split
  · rw [Emission.bytes_assemble_singleton, Instr.encode, length_littleBytes]
    omega
  next hlarge =>
  have hconstant := length_constant_le scratch v
  have hn : 2048 ≤ v.natAbs := by
    simp only [fits, Bool.and_eq_true, decide_eq_true_eq] at hlarge
    omega
  rw [Emission.bytes_assemble_append, Emission.bytes_assemble_singleton, List.length_append, Instr.encode,
    length_littleBytes]
  unfold assemble at hconstant
  split at hconstant <;> omega

lemma length_changeCell_le (r : Reg) (v : Int) : (assemble (changeCell r v)).bytes.length ≤ 12 := by
  unfold changeCell
  repeat' split
  all_goals simp [Emission.assemble, Instr.encode]

theorem compact : backend.Compact where
  addCell n := (length_changeCell_le .s0 _).trans (by decide)
  subCell n := (length_changeCell_le .s0 _).trans (by decide)
  addReg n h hn := by
    have hv := natAbs_toInt64 hn
    have hlen := length_change_le (h.trans_eq hv.symm) .s0
    rw [hv] at hlen
    exact hlen
  subReg n h hn := by
    have hv := natAbs_neg_toInt64 hn
    have hlen := length_change_le (h.trans_eq hv.symm) .s0
    rw [hv] at hlen
    exact hlen
  clearCell := by decide

end Riscv64

/-! ## s390x -/

namespace S390x

lemma length_changeWord_le (r : Reg) (v : Int) : (changeWord r v).encode.length ≤ 6 := by
  unfold changeWord
  split <;> simp [Instr.encode, formatRI, formatRIL, head]

lemma length_change_le (r : Reg) (v : Int) :
    (assemble (change r v)).bytes.length ≤ if fits 32 v then 6 else 12 := by
  unfold change
  split
  · simpa [Emission.assemble] using length_changeWord_le r v
  · have hlow := length_changeWord_le r (signed 32 v)
    have hhigh (imm : Int32) : (Instr.aih r imm).encode.length = 6 := rfl
    dsimp only
    split
    · simp [Emission.assemble, hhigh]
    · simp only [Emission.assemble, List.flatMap_append, List.flatMap_singleton, List.length_append, hhigh]
      omega

lemma length_count_le (r : Reg) {v : Int} (h : 2 ≤ v.natAbs) :
    (assemble (change r v)).bytes.length ≤ v.natAbs * 4 := by
  have hchange := length_change_le r v
  split at hchange
  · omega
  · next hlarge =>
    simp only [fits, Bool.and_eq_true, decide_eq_true_eq] at hlarge
    omega

lemma length_changeCell_le (r : Reg) (v : Int) : (assemble (changeCell r v)).bytes.length ≤ 22 := by
  have hchange := length_change_le scratch v
  have hload : (Instr.llgc scratch r).encode.length = 6 := rfl
  have hstore : (Instr.stc scratch r).encode.length = 4 := rfl
  simp only [Emission.assemble] at hchange
  simp only [changeCell, Emission.assemble, List.flatMap_append, List.flatMap_cons, List.flatMap_nil, List.cons_append,
    List.length_append, List.length_nil, hload, hstore]
  split at hchange <;> omega

theorem compact : backend.Compact where
  addCell n := (length_changeCell_le .r8 _).trans (by decide)
  subCell n := (length_changeCell_le .r8 _).trans (by decide)
  addReg n h hn := by
    have hv := natAbs_toInt64 hn
    have hlen := length_count_le .r8 (h.trans_eq hv.symm)
    rw [hv] at hlen
    exact hlen
  subReg n h hn := by
    have hv := natAbs_neg_toInt64 hn
    have hlen := length_count_le .r8 (h.trans_eq hv.symm)
    rw [hv] at hlen
    exact hlen
  clearCell := by decide

end S390x

/-! ## All targets -/

/-- **Counting never costs room.** -/
theorem Arch.compact (arch : Arch) : arch.backend.Compact :=
  match arch with
  | x86_64 => X86.Long.compact
  | i386 => X86.Protected.compact
  | arm64 => Arm64.compact
  | riscv64 => Riscv64.compact
  | s390x => S390x.compact

/-- The code of a counted op is no longer than that of the run it stands for. -/
lemma Backend.Compact.length_opCode_le {b : Backend} (hb : b.Compact) {c : Command} {f : UInt64 → Op}
    (h : c.counted? = some f) {n : Nat} (pos : 0 < n) (small : n < 2 ^ 63) :
    (b.opCode (f (UInt64.ofNat n))).length ≤ n * (b.opCode (.ofCommand c)).length := by
  by_cases hone : n = 1
  · subst hone
    cases c <;> cases h <;> exact (Nat.one_mul _).ge
  have hn : (UInt64.ofNat n).toNat = n := by
    rw [UInt64.toNat_ofNat']
    omega
  have hne : UInt64.ofNat n ≠ 1 := by
    intro h1
    rw [h1] at hn
    exact hone hn.symm
  have htwo : 2 ≤ (UInt64.ofNat n).toNat := by omega
  have hcell {k l : Nat} (hk : k ≤ 2 * l) : k ≤ n * l := hk.trans (Nat.mul_le_mul_right l (by omega))
  cases c with
  | inc =>
    cases h
    simp only [opCode, operations, if_neg hne, Op.ofCommand, if_true]
    split
    · exact Nat.zero_le _
    · simpa using hcell (hb.addCell _)
  | dec =>
    cases h
    simp only [opCode, operations, if_neg hne, Op.ofCommand, if_true]
    split
    · exact Nat.zero_le _
    · simpa using hcell (hb.subCell _)
  | right =>
    cases h
    have := hb.addReg _ htwo (hn.trans_lt small)
    rw [hn] at this
    simpa [opCode, operations, hne, Op.ofCommand] using this
  | left =>
    cases h
    have := hb.subReg _ htwo (hn.trans_lt small)
    rw [hn] at this
    simpa [opCode, operations, hne, Op.ofCommand] using this
  | _ => cases h

/-! ## Jumps -/

lemma fits_mono {bits : Nat} {v w : Int} (hv : 0 ≤ v) (hvw : v ≤ w) (h : fits bits w = true) : fits bits v = true := by
  simp only [fits, Bool.and_eq_true, decide_eq_true_eq] at h ⊢
  omega

lemma fault_alignedJump_mono {align bits : Nat} {past : Int} {d d' : Nat} {code code' : Emission}
    (hf : code.fault = none) (hf' : code'.fault = none) (hpast : 0 ≤ past) (hdvd : align ∣ d') (hle : d' ≤ d)
    (hd : d < 2 ^ 63) (h : (Emission.alignedJump align bits past (Int64.ofNat d) code).fault = none) :
    (Emission.alignedJump align bits past (Int64.ofNat d') code').fault = none := by
  rw [fault_alignedJump hf, Int64.toInt_ofNat_of_lt hd] at h
  rw [fault_alignedJump hf', Int64.toInt_ofNat_of_lt (hle.trans_lt hd)]
  exact ⟨Int.emod_eq_zero_of_dvd (Int.natCast_dvd_natCast.mpr hdvd), fits_mono (by omega) (by omega) h.2⟩

lemma X86.fault_loopJump_mono {cond : Cond} {r : Reg} {d d' : Nat} (hr : canPoint r.number = true) (hle : d' ≤ d)
    (hd : d < 2 ^ 63) (h : (loopJump cond r (Int64.ofNat d)).fault = none) :
    (loopJump cond r (Int64.ofNat d')).fault = none := by
  rw [fault_loopJump hr, Int64.toInt_ofNat_of_lt hd] at h
  rw [fault_loopJump hr, Int64.toInt_ofNat_of_lt (hle.trans_lt hd)]
  exact fits_mono (by omega) (by omega) h

/-- **A target that can jump over a distance can jump over a shorter one.** -/
theorem Arch.accepts_mono (arch : Arch) {d d' : Nat} (hdvd : arch.alignment ∣ d') (hle : d' ≤ d)
    (h : arch.backend.Accepts d) : arch.backend.Accepts d' := by
  obtain ⟨hd, hjump⟩ := h
  refine ⟨hle.trans_lt hd, ?_⟩
  cases arch with
  | x86_64 | i386 => exact X86.fault_loopJump_mono rfl hle hd hjump
  | arm64 | riscv64 | s390x => exact fault_alignedJump_mono rfl rfl (by decide) hdvd hle hd hjump

end TapeElf
