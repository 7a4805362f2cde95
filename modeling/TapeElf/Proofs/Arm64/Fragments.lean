import TapeElf.Proofs.Arm64.Machine
import TapeElf.Proofs.Fragment

/-!
# What ARM64 code does

Constants (`maps_load`), the operations on the tape (`performs_emit`) and the loop jumps (`branches_loopJump`).

The first move of a constant fills the register with copies of one bit, the sign, and every move sets one halfword. So
after the moves of the lower halfwords the register holds the constant up to there and the sign above (`Patched`), also
where a halfword is skipped because it is nothing but copies of the sign.
-/

namespace TapeElf.Arm64

variable {r : Reg}

lemma encodes {i : Instr} (h : i.Regular) : processor.Encodes i.encode i := by
  refine ⟨?_, decode_encode h⟩
  rw [Instr.encode, length_littleBytes]
  decide

/-! ## Constants -/

lemma halfword_toInt (value : Int64) {k : Nat} (hk : k ≤ 48) : halfword value.toInt k = half value.toBitVec k := by
  have hhalf : (halfword value.toInt k).toBitVec = (value.toBitVec.sshiftRight k).setWidth 16 := by
    show BitVec.ofNat 16 (twos 16 (value.toBitVec.toInt >>> k)) = _
    rw [ofNat_twos, ← BitVec.toInt_sshiftRight, ← setWidth_ofInt (v := 64) (by decide), BitVec.ofInt_toInt]
  rw [← UInt16.toBitVec_inj, hhalf]
  apply BitVec.eq_of_getLsbD_eq
  intro j hj
  have hin : k + j < 64 := by omega
  have hin' : ¬ 64 ≤ j := by omega
  rw [getLsbD_half _ _ hj, BitVec.getLsbD_setWidth, BitVec.getLsbD_sshiftRight, decide_eq_true hj, if_pos hin,
    decide_eq_false hin', Bool.true_and, Bool.not_false, Bool.true_and]

/-- The move that fills the rest of the register with copies of a bit. -/
def lead (sign : Bool) : Move := if sign then .invert else .zero

lemma apply_lead (sign : Bool) (x : BitVec 64) (imm : UInt16) (shift : Nat) :
    (lead sign).apply x imm shift = insertHalf (BitVec.fill 64 sign) shift imm := by
  apply BitVec.eq_of_getLsbD_eq
  intro i hi
  rw [getLsbD_insertHalf _ _ _ hi, BitVec.getLsbD_fill]
  by_cases hlow : i < shift
  · have hout : ¬ (shift ≤ i ∧ i < shift + 16) := by omega
    cases sign <;> simp [lead, Move.apply, hlow, hout, hi]
  · by_cases hin : i - shift < 16
    · have hmid : shift ≤ i ∧ i < shift + 16 := by omega
      cases sign <;> simp [lead, Move.apply, hlow, hin, hmid, hi]
    · have hout : ¬ (shift ≤ i ∧ i < shift + 16) := by omega
      have himm := BitVec.getLsbD_of_ge imm.toBitVec (i - shift) (by omega)
      cases sign <;> simp [lead, Move.apply, hlow, hin, hout, hi, himm]

/-- What the moves make of a register: a halfword is set unless it is made of copies of the sign. -/
def patch (value : Int64) (sign : Bool) (x : BitVec 64) (shift : UInt8) : BitVec 64 :=
  let h := halfword value.toInt shift.toNat
  if h = fillHalf sign then x else insertHalf x shift.toNat h

lemma maps_movWide (kind : Move) (imm : UInt16) {shift : UInt8} (h : shift ∈ [0, 16, 32, 48]) :
    processor.Maps (Instr.movWide kind r imm shift).encode r.val fun x => kind.apply x imm shift.toNat :=
  (encodes (i := .movWide kind r imm shift) h).maps fun _ m => ⟨m.flags, rfl⟩

lemma maps_moves_keep (value : Int64) (sign : Bool) {shifts : List UInt8} (h : ∀ s ∈ shifts, s ∈ [0, 16, 32, 48]) :
    processor.Maps (assemble (moves r value.toInt (fillHalf sign) .keep shifts)).bytes r.val
      fun x => shifts.foldl (patch value sign) x := by
  induction shifts with
  | nil => exact Processor.maps_nil _
  | cons shift shifts ih =>
    obtain ⟨hshift, hshifts⟩ := List.forall_mem_cons.mp h
    rw [moves]
    split
    · next hfill =>
      simp only [List.foldl_cons, patch, hfill, if_true]
      exact ih hshifts
    · next hfill =>
      rw [Emission.bytes_assemble_cons]
      simp only [List.foldl_cons, patch, hfill, if_false]
      exact (maps_movWide .keep _ hshift).append (ih hshifts)

/-- The first move, if there is one, makes up for those that were skipped before it. -/
lemma maps_moves_lead (value : Int64) (sign : Bool) {shifts : List UInt8} (h : ∀ s ∈ shifts, s ∈ [0, 16, 32, 48]) :
    let instrs := moves r value.toInt (fillHalf sign) (lead sign) shifts
    let result := shifts.foldl (patch value sign) (BitVec.fill 64 sign)
    (instrs = [] ∧ result = BitVec.fill 64 sign) ∨
      (instrs ≠ [] ∧ processor.Maps (assemble instrs).bytes r.val fun _ => result) := by
  induction shifts with
  | nil => exact .inl ⟨rfl, rfl⟩
  | cons shift shifts ih =>
    obtain ⟨hshift, hshifts⟩ := List.forall_mem_cons.mp h
    rw [moves]
    dsimp only
    split
    · next hfill =>
      simp only [List.foldl_cons, patch, hfill, if_true]
      exact ih hshifts
    · next hfill =>
      have hlead := maps_movWide (r := r) (lead sign) (halfword value.toInt shift.toNat) hshift
      simp only [apply_lead] at hlead
      simp only [List.foldl_cons, patch, hfill, if_false]
      rw [Emission.bytes_assemble_cons]
      exact .inr ⟨List.cons_ne_nil _ _, hlead.append (maps_moves_keep value sign hshifts)⟩

lemma patched_patch {value : Int64} {sign : Bool} {x : BitVec 64} (shift : UInt8) (hshift : shift.toNat ≤ 48)
    (h : Patched value.toBitVec sign shift.toNat x) :
    Patched value.toBitVec sign (shift.toNat + 16) (patch value sign x shift) := by
  unfold patch
  dsimp only
  rw [halfword_toInt value hshift]
  split
  · next hfill => exact h.skip hfill
  · exact h.insert

lemma foldl_patch (value : Int64) (sign : Bool) :
    [0, 16, 32, 48].foldl (patch value sign) (BitVec.fill 64 sign) = value.toBitVec := by
  have h₀ : Patched value.toBitVec sign 0 (BitVec.fill 64 sign) := by
    intro i hi
    rw [BitVec.getLsbD_fill, decide_eq_true hi, Bool.and_true, if_neg (Nat.not_lt_zero i)]
  have h₁ := patched_patch 0 (by decide) h₀
  have h₂ := patched_patch 16 (by decide) h₁
  have h₃ := patched_patch 32 (by decide) h₂
  have h₄ := patched_patch 48 (by decide) h₃
  exact h₄.eq

lemma insertHalf_fillHalf (sign : Bool) (k : Nat) :
    insertHalf (BitVec.fill 64 sign) k (fillHalf sign) = BitVec.fill 64 sign := by
  apply BitVec.eq_of_getLsbD_eq
  intro i hi
  rw [getLsbD_insertHalf _ _ _ hi, BitVec.getLsbD_fill, decide_eq_true hi, Bool.and_true]
  split
  · rw [getLsbD_fillHalf sign (by omega)]
  · rfl

/-- The code for a constant is its moves, or, if there are none, a move that does nothing but fill. -/
lemma load_cases (r : Reg) (value : Int64) :
    let sign : Bool := value.toInt < 0
    let instrs := moves r value.toInt (fillHalf sign) (lead sign) [0, 16, 32, 48]
    (instrs = [] ∧ load r value = [.movWide (lead sign) r (fillHalf sign) 0]) ∨
      (instrs ≠ [] ∧ load r value = instrs) := by
  intro sign instrs
  have hsign : (if value.toInt < 0 then ((0xffff : UInt16), Move.invert) else (0, .zero)) =
      (fillHalf sign, lead sign) := by
    by_cases h : value.toInt < 0 <;> simp [sign, h, fillHalf, lead]
  unfold load
  simp only [hsign]
  split
  · next hnil => exact .inl ⟨hnil, rfl⟩
  · next hne => exact .inr ⟨hne, rfl⟩

/-- **Every constant is loaded.** -/
lemma maps_load (r : Reg) (value : Int64) :
    processor.Maps (assemble (load r value)).bytes r.val fun _ => value.toBitVec := by
  have hmoves : _ ∨ _ := maps_moves_lead (r := r) value (value.toInt < 0) fun _ h => h
  rw [foldl_patch] at hmoves
  rcases load_cases r value with ⟨hnil, hload⟩ | ⟨hne, hload⟩
  · -- The constant is nothing but copies of its sign.
    have hlead := maps_movWide (r := r) (lead (value.toInt < 0)) (fillHalf (value.toInt < 0))
      (show (0 : UInt8) ∈ [0, 16, 32, 48] by decide)
    simp only [apply_lead, insertHalf_fillHalf] at hlead
    obtain ⟨-, hfill⟩ := hmoves.resolve_right fun h => h.1 hnil
    rw [hload, Emission.bytes_assemble_singleton, hfill]
    exact hlead
  · rw [hload]
    exact (hmoves.resolve_left fun h => hne h.1).2

/-! ## The tape register -/

/-- The registers that generated code has set aside. -/
def usage : Usage where
  tape := 19
  scratch := some 17
  zero := none

lemma value_tape (m : Pe) : processor.value m usage.tape = m.regs usage.tape := rfl

def AddSub.move (op : AddSub) (n : BitVec 64) (t : Tape 64) : Tape 64 := { t with pointer := op.apply t.pointer n }

lemma AddSub.apply_zero (op : AddSub) (x : BitVec 64) : op.apply x 0 = x := by
  cases op with
  | add => exact BitVec.add_zero x
  | sub => exact BitVec.sub_zero x

lemma AddSub.apply_apply (op : AddSub) (x y z : BitVec 64) : op.apply (op.apply x y) z = op.apply x (y + z) := by
  cases op with
  | add => exact BitVec.add_assoc x y z
  | sub => exact BitVec.sub_sub x y z

/-- An immediate operand is a number of twelve bits, shifted by as many or not. -/
lemma maps_addSubImm (r : Reg) (op : AddSub) {n : UInt64} (h : n.toNat < 0x1000) (high : Bool) :
    processor.Maps (Instr.addSubImm op r r n.toUInt16 high).encode r.val
      fun x => op.apply x (n.toBitVec <<< if high then 12 else 0) := by
  have himm : n.toUInt16 < 0x1000 := by
    rw [UInt16.lt_iff_toNat_lt, UInt64.toNat_toUInt16]
    exact Nat.mod_lt_of_lt h
  have hvalue : n.toUInt16.toBitVec.setWidth 64 = n.toBitVec := by
    apply BitVec.eq_of_toNat_eq
    rw [BitVec.toNat_setWidth]
    show n.toUInt16.toNat % 2 ^ 64 = n.toNat
    rw [UInt64.toNat_toUInt16]
    omega
  rw [← hvalue]
  exact (encodes (i := .addSubImm op r r n.toUInt16 high) himm).maps fun _ m => ⟨m.flags, rfl⟩

lemma maps_addLow (r : Reg) (op : AddSub) {n : UInt64} (h : n.toNat < 0x1000) :
    processor.Maps (Instr.addSubImm op r r n.toUInt16 false).encode r.val fun x => op.apply x n.toBitVec := by
  simpa using maps_addSubImm r op h false

lemma maps_addHigh (r : Reg) (op : AddSub) {n : UInt64} (h : n.toNat < 0x1000) :
    processor.Maps (Instr.addSubImm op r r n.toUInt16 true).encode r.val fun x => op.apply x (n.toBitVec <<< 12) := by
  simpa using maps_addSubImm r op h true

lemma shiftLeft_div_add_mod (n : UInt64) : (n / 0x1000).toBitVec <<< 12 + (n % 0x1000).toBitVec = n.toBitVec := by
  apply BitVec.eq_of_toNat_eq
  have hn := n.toNat_lt
  have hdiv : (n / 0x1000).toBitVec.toNat = n.toNat / 0x1000 := UInt64.toNat_div n 0x1000
  have hmod : (n % 0x1000).toBitVec.toNat = n.toNat % 0x1000 := UInt64.toNat_mod n 0x1000
  rw [BitVec.toNat_add, BitVec.toNat_shiftLeft, hdiv, hmod, Nat.shiftLeft_eq]
  show _ = n.toNat
  omega

lemma performs_change (op : AddSub) (n : UInt64) :
    processor.Performs usage (assemble (change op 19 n)).bytes (op.move n.toBitVec) := by
  unfold change
  split
  · next hzero =>
    subst hzero
    exact Processor.performs_nil fun t => congrArg (Tape.mk · t.memory) (op.apply_zero t.pointer)
  split
  · next hlow =>
    rw [Emission.bytes_assemble_singleton]
    exact (maps_addLow 19 op (UInt64.lt_iff_toNat_lt.mp hlow)).performs value_tape
  split
  · next hhigh =>
    have hn : n.toNat < 0x1000000 := UInt64.lt_iff_toNat_lt.mp hhigh
    have hdiv : (n / 0x1000).toNat = n.toNat / 0x1000 := UInt64.toNat_div n 0x1000
    have hmod : (n % 0x1000).toNat = n.toNat % 0x1000 := UInt64.toNat_mod n 0x1000
    have hhigh := maps_addHigh 19 op (n := n / 0x1000) (by omega)
    have hlow : processor.Maps
        (assemble (if n % 0x1000 = 0 then [] else [.addSubImm op 19 19 (n % 0x1000).toUInt16 false])).bytes 19
        fun x => op.apply x (n % 0x1000).toBitVec := by
      split
      · next hzero =>
        rw [hzero]
        have hid : (fun x => op.apply x (0 : UInt64).toBitVec) = id := funext op.apply_zero
        rw [hid]
        exact Processor.maps_nil _
      · rw [Emission.bytes_assemble_singleton]
        exact maps_addLow 19 op (n := n % 0x1000) (by omega)
    have hboth := (hhigh.append hlow).performs (u := usage) value_tape
    simp only [Function.comp_apply, op.apply_apply, shiftLeft_div_add_mod] at hboth
    exact hboth
  · rw [Emission.bytes_assemble_append, Emission.bytes_assemble_singleton]
    apply Processor.performs_constant rfl (by decide) value_tape (maps_load scratch n.toInt64)
    intro m hm
    refine ⟨_, (encodes (i := .addSub op 19 19 scratch) trivial).passes rfl rfl, ?_, ?_⟩
    · show Tape.mk (op.apply (m.regs 19) (m.regs 17)) m.memory = Tape.mk (op.apply (m.regs 19) n.toBitVec) m.memory
      rw [show m.regs 17 = _ from hm]
      rfl
    · intro r hr _
      exact Function.update_of_ne hr _ _

/-! ## Cells -/

lemma passes_loadByte (hr : r ≠ scratch) (m : Pe) : ∃ m', processor.Passes (Instr.loadByte scratch r).encode m m' ∧
    m'.regs = Function.update m.regs 17 ((m.memory (m.regs r.val)).toBitVec.setWidth 64) ∧ m'.memory = m.memory :=
  ⟨_, (encodes (i := .loadByte scratch r) trivial).passes (if_neg hr.symm) rfl, rfl, rfl⟩

lemma passes_storeByte (hr : r ≠ scratch) (m : Pe) : ∃ m', processor.Passes (Instr.storeByte scratch r).encode m m' ∧
    m'.regs = m.regs ∧ m'.memory = Function.update m.memory (m.regs r.val) ⟨(m.regs 17).setWidth 8⟩ :=
  ⟨_, (encodes (i := .storeByte scratch r) trivial).passes (if_neg hr.symm) rfl, rfl, rfl⟩

def AddSub.applyByte : AddSub → UInt8 → UInt8 → UInt8
  | .add, x, y => x + y
  | .sub, x, y => x - y

lemma AddSub.setWidth_apply (op : AddSub) (b n : UInt8) :
    ⟨(op.apply (b.toBitVec.setWidth 64) n.toUInt64.toBitVec).setWidth 8⟩ = op.applyByte b n := by
  have hwiden (x : UInt8) : (x.toBitVec.setWidth 64).setWidth 8 = x.toBitVec := by
    rw [BitVec.setWidth_setWidth_of_le _ (by decide), BitVec.setWidth_eq]
  rw [UInt8.toBitVec_toUInt64]
  cases op with
  | add =>
    rw [apply, BitVec.setWidth_add _ _ (by decide), hwiden, hwiden]
    rfl
  | sub =>
    rw [apply, BitVec.sub_eq_add_neg, BitVec.setWidth_add _ _ (by decide), BitVec.setWidth_neg_of_le (by decide),
      hwiden, hwiden, ← BitVec.sub_eq_add_neg]
    rfl

lemma performs_changeCell (op : AddSub) (n : UInt8) :
    processor.Performs usage (assemble (changeCell op 19 n)).bytes (Tape.alter (op.applyByte · n)) := by
  have hn : n.toUInt64.toNat < 0x1000 := by
    rw [UInt8.toNat_toUInt64]
    exact n.toNat_lt.trans (by decide)
  rw [changeCell, Emission.bytes_assemble_cons, Emission.bytes_assemble_cons, Emission.bytes_assemble_singleton,
    ← UInt8.toUInt16_toUInt64]
  exact Processor.performs_alter rfl (by decide) value_tape (fun b => b.toBitVec.setWidth 64)
    (passes_loadByte (by decide)) (maps_addLow scratch op hn) (passes_storeByte (by decide))
    (fun b => op.setWidth_apply b n)

/-- **What the operations on the tape do.** -/
lemma performs_emit {x : Operation Reg} (h : x.OnTape 19) : processor.Performs usage (emit x).bytes x.act := by
  have hsub (d : BitVec 64) : AddSub.sub.move d = Tape.move (-d) := by
    funext t
    exact congrArg (Tape.mk · t.memory) (BitVec.sub_eq_add_neg t.pointer d)
  cases x with
  | incReg r =>
    obtain rfl : r = 19 := h
    exact performs_change .add 1
  | decReg r =>
    obtain rfl : r = 19 := h
    rw [Operation.act, ← hsub]
    exact performs_change .sub 1
  | addReg r n =>
    obtain rfl : r = 19 := h
    rw [Operation.act, BitVec.ofNat_uInt64ToNat]
    exact performs_change .add n
  | subReg r n =>
    obtain rfl : r = 19 := h
    rw [Operation.act, BitVec.ofNat_uInt64ToNat, ← hsub]
    exact performs_change .sub n
  | incCell r =>
    obtain rfl : r = 19 := h
    exact performs_changeCell .add 1
  | decCell r =>
    obtain rfl : r = 19 := h
    exact performs_changeCell .sub 1
  | addCell r n =>
    obtain rfl : r = 19 := h
    exact performs_changeCell .add n
  | subCell r n =>
    obtain rfl : r = 19 := h
    exact performs_changeCell .sub n
  | clearCell r =>
    obtain rfl : r = 19 := h
    rw [emit, Emission.bytes_assemble_singleton]
    intro m _
    exact ⟨_, (encodes (i := .storeZero 19) trivial).passes rfl rfl, rfl, fun _ _ _ => rfl⟩
  | load | copy | syscall | loopFiller | jumpIfZero | jumpIfNonzero => exact h.elim

/-! ## Loop jumps -/

/-- A jump is counted in words from the place of the branch. -/
lemma branches_loopJump (cond : Cond) (hr : r ≠ scratch) {v : Int} (halign : v % 4 = 0) (h : fits 21 (v + 4)) :
    processor.Branches usage.scratch
      (assemble [.loadByte scratch r, .testByte scratch, .branch cond ((v + 4) / 4)]).bytes r.val
      (fun b => cond.holds (b == 0)) v := by
  have hfits : fits 19 ((v + 4) / 4) := by
    rw [fits_iff] at h ⊢
    omega
  have hwords : 4 * ((v + 4) / 4) = v + 4 := by omega
  rw [Emission.bytes_assemble_cons, Emission.bytes_assemble_cons, Emission.bytes_assemble_singleton,
    ← List.append_assoc]
  refine (encodes (i := .branch cond ((v + 4) / 4)) hfits).branches cond.holds ?_ ?_
  · intro own m hpc
    show some (if cond.holds m.flags then m.goto (own + BitVec.ofInt 64 (4 * ((v + 4) / 4))) else m) = _
    rw [hwords, hpc]
    exact congrArg (fun a => some (if cond.holds m.flags then m.goto a else m)) (add_ofInt_add own 4 v)
  · intro m
    obtain ⟨m₁, hload, hregs, hmemory⟩ := passes_loadByte hr m
    refine ⟨_, hload.append ((encodes (i := .testByte scratch) trivial).passes rfl rfl), ?_, hmemory, ?_⟩
    · show cond.holds (decide ((m₁.regs 17).setWidth 8 = 0)) = cond.holds (m.memory (m.regs r.val) == 0)
      rw [hregs, Function.update_self, BitVec.setWidth_setWidth_of_le _ (by decide), BitVec.setWidth_eq, beq_eq_decide]
      simp only [← UInt8.toBitVec_inj]
      rfl
    · intro k hk
      exact (congrFun hregs k).trans (Function.update_of_ne (fun he => hk (congrArg some he.symm)) _ _)

end TapeElf.Arm64
