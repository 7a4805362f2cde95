import TapeElf.Proofs.X86.Decoding
import TapeElf.Target.X86.Long

/-!
# What pieces of code do

`Executes w bytes m m'`: a machine `m` that stands at the start of `bytes`, wherever in the code they are, runs
through them and is `m'` at their end. Pieces one after the other execute one after the other
(`Executes.append`), so the code of an operation is taken instruction by instruction, and that of an op operation
by operation.

* `Long.sets_load`: a constant is loaded exactly, in each of the four forms;
* `Long.executes_change`: a register is changed by a number modulo 2^64, at the cost of `rcx` and the flags.
-/

namespace TapeElf.X86

variable {ι : Type*} {w : World ι} {code a b : Bytes} {m m₁ m₂ : Machine ι} {i : Instr}

/-! ## Runs -/

lemma run_of_exited {v : UInt64} (h : m.status = some v) (n : Nat) : run w code n m = some m := by
  induction n with
  | zero => rfl
  | succ n ih => rw [run, iterate?, step, h, Option.bind_some, ← run, ih]

lemma calls_of_exec {wide : Bool} (h : exec w m wide i = some m₁) : m.calls <+: m₁.calls := by
  induction i generalizing wide with
  | wide i ih => exact ih h
  | syscall =>
    simp only [exec, Machine.syscall, Machine.read] at h
    repeat' split at h
    all_goals cases h
    all_goals simp [Machine.logged]
  | _ =>
    simp only [exec, Machine.alter, Machine.store, Machine.jump] at h
    repeat' split at h
    all_goals cases h
    all_goals exact List.prefix_rfl

lemma calls_of_run {n : Nat} (h : run w code n m = some m₁) : m.calls <+: m₁.calls := by
  induction n generalizing m with
  | zero =>
    cases h
    exact List.prefix_rfl
  | succ n ih =>
    obtain ⟨m', hstep, hrun⟩ := Option.bind_eq_some_iff.mp h
    refine List.IsPrefix.trans ?_ (ih hrun)
    unfold step at hstep
    split at hstep
    · cases hstep
      exact List.prefix_rfl
    split at hstep
    · exact (calls_of_exec hstep :)
    · cases hstep

lemma Instr.encode_pos (i : Instr) : 0 < i.encode.length := by
  cases i <;> simp [encode]

lemma step_eq_exec (hi : i.Regular) (hs : m.status = none) (h : i.encode <+: code.drop m.pc) :
    step w code m = exec w { m with pc := m.pc + i.encode.length } false i := by
  obtain ⟨rest, hrest⟩ := h
  have hlen := congrArg List.length hrest
  have := i.encode_pos
  rw [List.length_append, List.length_drop] at hlen
  rw [step, hs, ← hrest]
  simp only [decode_encode hi]
  rw [show code.length - rest.length = m.pc + i.encode.length by omega]

/-- The bytes lead from one state to another, wherever they are. -/
def Executes (w : World ι) (bytes : Bytes) (m m' : Machine ι) : Prop :=
  m'.pc = m.pc + bytes.length ∧
    ∀ code, bytes <+: code.drop m.pc → ∃ n, run w code n m = some m'

lemma Executes.nil (m : Machine ι) : Executes w [] m m := ⟨rfl, fun _ _ => ⟨0, rfl⟩⟩

lemma prefix_drop_add {pc : Nat} (h : a ++ b <+: code.drop pc) : b <+: code.drop (pc + a.length) := by
  obtain ⟨rest, hrest⟩ := h
  have hdrop : code.drop (pc + a.length) = b ++ rest := by
    rw [← List.drop_drop, ← hrest]
    simp
  exact ⟨rest, hdrop.symm⟩

lemma Executes.append (h : Executes w a m m₁) (h' : Executes w b m₁ m₂) : Executes w (a ++ b) m m₂ := by
  refine ⟨by rw [h'.1, h.1, List.length_append, Nat.add_assoc], fun code hcode => ?_⟩
  obtain ⟨j, hj⟩ := h.2 code ((List.prefix_append a b).trans hcode)
  obtain ⟨k, hk⟩ := h'.2 code (by rw [h.1]; exact prefix_drop_add hcode)
  exact ⟨j + k, by rw [run, iterate?_add, ← run, hj, Option.bind_some, hk]⟩

lemma executes_instr (hi : i.Regular) (hs : m.status = none)
    (h : exec w { m with pc := m.pc + i.encode.length } false i = some m₁)
    (hpc : m₁.pc = m.pc + i.encode.length) : Executes w i.encode m m₁ :=
  ⟨hpc, fun code hcode => ⟨1, by rw [run, iterate?_one, step_eq_exec hi hs hcode, h]⟩⟩

/-! ## Registers -/

/-- The machines differ in nothing but registers, flags and the place in the code. -/
structure SameData (m m' : Machine ι) : Prop where
  memory : m'.memory = m.memory
  input : m'.input = m.input
  calls : m'.calls = m.calls
  status : m'.status = m.status

lemma SameData.refl (m : Machine ι) : SameData m m := ⟨rfl, rfl, rfl, rfl⟩

lemma SameData.trans (h : SameData m m₁) (h' : SameData m₁ m₂) : SameData m m₂ :=
  ⟨h'.memory.trans h.memory, h'.input.trans h.input, h'.calls.trans h.calls, h'.status.trans h.status⟩

/-- The bytes set one register. -/
def Sets (w : World ι) (bytes : Bytes) (m : Machine ι) (r : UInt8) (v : UInt64) : Prop :=
  ∃ m', Executes w bytes m m' ∧ SameData m m' ∧ m'.regs = Function.update m.regs r v

lemma sets_instr {r : UInt8} {v : UInt64} (hi : i.Regular) (hs : m.status = none)
    (h : ∃ zero, exec w { m with pc := m.pc + i.encode.length } false i =
      some { m with pc := m.pc + i.encode.length, regs := Function.update m.regs r v, zero }) :
    Sets w i.encode m r v := by
  obtain ⟨zero, h⟩ := h
  exact ⟨_, executes_instr hi hs h rfl, ⟨rfl, rfl, rfl, rfl⟩, rfl⟩

/-! ## Constants -/

lemma toNat_ofInt (x : Int) : ((UInt64.ofInt x).toNat : Int) = x % 2 ^ 64 := by
  rw [UInt64.ofInt, UInt64.toNat_ofNat']
  omega

lemma toUInt64_eq_ofInt (v : Int64) : v.toUInt64 = UInt64.ofInt v.toInt := by
  have h : v.toInt = v.toBitVec.toInt := rfl
  have h' : v.toUInt64.toNat = v.toBitVec.toNat := rfl
  have := v.toBitVec.isLt
  rw [← UInt64.toNat_inj, ← Int.natCast_inj, toNat_ofInt, h, h', BitVec.toInt_eq_toNat_cond]
  split <;> omega

lemma toUInt64_word {v : Int64} (h : 0 ≤ v.toInt ∧ v.toInt < 2 ^ 32) :
    (UInt32.ofNat v.toInt.toNat).toUInt64 = v.toUInt64 := by
  rw [toUInt64_eq_ofInt, ← UInt64.toNat_inj, ← Int.natCast_inj, toNat_ofInt, UInt32.toNat_toUInt64,
    UInt32.toNat_ofNat']
  omega

/-- A word that spells a signed number, taken as sign-extended. -/
lemma toInt64_word {v : Int64} (h : fits 32 v.toInt = true) : (Int32.ofInt v.toInt).toInt64 = v := by
  simp only [fits, Bool.and_eq_true, decide_eq_true_eq] at h
  rw [← Int64.toInt_inj, Int32.toInt_toInt64, Int32.toInt_ofInt_of_le] <;> omega

/-- A number that leaves the sign bit alone is the same after a cut and a sign extension. -/
lemma signExtend_setWidth {k : Nat} {x : BitVec 64} (hk : k ≤ 64) (h : 2 * x.toNat < 2 ^ k) :
    (x.setWidth k).signExtend 64 = x := by
  have hpow : 2 ^ k ≤ 2 ^ 64 := Nat.pow_le_pow_right (by decide) hk
  have hnat : (x.setWidth k).toNat = x.toNat := by
    rw [BitVec.toNat_setWidth, Nat.mod_eq_of_lt (by omega)]
  rw [← BitVec.toInt_inj, BitVec.toInt_signExtend_of_le hk, BitVec.toInt_eq_toNat_of_lt (by omega),
    BitVec.toInt_eq_toNat_of_lt (by omega), hnat]

lemma toUInt64_signed_byte {n : UInt64} (h : n ≤ 0x7f) : n.toUInt8.toInt8.toInt64.toUInt64 = n := by
  have hn : n.toBitVec.toNat ≤ 0x7f := UInt64.le_iff_toNat_le.mp h
  exact UInt64.toBitVec_inj.mp (signExtend_setWidth (k := 8) (by decide) (by omega))

lemma toUInt64_signed_word {n : UInt64} (h : n ≤ 0x7fffffff) : n.toUInt32.toInt32.toInt64.toUInt64 = n := by
  have hn : n.toBitVec.toNat ≤ 0x7fffffff := UInt64.le_iff_toNat_le.mp h
  exact UInt64.toBitVec_inj.mp (signExtend_setWidth (k := 32) (by decide) (by omega))

namespace Long

/-- **A constant is loaded exactly.** -/
theorem sets_load (r : Reg) (v : Int64) (hs : m.status = none) :
    Sets w ((load r v).flatMap Instr.encode) m r.number v.toUInt64 := by
  unfold load
  dsimp only
  split
  · next h =>
    obtain rfl : v = 0 := Int64.toInt_inj.mp h
    rw [List.flatMap_singleton]
    exact sets_instr r.number_lt_eight hs ⟨true, rfl⟩
  split
  · next h =>
    rw [List.flatMap_singleton, ← toUInt64_word h]
    exact sets_instr r.number_lt_eight hs ⟨m.zero, rfl⟩
  split
  · next h =>
    have hreg : (Instr.wide (.movSigned r.number (Int32.ofInt v.toInt))).Regular := r.number_lt_eight
    rw [List.flatMap_singleton]
    refine sets_instr hreg hs ⟨m.zero, ?_⟩
    change some (Machine.set _ _ (Int32.ofInt v.toInt).toInt64.toUInt64) = _
    rw [toInt64_word h]
    rfl
  · rw [List.flatMap_singleton]
    exact sets_instr r.number_lt_eight hs ⟨m.zero, rfl⟩

lemma sets_result {r : UInt8} {v : UInt64} (hi : i.Regular) (hs : m.status = none)
    (h : exec w { m with pc := m.pc + i.encode.length } false i =
      some (Machine.result { m with pc := m.pc + i.encode.length } r v)) : Sets w i.encode m r v :=
  sets_instr hi hs ⟨v == 0, h⟩

lemma apply_zero (op : Arith) (x : UInt64) : op.apply x 0 = x := by
  cases op <;> simp [Arith.apply]

/-- **A register is changed by a number** modulo 2^64. Of the others only `rcx` may change with it. -/
theorem executes_change (op : Arith) (r : Reg) (hr : r ≠ .cx) (n : UInt64) (hs : m.status = none) :
    ∃ m', Executes w ((change op r n).flatMap Instr.encode) m m' ∧ SameData m m' ∧
      ∀ s ≠ 1, m'.regs s = Function.update m.regs r.number (op.apply (m.regs r.number) n) s := by
  have of_sets {bytes : Bytes} (h : Sets w bytes m r.number (op.apply (m.regs r.number) n)) :
      ∃ m', Executes w bytes m m' ∧ SameData m m' ∧
        ∀ s ≠ 1, m'.regs s = Function.update m.regs r.number (op.apply (m.regs r.number) n) s := by
    obtain ⟨m', hexec, hsame, hregs⟩ := h
    exact ⟨m', hexec, hsame, fun s _ => by rw [hregs]⟩
  unfold change
  split
  · next h =>
    subst h
    refine ⟨m, .nil m, .refl m, fun s _ => ?_⟩
    rw [apply_zero, Function.update_eq_self]
  split
  · next h =>
    have hreg : (Instr.wide (.arithByte op r.number n.toUInt8.toInt8)).Regular := r.number_lt_eight
    rw [List.flatMap_singleton]
    refine of_sets (sets_result hreg hs ?_)
    change some (Machine.result _ _ (op.apply _ n.toUInt8.toInt8.toInt64.toUInt64)) = _
    rw [toUInt64_signed_byte h]
  split
  · next h =>
    have hreg : (Instr.wide (.arithWord op r.number n.toUInt32)).Regular := r.number_lt_eight
    rw [List.flatMap_singleton]
    refine of_sets (sets_result hreg hs ?_)
    change some (Machine.result _ _ (op.apply _ n.toUInt32.toInt32.toInt64.toUInt64)) = _
    rw [toUInt64_signed_word h]
  · have hreg : (Instr.wide (.arith op r.number Reg.cx.number)).Regular :=
      ⟨r.number_lt_eight, Reg.number_lt_eight .cx⟩
    have hne : r.number ≠ 1 := by cases r <;> first | decide | exact absurd rfl hr
    rw [List.flatMap_append, List.flatMap_singleton]
    obtain ⟨m₁, hload, hsame₁, hregs₁⟩ := sets_load (w := w) .cx n.toInt64 hs
    obtain ⟨m₂, harith, hsame₂, hregs₂⟩ :=
      sets_result (w := w) (v := op.apply (m₁.regs r.number) (m₁.regs 1)) hreg (hsame₁.status.trans hs) rfl
    refine ⟨m₂, hload.append harith, hsame₁.trans hsame₂, fun s hs' => ?_⟩
    have hcx : m₁.regs 1 = n := by
      rw [hregs₁]
      exact Function.update_self _ _ _
    have hother (q : UInt8) (hq : q ≠ 1) : m₁.regs q = m.regs q := by
      rw [hregs₁]
      exact Function.update_of_ne hq _ _
    rw [hregs₂, hcx, hother _ hne]
    by_cases hsr : s = r.number
    · rw [hsr, Function.update_self, Function.update_self]
    · rw [Function.update_of_ne hsr, Function.update_of_ne hsr, hother s hs']

end Long

end TapeElf.X86
