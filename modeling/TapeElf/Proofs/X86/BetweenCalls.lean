import TapeElf.Proofs.X86.Fragments
import TapeElf.Proofs.X86.Modes

/-!
# The machine between its system calls

A `Machine` is a processor in long mode with a system around it. Between two system calls the system has no part in what
it does: forget the system, place the code at some address, and each of its steps is a step of `Long.processor`
(`step_core`), so that its runs are runs of that processor too (`run_core`).

The machine finds its instructions in what is left of the code, and the processor in as many bytes as it fetches. They
find the same, since a decoder looks at no more bytes than it takes (`takesFront_decode`).
-/

namespace TapeElf.X86

/-! ## Decoding -/

section

variable {α β : Type*} {f g : Bytes → Option (α × Bytes)} {k n : Nat}

/-- The decoder takes at most `n` bytes, and what it finds depends on no others. -/
def TakesFront (n : Nat) (f : Bytes → Option (α × Bytes)) : Prop :=
  ∀ bytes a rest, f bytes = some (a, rest) →
    ∃ front, bytes = front ++ rest ∧ front.length ≤ n ∧ ∀ rest', f (front ++ rest') = some (a, rest')

namespace TakesFront

lemma mono (h : TakesFront k f) (hkn : k ≤ n) : TakesFront n f := by
  intro bytes a rest hf
  obtain ⟨front, hfront, hlen, hdec⟩ := h _ _ _ hf
  exact ⟨front, hfront, hlen.trans hkn, hdec⟩

lemma fail : TakesFront n fun _ => (none : Option (α × Bytes)) :=
  fun _ _ _ hf => nomatch hf

lemma pure (a : α) : TakesFront n fun rest => some (a, rest) := by
  intro bytes a rest hf
  cases hf
  exact ⟨[], rfl, Nat.zero_le n, fun _ => rfl⟩

lemma map (h : TakesFront n f) (φ : α → β) :
    TakesFront n fun bytes => (f bytes).map fun found => (φ found.1, found.2) := by
  intro bytes b rest hf
  obtain ⟨⟨a, _⟩, hfa, heq⟩ := Option.map_eq_some_iff.mp hf
  cases heq
  obtain ⟨front, hfront, hlen, hdec⟩ := h _ _ _ hfa
  exact ⟨front, hfront, hlen, fun rest' => congrArg (Option.map _) (hdec rest')⟩

lemma bind (o : Option β) {f : β → Bytes → Option (α × Bytes)} (h : ∀ b, TakesFront n (f b)) :
    TakesFront n fun bytes => o.bind fun b => f b bytes := by
  cases o with
  | none => exact fail
  | some b => exact h b

lemma ite {p : Prop} [Decidable p] (hf : TakesFront n f) (hg : TakesFront n g) :
    TakesFront n fun bytes => if p then f bytes else g bytes := by
  by_cases hp : p
  · simpa only [hp, if_true] using hf
  · simpa only [hp, if_false] using hg

lemma cons (hnil : f [] = none) {first : UInt8 → Bytes → Option (α × Bytes)}
    (hcons : ∀ b rest, f (b :: rest) = first b rest) (h : ∀ b, TakesFront n (first b)) : TakesFront (n + 1) f := by
  intro bytes a rest hf
  cases bytes with
  | nil =>
    rw [hnil] at hf
    cases hf
  | cons b bytes =>
    rw [hcons] at hf
    obtain ⟨front, rfl, hlen, hdec⟩ := h b _ _ _ hf
    refine ⟨b :: front, rfl, Nat.succ_le_succ hlen, fun rest' => ?_⟩
    rw [List.cons_append, hcons, hdec]

end TakesFront

end

lemma takesFront_takeLittle (n : Nat) : TakesFront n (takeLittle n) := by
  induction n with
  | zero => exact .pure 0
  | succ n ih => exact .cons rfl (fun _ _ => rfl) fun b => ih.map (b.toNat + 256 * ·)

lemma takesFront_decodeDirect (opcode reg rm : UInt8) : TakesFront 4 (decodeDirect opcode reg rm) := by
  have one := (takesFront_takeLittle 1).mono (n := 4) (by decide)
  have four := takesFront_takeLittle 4
  refine .ite (.ite (.pure _) .fail) (.ite (.pure _) (.ite (.pure _) (.ite (.pure _) (.ite ?_ (.ite ?_ (.ite ?_
    (.ite ?_ .fail)))))))
  · exact .ite (.pure _) (.ite (.pure _) .fail)
  · exact .ite (four.map fun n => Instr.movSigned rm (UInt32.ofNat n).toInt32) .fail
  · exact .bind _ fun op => one.map fun n => Instr.arithByte op rm (UInt8.ofNat n).toInt8
  · exact .bind _ fun op => four.map fun n => Instr.arithWord op rm (UInt32.ofNat n)

lemma takesFront_decodeIndirect (opcode digit rm : UInt8) : TakesFront 4 (decodeIndirect opcode digit rm) := by
  have one := (takesFront_takeLittle 1).mono (n := 4) (by decide)
  refine .ite (.ite (.pure _) (.ite (.pure _) .fail)) (.ite ?_ (.ite ?_ (.ite ?_ .fail)))
  · exact .bind _ fun op => one.map fun n => Instr.arithMem op rm (UInt8.ofNat n)
  · exact .ite (one.map fun n => Instr.movMem rm (UInt8.ofNat n)) .fail
  · exact .ite (one.map fun n => Instr.testMem rm (UInt8.ofNat n)) .fail

lemma takesFront_decodeExtended : TakesFront 5 decodeExtended := by
  have four := takesFront_takeLittle 4
  refine .cons rfl (fun _ _ => rfl) fun opcode => .ite (.pure _) (.ite (.pure _) (.ite ?_ (.ite ?_ .fail)))
  · exact four.map fun n => Instr.jcc .zero (UInt32.ofNat n).toInt32
  · exact four.map fun n => Instr.jcc .nonzero (UInt32.ofNat n).toInt32

lemma takesFront_decodeOpcode (opcode : UInt8) : TakesFront 5 (decodeOpcode opcode) := by
  have four := (takesFront_takeLittle 4).mono (n := 5) (by decide)
  refine .ite (.pure _) (.ite takesFront_decodeExtended (.ite ?_ ?_))
  · exact four.map fun n => Instr.movImm (opcode - 0xb8) (UInt32.ofNat n)
  · exact .cons rfl (fun _ _ => rfl) fun b =>
      .ite (takesFront_decodeDirect _ _ _) (.ite (takesFront_decodeIndirect _ _ _) .fail)

lemma takesFront_decodeWide (opcode : UInt8) : TakesFront 8 (decodeWide opcode) := by
  refine .ite ?_ ?_
  · exact (takesFront_takeLittle 8).map fun n => Instr.movWide (opcode - 0xb8) (UInt64.ofNat n)
  · exact ((takesFront_decodeOpcode opcode).mono (by decide)).map Instr.wide

/-- **No instruction is longer than ten bytes,** and what follows it does not matter. -/
theorem takesFront_decode : TakesFront 10 decode := by
  -- a prefix with nothing behind it is no instruction, whichever way it is read
  have hcons (b : UInt8) (rest : Bytes) :
      decode (b :: rest) = if b = 0x48 then rest.casesOn none decodeWide else decodeOpcode b rest := by
    cases rest with
    | nil =>
      split_ifs with h
      · subst h
        rfl
      · rfl
    | cons opcode rest => rfl
  refine .cons rfl hcons fun b => .ite ?_ ((takesFront_decodeOpcode b).mono (by decide))
  exact .cons rfl (fun _ _ => rfl) takesFront_decodeWide

/-- What is found at the front of some bytes is an instruction there. -/
lemma exists_encodes {bytes rest : Bytes} {i : Instr} (h : decode bytes = some (i, rest)) :
    ∃ front, bytes = front ++ rest ∧ Long.processor.Encodes front i := by
  obtain ⟨front, hfront, hlen, hdec⟩ := takesFront_decode _ _ _ h
  exact ⟨front, hfront, hlen.trans (by decide), hdec⟩

/-! ## States -/

variable {ι : Type*} {w : World ι} {code : Bytes} {m m' : Machine ι} {base : BitVec 64}

/-- What is left of a machine without the system, if its code is at an address. -/
def Machine.core (base : BitVec 64) (m : Machine ι) : Core 64 Bool where
  pc := base + BitVec.ofNat 64 m.pc
  regs r := if r < 256 then (m.regs (UInt8.ofNat r)).toBitVec else 0
  memory a := m.memory ⟨a⟩
  flags := m.zero

namespace Machine

lemma core_regs (m : Machine ι) (r : UInt8) : (m.core base).regs r.toNat = (m.regs r).toBitVec := by
  simp [core, r.toNat_lt]

lemma core_set (m : Machine ι) (r : UInt8) (v : UInt64) :
    (m.set r v).core base = (m.core base).set r.toNat v.toBitVec := by
  have hregs : ((m.set r v).core base).regs = Function.update (m.core base).regs r.toNat v.toBitVec := by
    funext k
    by_cases hk : k = r.toNat
    · subst hk
      rw [core_regs, Function.update_self]
      simp only [set, Function.update_self]
    · rw [Function.update_of_ne hk]
      simp only [core, set]
      split_ifs with hlt
      · have hne : UInt8.ofNat k ≠ r := by
          rintro rfl
          exact hk (Nat.mod_eq_of_lt hlt).symm
        rw [Function.update_of_ne hne]
      · rfl
  exact congrArg (fun regs => { m.core base with regs }) hregs

lemma core_update (m : Machine ι) (a : UInt64) (b : UInt8) :
    { m with memory := Function.update m.memory a b }.core base = (m.core base).store a.toBitVec b := by
  have hmemory : (fun x => Function.update m.memory a b ⟨x⟩) =
      Function.update (fun x => m.memory ⟨x⟩) a.toBitVec b := by
    funext x
    by_cases hx : x = a.toBitVec
    · subst hx
      rw [Function.update_self, Function.update_self]
    · have hne : (⟨x⟩ : UInt64) ≠ a := fun h => hx (congrArg UInt64.toBitVec h)
      rw [Function.update_of_ne hx, Function.update_of_ne hne]
  exact congrArg (fun memory => { m.core base with memory }) hmemory

end Machine

/-! ## Instructions -/

lemma toBitVec_sized (wide : Bool) (v : UInt64) : (sized wide v).toBitVec = cut wide v.toBitVec := by
  cases wide <;> rfl

lemma core_result (m : Machine ι) (wide : Bool) (r : UInt8) (v : UInt64) :
    (m.result r (sized wide v)).core base = setResult (m.core base) wide r v.toBitVec := by
  have hzero : (sized wide v == 0) = decide (cut wide v.toBitVec = 0) := by
    rw [← toBitVec_sized, beq_eq_decide]
    exact decide_eq_decide.mpr UInt64.toBitVec_inj.symm
  have hset : (m.set r (sized wide v)).core base = (m.core base).set r.toNat (cut wide v.toBitVec) := by
    rw [Machine.core_set, toBitVec_sized]
  show { (m.set r (sized wide v)).core base with flags := sized wide v == 0 } = _
  rw [hset, hzero]
  rfl

lemma core_store {r v : UInt8} (h : m.store w r v = some m') :
    (m.core base).store ((m.core base).regs r.toNat) v = m'.core base := by
  unfold Machine.store at h
  split_ifs at h
  cases h
  rw [Machine.core_update, Machine.core_regs]

lemma core_alter {r : UInt8} {f : UInt8 → UInt8} (h : m.alter w r f = some m') :
    alterByte (m.core base) r f = m'.core base := by
  obtain ⟨m₁, hstore, rfl⟩ := Option.map_eq_some_iff.mp h
  have hcore : (m.core base).store _ _ = m₁.core base := core_store hstore
  have hbyte : (m.core base).memory ((m.core base).regs r.toNat) = m.memory (m.regs r) := by
    rw [Machine.core_regs]
    rfl
  unfold alterByte
  dsimp only
  rw [hbyte, hcore]
  rfl

lemma core_jump {offset : Int} (h : m.jump offset = some m') :
    (m.core base).goto ((m.core base).pc + BitVec.ofInt 64 offset) = m'.core base := by
  unfold Machine.jump at h
  split_ifs at h with hpos
  cases h
  have hpc : BitVec.ofNat 64 (m.pc + offset).toNat = BitVec.ofNat 64 m.pc + BitVec.ofInt 64 offset := by
    rw [← BitVec.ofInt_natCast, Int.toNat_of_nonneg hpos, BitVec.ofInt_add, BitVec.ofInt_natCast]
  show { m.core base with pc := base + BitVec.ofNat 64 m.pc + BitVec.ofInt 64 offset } = _
  rw [BitVec.add_assoc, ← hpc]
  rfl

/-- A system call shows: it is in the log, or it is the exit. -/
lemma not_silent_of_syscall (h : m.syscall w = some m') : m'.calls ≠ m.calls ∨ m'.status ≠ none := by
  simp only [Machine.syscall, Machine.read] at h
  repeat' split at h
  all_goals cases h
  all_goals simp [Machine.logged]

/-- **An instruction that makes no system call does the same on both.** -/
theorem perform_core {wide : Bool} {i : Instr} (h : exec w m wide i = some m') (hcalls : m'.calls = m.calls)
    (hstatus : m'.status = none) : perform wide (m.core base) i = some (m'.core base) := by
  induction i generalizing wide with
  | wide i ih => exact ih h
  | syscall => exact absurd hstatus ((not_silent_of_syscall h).resolve_left (not_not.mpr hcalls))
  | ud2 | int80 => cases h
  | nop =>
    cases h
    rfl
  | xorSelf r =>
    cases h
    rw [perform, ← core_result m wide]
    cases wide <;> rfl
  | movImm r imm | movWide r imm =>
    cases h
    rw [perform, Machine.core_set]
    rfl
  | movSigned r imm =>
    cases h
    rw [perform, Machine.core_set, toBitVec_sized]
    rfl
  | mov dst src =>
    cases h
    rw [perform, Machine.core_set, toBitVec_sized, Machine.core_regs]
  | inc r | dec r =>
    cases h
    rw [perform, core_result, Machine.core_regs]
    rfl
  | arithByte op r imm | arithWord op r imm =>
    cases h
    rw [perform, core_result, Machine.core_regs]
    cases op <;> rfl
  | arith op dst src =>
    cases h
    rw [perform, core_result, Machine.core_regs, Machine.core_regs]
    cases op <;> rfl
  | incMem r | decMem r | arithMem op r imm => exact congrArg some (core_alter h)
  | movMem r imm => exact congrArg some (core_store h)
  | testMem r imm =>
    unfold exec at h
    split_ifs at h
    cases h
    rw [perform, Machine.core_regs]
    rfl
  | jcc cond offset =>
    have hcond : m.zero = (cond == .zero) ↔ cond.holds m.zero = true := by
      cases cond <;> cases m.zero <;> decide
    unfold exec at h
    rw [perform]
    show some (if cond.holds m.zero then _ else _) = _
    split_ifs at h with hzero
    · rw [if_pos (hcond.mp hzero), core_jump h]
    · cases h
      rw [if_neg (mt hcond.mpr hzero)]

/-! ## Steps and runs -/

variable {memory : BitVec 64 → UInt8}

/-- **A step without a system call is a step of the processor.** -/
theorem step_core (hcode : Holds memory base code) (hm : m.status = none) (h : step w code m = some m')
    (hcalls : m'.calls = m.calls) (hstatus : m'.status = none) :
    Long.processor.step memory (m.core base) = some (m'.core base) := by
  unfold step at h
  split at h
  · next hexit => exact nomatch hexit.symm.trans hm
  split at h
  · next i rest hdecode =>
    obtain ⟨front, hfront, hencodes⟩ := exists_encodes hdecode
    have hpc : m.pc ≤ code.length := by
      by_contra hlt
      rw [List.drop_of_length_le (by omega)] at hdecode
      cases hdecode
    have hlen := congrArg List.length hfront
    rw [List.length_append, List.length_drop] at hlen
    have hnext : code.length - rest.length = m.pc + front.length := by omega
    have hhere : Holds memory (m.core base).pc front := by
      rw [← List.take_append_drop m.pc code, hfront] at hcode
      have hbehind := (holds_append.mp (holds_append.mp hcode).2).1
      rwa [List.length_take_of_le hpc] at hbehind
    have hgoto : (m.core base).goto ((m.core base).pc + BitVec.ofNat 64 front.length) =
        { m with pc := code.length - rest.length }.core base := by
      rw [hnext]
      simp only [Core.goto, Machine.core, BitVec.ofNat_add, BitVec.add_assoc]
    rw [hencodes.step_eq hhere, hgoto]
    exact perform_core h hcalls hstatus
  · cases h

lemma status_of_run {n : Nat} (h : run w code n m = some m') (hstatus : m'.status = none) : m.status = none := by
  cases hm : m.status with
  | none => rfl
  | some v =>
    rw [run_of_exited hm] at h
    cases h
    exact hm.symm.trans hstatus

/-- **Between system calls the machine is the processor.** -/
theorem run_core (hcode : Holds memory base code) {n : Nat} (h : run w code n m = some m') (hcalls : m'.calls = m.calls)
    (hstatus : m'.status = none) : Long.processor.run memory n (m.core base) = some (m'.core base) := by
  induction n generalizing m with
  | zero =>
    cases h
    rfl
  | succ n ih =>
    have hm := status_of_run h hstatus
    obtain ⟨m₁, hstep, hrun⟩ := Option.bind_eq_some_iff.mp h
    -- no call is undone, so there was none in the first step
    have hfirst := calls_of_run (n := 1) (by rw [run, iterate?_one, hstep])
    have hcalls₁ : m₁.calls = m.calls :=
      (hfirst.eq_of_length_le ((calls_of_run hrun).length_le.trans (congrArg List.length hcalls).le)).symm
    rw [Processor.run, iterate?, step_core hcode hm hstep hcalls₁ (status_of_run hrun hstatus), Option.bind_some]
    exact ih hrun (hcalls.trans hcalls₁.symm)

end TapeElf.X86
