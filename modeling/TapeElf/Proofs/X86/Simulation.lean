import TapeElf.Proofs.Backpatching
import TapeElf.Proofs.X86.Representation

/-!
# Generated code follows the program

* `At code pc p`: a machine at `pc` in the code has the program `p` in front of it. A loop is in front of it at
  two places: at its opening jump, and at its closing jump, where its body has just ended;
* `Follows code size c m`: the machine `m` is as far as the program in the state `c`; `Meets w code size c m`: it
  will be, at some time.

A step of a program is some steps of the machine (`follows_step`), so the machine meets every state of the program
(`meets_run`). The other way round, an op may have no code; but ops make the program shorter, and the jumps of a loop
have code, so at any time the machine is on its way to a state of the program (`exists_run_meets`).
-/

namespace TapeElf.X86

open Program

variable {ι : Type*} {w : World ι} {code : Bytes} {size : Nat} {s : State ι} {m : Machine ι} {p q : Program}
  {pc start : Nat}

/-! ## Places in the code -/

/-- The program in front of a machine. -/
inductive At (code : Bytes) : Nat → Program → Prop
  | nil {pc : Nat} (here : Long.backend.bytes Long.backend.epilogue <+: code.drop pc) : At code pc nil
  | op {pc : Nat} {o : PlainOp} {p : Program} (here : Long.backend.opCode o.val <+: code.drop pc)
      (rest : At code (pc + (Long.backend.opCode o.val).length) p) : At code pc (op o p)
  | loop {start pc : Nat} {body p : Program} (fits : Long.backend.Fits body)
      (accepts : Long.backend.Accepts ((Long.backend.code body).length + jumpSize))
      (here : Long.backend.loopCode (Long.backend.code body) <+: code.drop start)
      (place : pc = start ∨ pc = start + jumpSize + (Long.backend.code body).length)
      (rest : At code (start + (Long.backend.loopCode (Long.backend.code body)).length) p) : At code pc (loop body p)

lemma At.append (hfits : Long.backend.Fits p) (here : Long.backend.code p <+: code.drop pc)
    (rest : At code (pc + (Long.backend.code p).length) q) : At code pc (p ++ q) := by
  induction p generalizing pc with
  | nil => exact rest
  | op o p ih =>
    rw [Backend.code] at here rest
    rw [List.length_append, ← Nat.add_assoc] at rest
    exact .op ((List.prefix_append _ _).trans here) (ih (Backend.fits_op.mp hfits).2 (prefix_drop_add here) rest)
  | loop body p _ ih =>
    rw [Backend.code] at here rest
    rw [List.length_append, ← Nat.add_assoc] at rest
    obtain ⟨hbody, hacc, hp⟩ := Backend.fits_loop.mp hfits
    exact .loop hbody hacc ((List.prefix_append _ _).trans here) (.inl rfl) (ih hp (prefix_drop_add here) rest)

/-! ## Loops -/

lemma jumps_of_accepts {d : Nat} (h : Long.backend.Accepts d) :
    ((Int64.ofNat d).toInt = d ∧ fits 32 (Int64.ofNat d).toInt = true) ∧
      (-Int64.ofNat d).toInt = -d ∧ fits 32 (-Int64.ofNat d).toInt = true := by
  obtain ⟨hd, hf⟩ := h
  have hd' : (Int64.ofNat d).toInt = d := Int64.toInt_ofNat_of_lt hd
  have hback := Long.lawful.jump_back _ (by omega) hf
  refine ⟨⟨hd', (fault_loopJump rfl .zero _).mp hf⟩, ?_, (fault_loopJump rfl .nonzero _).mp hback⟩
  rw [toInt_neg_of_nonneg (by omega), hd']

lemma length_loopJump (cond : Cond) {k : Int64} (hk : fits 32 k.toInt = true) :
    (loopJump cond .bx k).bytes.length = jumpSize :=
  (isJump_loopJump rfl cond k).length_eq ((fault_loopJump rfl cond k).mpr hk)

lemma parts_of_loopCode {bytes : Bytes} (accepts : Long.backend.Accepts (bytes.length + jumpSize))
    (here : Long.backend.loopCode bytes <+: code.drop start) :
    (loopJump .zero .bx (Int64.ofNat (bytes.length + jumpSize))).bytes <+: code.drop start ∧
      bytes <+: code.drop (start + jumpSize) ∧
      (loopJump .nonzero .bx (-Int64.ofNat (bytes.length + jumpSize))).bytes <+:
        code.drop (start + jumpSize + bytes.length) ∧
      (Long.backend.loopCode bytes).length = jumpSize + bytes.length + jumpSize := by
  obtain ⟨⟨-, hfits⟩, -, hfits'⟩ := jumps_of_accepts accepts
  have hparts : Long.backend.loopCode bytes =
      (loopJump .zero .bx (Int64.ofNat (bytes.length + jumpSize))).bytes ++ bytes ++
        (loopJump .nonzero .bx (-Int64.ofNat (bytes.length + jumpSize))).bytes := rfl
  have hlen := length_loopJump .zero hfits
  have hlen' := length_loopJump .nonzero hfits'
  rw [hparts] at here ⊢
  have hopen := (List.prefix_append _ _).trans here
  have hbody := prefix_drop_add hopen
  have hclose := prefix_drop_add here
  rw [hlen] at hbody
  rw [List.length_append, hlen, ← Nat.add_assoc] at hclose
  refine ⟨(List.prefix_append _ _).trans hopen, hbody, hclose, ?_⟩
  rw [List.length_append, List.length_append, hlen, hlen']

lemma toInt_word {k : Int64} (hk : fits 32 k.toInt = true) : (Int32.ofInt k.toInt).toInt = k.toInt := by
  simp only [fits, Bool.and_eq_true, decide_eq_true_eq] at hk
  exact Int32.toInt_ofInt_of_le (by omega) (by omega)

section

variable (hw : w.HasTape size) (h : Represents size s m) (hs : OnTape size s)
include hw h hs

/-- A loop jump tests the current cell, and goes to its target or on. -/
lemma run_loopJump {cond : Cond} {k : Int64} (hk : fits 32 k.toInt = true)
    (here : (loopJump cond .bx k).bytes <+: code.drop m.pc) (target : Nat)
    (htarget : (target : Int) = m.pc + jumpSize + k.toInt) :
    ∃ m', run w code 2 m = some m' ∧ Represents size s m' ∧
      m'.pc = if (s.cell == 0) = (cond == .zero) then target else m.pc + jumpSize := by
  rw [loopJump_eq rfl cond k hk] at here
  simp only [List.flatMap_cons, List.flatMap_nil, List.append_nil] at here
  let m₁ : Machine ι := { m with pc := m.pc + 3, zero := s.cell == 0 }
  have htest : step w code m = some m₁ := by
    rw [step_eq_exec (i := .testMem 3 0xff) regular_cell h.status ((List.prefix_append _ _).trans here)]
    have hmask : s.cell &&& 0xff = s.cell := UInt8.and_neg_one
    simp only [exec, h.mapped hs hw, if_true, h.cell hs, hmask]
    rfl
  have hjump : step w code m₁ =
      some { m₁ with pc := if (s.cell == 0) = (cond == .zero) then target else m.pc + jumpSize } := by
    rw [step_eq_exec (i := .jcc cond (Int32.ofInt k.toInt)) (m := m₁) trivial h.status (prefix_drop_add here)]
    change (if (s.cell == 0) = (cond == .zero) then Machine.jump { m₁ with pc := m.pc + jumpSize } _ else _) = _
    rw [toInt_word hk]
    split
    · have hpc : (((m.pc + jumpSize : Nat) : Int) + k.toInt).toNat = target := by omega
      rw [Machine.jump, if_pos (by dsimp only; omega), hpc]
    · rfl
  refine ⟨_, by rw [run, iterate?, htest, Option.bind_some, iterate?_one, hjump], ?_, rfl⟩
  exact ⟨h.pointer, h.memory, h.input, h.calls, h.status⟩

/-- Both jumps of a loop lead past the loop from a zero cell, and else to its body. -/
lemma run_loop {bytes : Bytes} (accepts : Long.backend.Accepts (bytes.length + jumpSize))
    (here : Long.backend.loopCode bytes <+: code.drop start)
    (place : m.pc = start ∨ m.pc = start + jumpSize + bytes.length) :
    ∃ m', run w code 2 m = some m' ∧ Represents size s m' ∧
      m'.pc = if s.cell = 0 then start + (Long.backend.loopCode bytes).length else start + jumpSize := by
  obtain ⟨hopen, -, hclose, hlen⟩ := parts_of_loopCode accepts here
  obtain ⟨⟨hd, hfits⟩, hd', hfits'⟩ := jumps_of_accepts accepts
  rw [hlen]
  rcases place with place | place
  · rw [← place] at hopen
    obtain ⟨m', hrun, h', hpc⟩ :=
      run_loopJump hw h hs hfits hopen (start + (jumpSize + bytes.length + jumpSize)) (by omega)
    refine ⟨m', hrun, h', hpc.trans ?_⟩
    simp [place]
  · rw [← place] at hclose
    obtain ⟨m', hrun, h', hpc⟩ := run_loopJump hw h hs hfits' hclose (start + jumpSize) (by omega)
    refine ⟨m', hrun, h', hpc.trans ?_⟩
    by_cases hzero : s.cell = 0
    · simp [hzero, place, Nat.add_assoc]
    · simp [hzero]

end

/-! ## Steps and runs -/

/-- The machine is as far as the program: on its way, or past the exit once the program has ended. -/
inductive Follows (code : Bytes) (size : Nat) : Program × State ι → Machine ι → Prop
  | running {p : Program} {s : State ι} {m : Machine ι} (place : At code m.pc p) (h : Represents size s m) :
      Follows code size (p, s) m
  | exited {s : State ι} {m : Machine ι} (h : Represents size s m) :
      Follows code size (nil, s) { m with status := some 0 }

/-- Once the program has ended, the machine exits. -/
lemma exits_of_follows_nil (h : Follows code size (nil, s) m) :
    ∃ n m', 0 < n ∧ run w code n m = some { m' with status := some 0 } ∧ Represents size s m' := by
  cases h with
  | running place h =>
    obtain ⟨here⟩ := place
    obtain ⟨m', hexec, h'⟩ := executes_epilogue (w := w) h
    obtain ⟨n, hrun⟩ := hexec.2 code here
    refine ⟨n, m', Nat.pos_of_ne_zero ?_, hrun, h'⟩
    rintro rfl
    have hstatus := congrArg (Option.map Machine.status) hrun
    simp [run, iterate?, h.status] at hstatus
  | exited h => exact ⟨1, _, Nat.one_pos, run_of_exited rfl 1, h⟩

/-- **A step of the program is some steps of the machine**, or the program gets shorter by it. -/
theorem follows_step (hw : w.HasTape size) {c : Program × State ι} (h : Follows code size c m)
    (hs : OnTape size c.2) :
    ∃ n m', run w code n m = some m' ∧ Follows code size (Program.step w.console c) m' ∧
      (0 < n ∨ (Program.step w.console c).1.ops.length < c.1.ops.length) := by
  obtain ⟨p, s⟩ := c
  cases p with
  | nil =>
    obtain ⟨n, m', hn, hrun, h'⟩ := exits_of_follows_nil (w := w) h
    exact ⟨n, _, hrun, .exited h', .inl hn⟩
  | op o p =>
    obtain ⟨_ | ⟨here, rest⟩, h⟩ := h
    obtain ⟨m', ⟨hpc, hexec⟩, h'⟩ := executes_op hw h hs o
    obtain ⟨n, hrun⟩ := hexec code here
    rw [← hpc] at rest
    exact ⟨n, m', hrun, .running rest h', .inr (Nat.lt_succ_self _)⟩
  | loop body p =>
    obtain ⟨_ | _ | ⟨hfits, haccepts, here, place, rest⟩, h⟩ := h
    obtain ⟨m', hrun, h', hpc⟩ := run_loop hw h hs haccepts here place
    refine ⟨2, m', hrun, ?_, .inl Nat.two_pos⟩
    by_cases hzero : s.cell = 0
    · rw [step_loop_zero hzero]
      rw [if_pos hzero] at hpc
      rw [← hpc] at rest
      exact .running rest h'
    · rw [step_loop_ne hzero]
      rw [if_neg hzero] at hpc
      obtain ⟨-, hbody, -⟩ := parts_of_loopCode haccepts here
      rw [← hpc] at hbody
      refine .running (.append hfits hbody (.loop hfits haccepts here (.inr ?_) rest)) h'
      rw [hpc]

/-- At some time the machine is as far as the program. -/
def Meets (w : World ι) (code : Bytes) (size : Nat) (c : Program × State ι) (m : Machine ι) : Prop :=
  ∃ n m', run w code n m = some m' ∧ Follows code size c m'

section

variable {c : Program × State ι} {m' : Machine ι} {n : Nat}

lemma Meets.of_run (hrun : run w code n m = some m') (h : Meets w code size c m') : Meets w code size c m := by
  obtain ⟨k, m'', hrun', h'⟩ := h
  exact ⟨n + k, m'', by rw [run, iterate?_add, ← run, hrun, Option.bind_some, hrun'], h'⟩

variable (hw : w.HasTape size) (hsafe : ∀ j, OnTape size (Program.run w.console j c).2)
include hw hsafe

/-- **The machine gets as far as the program ever gets.** -/
theorem meets_run (h : Meets w code size c m) (j : Nat) :
    Meets w code size (Program.run w.console j c) m := by
  induction j generalizing c with
  | zero => exact h
  | succ j ih =>
    obtain ⟨n, m₁, hrun, h₁⟩ := h
    obtain ⟨k, m₂, hrun', h₂, -⟩ := follows_step hw h₁ (hsafe 0)
    exact ih (fun i => hsafe (i + 1)) (.of_run hrun ⟨k, m₂, hrun', h₂⟩)

/-- The machine makes a step, and is still on its way: until it makes one, the program gets shorter. -/
lemma meets_step (h : Follows code size c m) :
    ∃ m' j, step w code m = some m' ∧ Meets w code size (Program.run w.console j c) m' := by
  induction hlen : c.1.ops.length using Nat.strongRecOn generalizing c m with
  | ind len ih =>
    obtain ⟨n, m₁, hrun, h₁, hn⟩ := follows_step hw h (hsafe 0)
    rcases n with _ | n
    · cases hrun
      obtain ⟨m', j, hstep, h'⟩ := ih _ (hlen ▸ hn.resolve_left (Nat.lt_irrefl 0)) (fun i => hsafe (i + 1)) h₁ rfl
      exact ⟨m', j + 1, hstep, h'⟩
    · obtain ⟨m', hstep, hrun'⟩ := Option.bind_eq_some_iff.mp hrun
      exact ⟨m', 1, hstep, n, m₁, hrun', h₁⟩

/-- **The machine never traps, and the program gets as far as the machine ever gets.** -/
theorem exists_run_meets (h : Meets w code size c m) (n : Nat) :
    ∃ m' j, run w code n m = some m' ∧ Meets w code size (Program.run w.console j c) m' := by
  induction n generalizing c m with
  | zero => exact ⟨m, 0, rfl, h⟩
  | succ n ih =>
    have hnext : ∃ m₁ j, step w code m = some m₁ ∧ Meets w code size (Program.run w.console j c) m₁ := by
      obtain ⟨_ | k, m₁, hrun, h₁⟩ := h
      · cases hrun
        exact meets_step hw hsafe h₁
      · obtain ⟨m', hstep, hrun'⟩ := Option.bind_eq_some_iff.mp hrun
        exact ⟨m', 0, hstep, k, m₁, hrun', h₁⟩
    obtain ⟨m₁, j, hstep, h₁⟩ := hnext
    have hsafe₁ (i : Nat) : OnTape size (Program.run w.console i (Program.run w.console j c)).2 := by
      rw [← Program.run_add]
      exact hsafe (j + i)
    obtain ⟨m', i, hrun, h'⟩ := ih hsafe₁ h₁
    rw [← Program.run_add] at h'
    exact ⟨m', j + i, by rw [run, iterate?, hstep, Option.bind_some, ← run, hrun], h'⟩

end

end TapeElf.X86
