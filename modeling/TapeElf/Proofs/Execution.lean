import Mathlib
import TapeElf.Proofs.Program

/-!
# What a program does

The tape has a cell for every integer. A program reads from an input of any kind, and what a read leaves in a
cell once the input has ended is a parameter too (`Console`).

* `State`: the tape, the pointer, the rest of the input, and the reads and writes so far;
* `Program.step`: one step of a program: it does its first op, or it leaves or unfolds the loop in front;
* `Runs io p s t`: `p` started in `s` ends in `t`; `Reaches io p s t`: at some time it is in `t`;
* `Performs io p s as`: at some time it has done the reads and writes `as`. For a program that does not end,
  these are the finite beginnings of all that it ever reads and writes.

The laws `runs_append`, `runs_loop` and their like for `Reaches` say what a program does by what its parts do; a
loop is its `Laps`, the runs of its body that start on a cell other than zero.
-/

namespace TapeElf

/-- What a program reads from. -/
structure Console (ι : Type*) where
  /-- The next byte and the input after it, unless the input has ended. -/
  next : ι → Option (UInt8 × ι)
  /-- What a read at the end of the input makes of a cell. -/
  atEnd : UInt8 → UInt8

/-- A byte that a program writes or reads, and the position of its cell; a read at the end of the input brings
none. -/
inductive Action where
  | write (position : Int) (b : UInt8)
  | read (position : Int) (b : Option UInt8)
deriving DecidableEq, Repr

/-- A state of a running program. -/
structure State (ι : Type*) where
  cells : Int → UInt8
  pointer : Int
  input : ι
  /-- What was written and read so far. -/
  actions : List Action

variable {ι : Type*}

namespace State

/-- The start: all cells are zero. -/
def initial (input : ι) : State ι := { cells := fun _ => 0, pointer := 0, input, actions := [] }

def cell (s : State ι) : UInt8 := s.cells s.pointer

def setCell (s : State ι) (v : UInt8) : State ι := { s with cells := Function.update s.cells s.pointer v }

def move (s : State ι) (k : Int) : State ι := { s with pointer := s.pointer + k }

@[simp] lemma cell_setCell (s : State ι) (v : UInt8) : (s.setCell v).cell = v := by
  simp [cell, setCell]

@[simp] lemma pointer_setCell (s : State ι) (v : UInt8) : (s.setCell v).pointer = s.pointer := rfl
@[simp] lemma actions_setCell (s : State ι) (v : UInt8) : (s.setCell v).actions = s.actions := rfl

@[simp] lemma setCell_setCell (s : State ι) (v w : UInt8) : (s.setCell v).setCell w = s.setCell w := by
  simp [setCell]

@[simp] lemma setCell_cell (s : State ι) : s.setCell s.cell = s := by
  simp [setCell, cell]

lemma move_move (s : State ι) (j k : Int) : (s.move j).move k = s.move (j + k) := by
  simp [move, Int.add_assoc]

@[simp] lemma move_zero (s : State ι) : s.move 0 = s := by
  simp [move]

end State

def Console.write (s : State ι) : State ι := { s with actions := s.actions ++ [.write s.pointer s.cell] }

def Console.read (io : Console ι) (s : State ι) : State ι :=
  match io.next s.input with
  | some (b, rest) =>
    { s.setCell b with input := rest, actions := s.actions ++ [.read s.pointer (some b)] }
  | none => { s.setCell (io.atEnd s.cell) with actions := s.actions ++ [.read s.pointer none] }

/-- What an op does. Brackets are left to the program that they are part of. -/
def Op.effect (io : Console ι) : Op → State ι → State ι
  | add n, s => s.setCell (s.cell + n.toUInt8)
  | sub n, s => s.setCell (s.cell - n.toUInt8)
  | right n, s => s.move n.toNat
  | left n, s => s.move (-n.toNat)
  | output, s => Console.write s
  | input, s => io.read s
  | clear, s => s.setCell 0
  | loopOpen, s | loopClose, s => s

/-! ## Steps -/

namespace Program

variable (io : Console ι)

/-- One step of a program; a program that has ended stays as it is. -/
def step : Program × State ι → Program × State ι
  | (nil, s) => (nil, s)
  | (op o rest, s) => (rest, o.val.effect io s)
  | (loop body rest, s) => if s.cell = 0 then (rest, s) else (body ++ loop body rest, s)

def run (n : Nat) (c : Program × State ι) : Program × State ι := (step io)^[n] c

/-- The program ends in the state `t`. -/
def Runs (p : Program) (s t : State ι) : Prop := ∃ n, run io n (p, s) = (nil, t)

/-- The program is in the state `t` at some time. -/
def Reaches (p : Program) (s t : State ι) : Prop := ∃ n, (run io n (p, s)).2 = t

/-- At some time the program has done the given reads and writes, if not more. -/
def Performs (p : Program) (s : State ι) (as : List Action) : Prop := ∃ t, Reaches io p s t ∧ as <+: t.actions

/-- The state after a time in the body of a loop: runs of the body, each of which starts on a cell other than
zero. -/
def Laps (b : Program) : State ι → State ι → Prop := Relation.ReflTransGen fun s t => s.cell ≠ 0 ∧ Runs io b s t

variable {io} {p q b : Program} {s t u : State ι} {n : Nat}

@[simp] lemma run_zero (c : Program × State ι) : run io 0 c = c := rfl
lemma run_succ (n : Nat) (c : Program × State ι) : run io (n + 1) c = run io n (step io c) := rfl

lemma run_add (m n : Nat) (c : Program × State ι) : run io (m + n) c = run io n (run io m c) := by
  rw [run, Nat.add_comm, Function.iterate_add_apply]
  rfl

@[simp] lemma run_nil (n : Nat) (s : State ι) : run io n (nil, s) = (nil, s) :=
  Function.iterate_fixed rfl n

lemma step_loop_zero (h : s.cell = 0) : step io (loop b p, s) = (p, s) := by
  rw [step, if_pos h]

lemma step_loop_ne (h : s.cell ≠ 0) : step io (loop b p, s) = (b ++ loop b p, s) := by
  rw [step, if_neg h]

lemma step_append (hp : p ≠ nil) (q : Program) (s : State ι) :
    step io (p ++ q, s) = ((step io (p, s)).1 ++ q, (step io (p, s)).2) := by
  rcases p with _ | ⟨o, p⟩ | ⟨b, p⟩
  · exact absurd rfl hp
  · rfl
  · by_cases h : s.cell = 0
    · rw [loop_append, step_loop_zero h, step_loop_zero h]
    · rw [loop_append, step_loop_ne h, step_loop_ne h]
      simp only [append_assoc, loop_append]

lemma Reaches.refl (p : Program) (s : State ι) : Reaches io p s s := ⟨0, rfl⟩

lemma Runs.reaches (h : Runs io p s t) : Reaches io p s t := by
  obtain ⟨n, hn⟩ := h
  exact ⟨n, by rw [hn]⟩

lemma runs_of_step {c : Program × State ι} (hc : step io (p, s) = c) (h : Runs io c.1 c.2 t) : Runs io p s t := by
  obtain ⟨n, hn⟩ := h
  exact ⟨n + 1, by rw [run_succ, hc, hn]⟩

lemma reaches_of_step {c : Program × State ι} (hc : step io (p, s) = c) (h : Reaches io c.1 c.2 t) :
    Reaches io p s t := by
  obtain ⟨n, hn⟩ := h
  exact ⟨n + 1, by rw [run_succ, hc, hn]⟩

/-! ## Ops -/

@[simp] lemma runs_nil : Runs io nil s t ↔ t = s := by
  constructor
  · rintro ⟨n, hn⟩
    rw [run_nil] at hn
    exact (Prod.ext_iff.mp hn).2.symm
  · rintro rfl
    exact ⟨0, rfl⟩

@[simp] lemma reaches_nil : Reaches io nil s t ↔ t = s := by
  constructor
  · rintro ⟨n, rfl⟩
    rw [run_nil]
  · rintro rfl
    exact .refl _ _

@[simp] lemma runs_op (o : PlainOp) : Runs io (op o p) s t ↔ Runs io p (o.val.effect io s) t := by
  constructor
  · rintro ⟨_ | n, hn⟩
    · cases hn
    · exact ⟨n, hn⟩
  · exact fun h => runs_of_step rfl h

lemma reaches_op (o : PlainOp) : Reaches io (op o p) s t ↔ t = s ∨ Reaches io p (o.val.effect io s) t := by
  constructor
  · rintro ⟨_ | n, hn⟩
    · exact .inl hn.symm
    · exact .inr ⟨n, hn⟩
  · rintro (rfl | h)
    · exact .refl _ _
    · exact reaches_of_step rfl h

/-! ## One program after another -/

/-- The first of two programs ends within some steps, or it is still in front after them. -/
lemma run_append (q : Program) (n : Nat) (p : Program) (s : State ι) :
    (∃ m t, m ≤ n ∧ run io m (p, s) = (nil, t) ∧ run io n (p ++ q, s) = run io (n - m) (q, t)) ∨
      run io n (p ++ q, s) = ((run io n (p, s)).1 ++ q, (run io n (p, s)).2) := by
  induction n generalizing p s with
  | zero => exact .inr rfl
  | succ n ih =>
    by_cases hp : p = nil
    · subst hp
      exact .inl ⟨0, s, Nat.zero_le _, rfl, rfl⟩
    · rw [run_succ, run_succ, step_append hp]
      rcases ih (step io (p, s)).1 (step io (p, s)).2 with ⟨m, t, hm, hrun, h⟩ | h
      · exact .inl ⟨m + 1, t, by omega, hrun, by rw [h, Nat.add_sub_add_right]⟩
      · exact .inr h

/-- When the first of two programs has ended, the second is in front. -/
lemma Runs.exists_run_append (h : Runs io p s t) (q : Program) : ∃ n, run io n (p ++ q, s) = (q, t) := by
  obtain ⟨n, hn⟩ := h
  induction n generalizing p s with
  | zero =>
    obtain ⟨rfl, rfl⟩ := Prod.mk.inj hn
    exact ⟨0, rfl⟩
  | succ n ih =>
    by_cases hp : p = nil
    · subst hp
      rw [run_nil] at hn
      obtain ⟨-, rfl⟩ := Prod.mk.inj hn
      exact ⟨0, rfl⟩
    · obtain ⟨m, hm⟩ := ih (p := (step io (p, s)).1) (s := (step io (p, s)).2) hn
      exact ⟨m + 1, by rw [run_succ, step_append hp, hm]⟩

/-- Two programs that end in some steps end one after the other, in no more steps. -/
lemma exists_run_of_append (h : run io n (p ++ q, s) = (nil, u)) :
    ∃ m k t, m + k ≤ n ∧ run io m (p, s) = (nil, t) ∧ run io k (q, t) = (nil, u) := by
  rcases run_append q n p s with ⟨m, t, hm, hp, hq⟩ | hpq
  · exact ⟨m, n - m, t, by omega, hp, by rw [← hq, h]⟩
  · rw [h] at hpq
    obtain ⟨hnil, rfl⟩ := Prod.mk.inj hpq
    have hops := congrArg ops hnil
    rw [ops_append, ops_nil] at hops
    obtain ⟨hp, hq⟩ := List.append_eq_nil_iff.mp hops.symm
    have hp : (run io n (p, s)).1 = nil := ops_injective hp
    have hq : q = nil := ops_injective hq
    subst hq
    exact ⟨n, 0, _, Nat.le_refl n, Prod.ext hp rfl, rfl⟩

theorem runs_append : Runs io (p ++ q) s u ↔ ∃ t, Runs io p s t ∧ Runs io q t u := by
  constructor
  · rintro ⟨n, hn⟩
    obtain ⟨m, k, t, -, hp, hq⟩ := exists_run_of_append hn
    exact ⟨t, ⟨m, hp⟩, ⟨k, hq⟩⟩
  · rintro ⟨t, hp, k, hq⟩
    obtain ⟨m, hm⟩ := hp.exists_run_append q
    exact ⟨m + k, by rw [run_add, hm, hq]⟩

theorem reaches_append : Reaches io (p ++ q) s u ↔ Reaches io p s u ∨ ∃ t, Runs io p s t ∧ Reaches io q t u := by
  constructor
  · rintro ⟨n, rfl⟩
    rcases run_append q n p s with ⟨m, t, -, hp, hq⟩ | hpq
    · exact .inr ⟨t, ⟨m, hp⟩, n - m, by rw [hq]⟩
    · exact .inl ⟨n, by rw [hpq]⟩
  · rintro (⟨n, rfl⟩ | ⟨t, hp, k, hq⟩)
    · rcases run_append q n p s with ⟨m, t, hm, hp, -⟩ | hpq
      · obtain ⟨k, hk⟩ := Runs.exists_run_append ⟨m, hp⟩ q
        refine ⟨k, ?_⟩
        obtain ⟨j, rfl⟩ := Nat.exists_eq_add_of_le hm
        rw [run_add, hp, run_nil, hk]
      · exact ⟨n, by rw [hpq]⟩
    · obtain ⟨m, hm⟩ := hp.exists_run_append q
      exact ⟨m + k, by rw [run_add, hm, hq]⟩

/-! ## Loops -/

/-- A lap puts the loop in front again. -/
lemma Laps.exists_run (h : Laps io b s t) (p : Program) : ∃ n, run io n (loop b p, s) = (loop b p, t) := by
  induction h using Relation.ReflTransGen.head_induction_on with
  | refl => exact ⟨0, rfl⟩
  | head hlap _ ih =>
    obtain ⟨m, hm⟩ := hlap.2.exists_run_append (loop b p)
    obtain ⟨n, hn⟩ := ih
    exact ⟨1 + (m + n), by rw [run_add, run_succ, step_loop_ne hlap.1, run_zero, run_add, hm, hn]⟩

lemma runs_loop_zero (h : s.cell = 0) : Runs io (loop b p) s u ↔ Runs io p s u := by
  constructor
  · rintro ⟨_ | n, hn⟩
    · cases hn
    · rw [run_succ, step_loop_zero h] at hn
      exact ⟨n, hn⟩
  · exact fun hp => runs_of_step (step_loop_zero h) hp

lemma reaches_loop_zero (h : s.cell = 0) : Reaches io (loop b p) s u ↔ Reaches io p s u := by
  constructor
  · rintro ⟨_ | n, hn⟩
    · cases hn
      exact .refl _ _
    · rw [run_succ, step_loop_zero h] at hn
      exact ⟨n, hn⟩
  · exact fun hp => reaches_of_step (step_loop_zero h) hp

theorem runs_loop : Runs io (loop b p) s u ↔ ∃ t, Laps io b s t ∧ t.cell = 0 ∧ Runs io p t u := by
  constructor
  · rintro ⟨n, hn⟩
    induction n using Nat.strongRecOn generalizing s with
    | ind n ih =>
      rcases n with _ | n
      · cases hn
      · rw [run_succ] at hn
        by_cases h : s.cell = 0
        · rw [step_loop_zero h] at hn
          exact ⟨s, .refl, h, n, hn⟩
        · rw [step_loop_ne h] at hn
          obtain ⟨m, k, t, hmk, hb, hloop⟩ := exists_run_of_append hn
          obtain ⟨t', hlaps, hzero, hrest⟩ := ih k (by omega) hloop
          exact ⟨t', .head ⟨h, m, hb⟩ hlaps, hzero, hrest⟩
  · rintro ⟨t, hlaps, hzero, k, hk⟩
    obtain ⟨n, hn⟩ := hlaps.exists_run p
    exact ⟨n + (1 + k), by rw [run_add, hn, run_add, run_succ, step_loop_zero hzero, run_zero, hk]⟩

theorem reaches_loop : Reaches io (loop b p) s u ↔
    ∃ t, Laps io b s t ∧ (t.cell ≠ 0 ∧ Reaches io b t u ∨ t.cell = 0 ∧ Reaches io p t u) := by
  constructor
  · rintro ⟨n, hn⟩
    induction n using Nat.strongRecOn generalizing s with
    | ind n ih =>
      rcases n with _ | n
      · cases hn
        by_cases h : s.cell = 0
        · exact ⟨s, .refl, .inr ⟨h, .refl _ _⟩⟩
        · exact ⟨s, .refl, .inl ⟨h, .refl _ _⟩⟩
      · rw [run_succ] at hn
        by_cases h : s.cell = 0
        · rw [step_loop_zero h] at hn
          exact ⟨s, .refl, .inr ⟨h, n, hn⟩⟩
        · rw [step_loop_ne h] at hn
          rcases run_append (loop b p) n b s with ⟨m, t, hm, hb, hloop⟩ | hbody
          · rw [hloop] at hn
            obtain ⟨t', hlaps, hrest⟩ := ih (n - m) (by omega) hn
            exact ⟨t', .head ⟨h, m, hb⟩ hlaps, hrest⟩
          · rw [hbody] at hn
            exact ⟨s, .refl, .inl ⟨h, n, hn⟩⟩
  · rintro ⟨t, hlaps, h⟩
    obtain ⟨n, hn⟩ := hlaps.exists_run p
    have key : Reaches io (loop b p) t u := by
      rcases h with ⟨hne, hb⟩ | ⟨hzero, hp⟩
      · exact reaches_of_step (step_loop_ne hne) (reaches_append.mpr (.inl hb))
      · exact reaches_of_step (step_loop_zero hzero) hp
    obtain ⟨k, hk⟩ := key
    exact ⟨n + k, by rw [run_add, hn, hk]⟩

end Program

end TapeElf
