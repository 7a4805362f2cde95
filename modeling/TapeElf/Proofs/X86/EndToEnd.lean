import TapeElf.Proofs.OptimizerMeaning
import TapeElf.Proofs.X86.Simulation

/-!
# Code for x86-64 does what its source says

`Implements w code size m p`: the machine `m` with the given code, on a tape of `size` cells, does what the program
`p` does from the start: the same reads and writes in the same order, at the addresses of the cells; it exits with
status 0 if the program ends, with the tape as the program leaves it, and else it goes on forever.

This holds of all code that is generated for x86-64, with or without the optimiser, for all runs of the program that
keep the pointer on the tape.
-/

namespace TapeElf.X86

open Program

variable {ι : Type*} {w : World ι} {code : Bytes} {size : Nat} {m : Machine ι} {p q : Program}

/-- A machine before its first step. Of the registers and flags nothing is said. -/
structure Machine.Starts (size : Nat) (m : Machine ι) : Prop where
  pc : m.pc = 0
  memory : ∀ k : Int, 0 ≤ k ∧ k < size → m.memory (address k) = 0
  calls : m.calls = []
  status : m.status = none

/-- At some time the machine has exited with a status. -/
def Exits (w : World ι) (code : Bytes) (m m' : Machine ι) (v : UInt64) : Prop :=
  ∃ n, run w code n m = some m' ∧ m'.status = some v

/-- The machine does what the program does. -/
structure Implements (w : World ι) (code : Bytes) (size : Nat) (m : Machine ι) (p : Program) : Prop where
  /-- It never traps. -/
  goes_on : ∀ n, ∃ m', run w code n m = some m'
  /-- The beginnings of what it reads and writes are those of what the program reads and writes. -/
  calls : ∀ calls, (∃ n m', run w code n m = some m' ∧ calls <+: m'.calls) ↔
    ∃ as, Performs w.console p (.initial m.input) as ∧ calls = as.map (Action.shift Elf.tapeAddress)
  exits : (∃ m', Exits w code m m' 0) ↔ ∃ t, Runs w.console p (.initial m.input) t
  at_exit : ∀ {m' v}, Exits w code m m' v → v = 0 ∧ ∃ t, Runs w.console p (.initial m.input) t ∧
    (∀ k : Int, 0 ≤ k ∧ k < size → m'.memory (address k) = t.cells k) ∧ m'.input = t.input ∧
      m'.calls = t.actions.map (Action.shift Elf.tapeAddress)

/-- What a machine implements is known from outside. -/
lemma Implements.of_sameBehaviour (h : Implements w code size m q)
    (hsame : SameBehaviour w.console (.initial m.input) p q) : Implements w code size m p where
  goes_on := h.goes_on
  calls calls := by simp only [h.calls, hsame.2]
  exits := by simp only [h.exits, hsame.1]
  at_exit hexit := by
    simp only [hsame.1]
    exact h.at_exit hexit

/-! ## From the simulation -/

lemma Follows.calls {c : Program × State ι} (h : Follows code size c m) :
    m.calls = c.2.actions.map (Action.shift Elf.tapeAddress) := by
  cases h with
  | running _ h => exact h.calls
  | exited h => exact h.calls

lemma Meets.of_exited {c : Program × State ι} {v : UInt64} (h : Meets w code size c m) (hv : m.status = some v) :
    v = 0 ∧ c.1 = nil ∧ Represents size c.2 { m with status := none } := by
  obtain ⟨n, m', hrun, h⟩ := h
  obtain rfl : m = m' := Option.some.inj ((run_of_exited hv n).symm.trans hrun)
  cases h with
  | running _ h =>
    rw [h.status] at hv
    cases hv
  | exited h =>
    cases hv
    exact ⟨rfl, rfl, h.pointer, h.memory, h.input, h.calls, rfl⟩

theorem implements_of_meets (hw : w.HasTape size)
    (hsafe : ∀ t, Reaches w.console p (.initial m.input) t → OnTape size t)
    (h : Meets w code size (p, .initial m.input) m) : Implements w code size m p := by
  have hforth := meets_run hw (fun j => hsafe _ ⟨j, rfl⟩) h
  have hback := exists_run_meets hw (fun j => hsafe _ ⟨j, rfl⟩) h
  refine ⟨fun n => ?_, fun calls => ⟨?_, ?_⟩, ⟨?_, ?_⟩, ?_⟩
  · obtain ⟨m', -, hrun, -⟩ := hback n
    exact ⟨m', hrun⟩
  · rintro ⟨n, m', hrun, hcalls⟩
    obtain ⟨m₁, j, hrun₁, k, m₂, hlater, hfollows⟩ := hback n
    obtain rfl : m' = m₁ := Option.some.inj (hrun.symm.trans hrun₁)
    have hprefix := hcalls.trans (calls_of_run hlater)
    rw [hfollows.calls] at hprefix
    obtain ⟨as, has, rfl⟩ := List.prefix_map_iff.mp hprefix
    exact ⟨as, ⟨_, ⟨j, rfl⟩, has⟩, rfl⟩
  · rintro ⟨as, ⟨t, ⟨j, rfl⟩, has⟩, rfl⟩
    obtain ⟨n, m', hrun, hfollows⟩ := hforth j
    refine ⟨n, m', hrun, ?_⟩
    rw [hfollows.calls]
    exact has.map _
  · rintro ⟨m', n, hrun, hstatus⟩
    obtain ⟨m₁, j, hrun₁, hmeets⟩ := hback n
    obtain rfl : m' = m₁ := Option.some.inj (hrun.symm.trans hrun₁)
    obtain ⟨-, hnil, -⟩ := hmeets.of_exited hstatus
    exact ⟨_, j, Prod.ext hnil rfl⟩
  · rintro ⟨t, j, hj⟩
    obtain ⟨n, m', hrun, hfollows⟩ := hforth j
    rw [hj] at hfollows
    obtain ⟨k, m'', -, hexit, -⟩ := exits_of_follows_nil (w := w) hfollows
    exact ⟨_, n + k, by rw [run, iterate?_add, ← run, hrun, Option.bind_some, hexit], rfl⟩
  · rintro m' v ⟨n, hrun, hstatus⟩
    obtain ⟨m₁, j, hrun₁, hmeets⟩ := hback n
    obtain rfl : m' = m₁ := Option.some.inj (hrun.symm.trans hrun₁)
    obtain ⟨hv, hnil, hend⟩ := hmeets.of_exited hstatus
    exact ⟨hv, _, ⟨j, Prod.ext hnil rfl⟩, hend.memory, hend.input, hend.calls⟩

/-- Generated code starts with the prologue, and then it meets its program. -/
lemma meets_of_starts (hm : m.Starts size) (hfits : Long.backend.Fits q)
    (hcode : code = Long.backend.bytes Long.backend.prologue ++ Long.backend.code q ++
      Long.backend.bytes Long.backend.epilogue) : Meets w code size (q, .initial m.input) m := by
  obtain ⟨m₁, hexec, hsame, hpointer⟩ := executes_prologue (w := w) hm.status
  have hwhole : Long.backend.bytes Long.backend.prologue ++
      (Long.backend.code q ++ Long.backend.bytes Long.backend.epilogue) <+: code.drop m.pc := by
    simp only [hm.pc, List.drop_zero, hcode, List.append_assoc, List.prefix_rfl]
  obtain ⟨n, hrun⟩ := hexec.2 code ((List.prefix_append _ _).trans hwhole)
  have hrest := prefix_drop_add hwhole
  rw [← hexec.1] at hrest
  have hat : At code m₁.pc (q ++ nil) :=
    .append hfits ((List.prefix_append _ _).trans hrest) (.nil (prefix_drop_add hrest))
  rw [append_nil] at hat
  refine ⟨n, m₁, hrun, .running hat ⟨hpointer, fun k hk => ?_, hsame.input, ?_, hsame.status.trans hm.status⟩⟩
  · rw [hsame.memory]
    exact hm.memory k hk
  · rw [hsame.calls]
    exact hm.calls

/-! ## From the source -/

/-- What is compiled for a source does what the source does. -/
lemma exists_refines_of_isSubject {source : Bytes} {optimized : Bool} (h : Generator.IsSubject source optimized q)
    (io : Console ι) : ∃ p : Program, p.ops = sourceOps source ∧ Refines io true p q := by
  cases optimized with
  | false => exact ⟨q, h, .refl true q⟩
  | true =>
    obtain ⟨p, q', hp, hq, href⟩ := exists_refines_of_optimize h io
    obtain rfl : q' = q := ops_injective hq
    exact ⟨p, hp, href⟩

/-- **Generated code does what the source says.** The source is a program `p`. On every machine with a tape, whatever
it reads from, the code implements `p`, if `p` keeps the pointer on the tape. -/
theorem generate_implements {source : Bytes} {optimized : Bool} {g : Generator}
    (h : Generator.generate Arch.x86_64.backend source optimized = (g, none)) :
    ∃ p : Program, p.ops = sourceOps source ∧
      ∀ {ι : Type*} (w : World ι) (size : Nat) (m : Machine ι), w.HasTape size → m.Starts size →
        (∀ t, Reaches w.console p (.initial m.input) t → OnTape size t) →
          Implements w g.code.toList size m p := by
  obtain ⟨q, hq, hfits, hcode⟩ := Generator.exists_program_of_generate Long.lawful h
  obtain ⟨p, hp, -⟩ := exists_refines_of_isSubject hq (⟨fun _ => none, id⟩ : Console Unit)
  refine ⟨p, hp, fun w size m hw hm hsafe => ?_⟩
  obtain ⟨p', hp', href⟩ := exists_refines_of_isSubject hq w.console
  obtain rfl : p' = p := ops_injective (hp'.trans hp.symm)
  have hzero : true = true → (State.initial m.input).cell = 0 := fun _ => rfl
  have hsafe' (t : State _) (ht : Reaches w.console q (.initial m.input) t) : OnTape size t := by
    obtain ⟨u, hu, -, hpointer⟩ := href.back hzero ht
    have := hsafe u hu
    rwa [OnTape, hpointer] at this
  exact (implements_of_meets hw hsafe' (meets_of_starts hm hfits hcode)).of_sameBehaviour (href.sameBehaviour hzero)

/-- A program that ends has only so many states. -/
lemma onTape_of_ends {io : Console ι} {s : State ι} (n : Nat) (hend : (Program.run io n (p, s)).1 = nil)
    (h : ∀ j ≤ n, OnTape size (Program.run io j (p, s)).2) (t : State ι) (ht : Reaches io p s t) : OnTape size t := by
  obtain ⟨j, rfl⟩ := ht
  rcases Nat.le_total j n with hj | hj
  · exact h j hj
  · obtain ⟨k, rfl⟩ := Nat.exists_eq_add_of_le hj
    have hlast : Program.run io n (p, s) = (nil, (Program.run io n (p, s)).2) := Prod.ext hend rfl
    rw [Program.run_add, hlast, run_nil]
    exact h n (Nat.le_refl n)

/-- The source `++>+[<.>-]` with the optimiser, on a tape of one block, with nothing to read: it writes the first cell
from inside a loop over the second. -/
theorem generate_implements_write_in_loop :
    let source : Bytes := [43, 43, 62, 43, 91, 60, 46, 62, 45, 93]
    let body : Program := op ⟨.left 1, rfl⟩ (op ⟨.output, rfl⟩ (op ⟨.right 1, rfl⟩ (op ⟨.sub 1, rfl⟩ nil)))
    let p : Program := op ⟨.add 1, rfl⟩ (op ⟨.add 1, rfl⟩ (op ⟨.right 1, rfl⟩ (op ⟨.add 1, rfl⟩ (loop body nil))))
    let g := (Generator.generate Arch.x86_64.backend source true).1
    let w : World Unit := {
      next _ := none
      mapped a := 0x10000 ≤ a.toNat && a.toNat < 0x11000
      residue n := ⟨n.toUInt64, 17, 18, true⟩ }
    let m : Machine Unit := {
      pc := 0, regs := fun r => r.toUInt64, zero := false
      memory := fun _ => 0, input := (), calls := [], status := none }
    Generator.generate Arch.x86_64.backend source true = (g, none) ∧ w.HasTape 0x1000 ∧ m.Starts 0x1000 ∧
      p.ops = sourceOps source ∧ (∀ t, Reaches w.console p (.initial m.input) t → OnTape 0x1000 t) ∧
        Implements w g.code.toList 0x1000 m p := by
  intro source body p g w m
  have h : Generator.generate Arch.x86_64.backend source true = (g, none) := Prod.ext rfl (by cbv)
  have hw : w.HasTape 0x1000 :=
    ⟨by decide, fun a hlo hhi => Bool.and_eq_true_iff.mpr ⟨decide_eq_true hlo, decide_eq_true hhi⟩⟩
  have hm : m.Starts 0x1000 := ⟨rfl, fun _ _ => rfl, rfl, rfl⟩
  have hp : p.ops = sourceOps source := by cbv
  have hsafe : ∀ t, Reaches w.console p (.initial m.input) t → OnTape 0x1000 t :=
    onTape_of_ends 10 (by cbv) (by unfold OnTape; decide)
  obtain ⟨p', hp', himp⟩ := generate_implements h
  obtain rfl : p = p' := ops_injective (hp.trans hp'.symm)
  exact ⟨h, hw, hm, hp, hsafe, himp w 0x1000 m hw hm hsafe⟩

end TapeElf.X86
