import TapeElf.Proofs.Backpatching
import TapeElf.Proofs.GeneratorInvariant

/-!
# What stops code generation

`Arch.Stops` lists the causes for which a step can fail: a `]` that closes nothing, a loop that no jump passes over,
and on i386 a move by a count that takes more than 32 bits. A step fails for one of them only (`stops_of_step`), and so
generation either gets through its ops or fails at one of them (`stepsAt_cases`).
-/

namespace TapeElf

/-- Why a step can fail in the state `g`. -/
inductive Arch.Stops (arch : Arch) (g : Generator) : Op → Cause → Prop
  | unopened (h : g.loops = []) : Stops arch g .loopClose .unmatchedClose
  | tooFar (h : g.loops ≠ []) (k : Int) (bits : Nat) : Stops arch g .loopClose (.jumpTooLong k bits)
  /-- No memory can hold such a loop. -/
  | tooLarge (h : 2 ^ 63 ≤ g.code.size) : Stops arch g .loopClose .loopTooLarge
  | tooMany {op : Op} {n : UInt64} (harch : arch = .i386) (hop : op = .right n ∨ op = .left n)
      (hn : 2 ^ 32 ≤ n.toNat) : Stops arch g op (.immediateTooLarge n.toNat)

/-! ## Jumps -/

lemma cause_of_alignedJump {align bits : Nat} {past : Int} {k : Int64} {code : Emission} {f : Fault}
    (hf : code.fault = none) (hk : k.toInt % align = 0)
    (h : (Emission.alignedJump align bits past k code).fault = some f) :
    f = (Cause.jumpTooLong k.toInt bits).fault := by
  unfold Emission.alignedJump at h
  split at h
  · contradiction
  split at h
  · cases hf.symm.trans h
  · exact (Option.some.inj h).symm

lemma X86.cause_of_loopJump {cond : Cond} {r : Reg} {k : Int64} {f : Fault} (hr : canPoint r.number = true)
    (h : (loopJump cond r k).fault = some f) : f = (Cause.jumpTooLong k.toInt 32).fault := by
  by_cases hk : fits 32 k.toInt = true
  · rw [loopJump_eq hr cond k hk] at h
    cases h
  · rw [loopJump, if_neg hk] at h
    exact (Option.some.inj h).symm

/-- A jump over an aligned distance is refused only if it is too long. -/
lemma Arch.cause_of_jumpIfZero (arch : Arch) {k : Int64} {f : Fault} (hk : k.toInt % arch.alignment = 0)
    (h : (arch.backend.emit (.jumpIfZero arch.backend.roles.tape k)).fault = some f) :
    ∃ bits, f = (Cause.jumpTooLong k.toInt bits).fault := by
  cases arch with
  | x86_64 | i386 => exact ⟨32, X86.cause_of_loopJump rfl h⟩
  | arm64 => exact ⟨21, cause_of_alignedJump rfl hk h⟩
  | riscv64 => exact ⟨21, cause_of_alignedJump rfl hk h⟩
  | s390x => exact ⟨33, cause_of_alignedJump rfl hk h⟩

/-! ## Operations -/

lemma X86.Protected.cause_of_mem_operations {o : Op} {x : Operation Reg} {f : Fault}
    (hx : x ∈ backend.operations o) (hf : (emit x).fault = some f) :
    ∃ n : UInt64, (o = .right n ∨ o = .left n) ∧ 2 ^ 32 ≤ n.toNat ∧ f = (Cause.immediateTooLarge n.toNat).fault := by
  have hfault : ¬ backend.Faultless o := fun h => nomatch (h x hx).symm.trans hf
  simp only [faultless_iff, not_forall, Nat.not_lt] at hfault
  obtain ⟨n, ho, hn⟩ := hfault
  refine ⟨n, ho, hn, ?_⟩
  have hne : n ≠ 1 := by
    rintro rfl
    exact absurd hn (by decide)
  have hchange (op : Arith) (h : emit x = change op .si n) : f = (Cause.immediateTooLarge n.toNat).fault := by
    rw [h, fault_change, if_neg (Nat.not_lt.mpr hn)] at hf
    exact (Option.some.inj hf).symm
  rcases ho with rfl | rfl
  · rw [Backend.operations, if_neg hne] at hx
    exact hchange .add (congrArg emit (List.mem_singleton.mp hx))
  · rw [Backend.operations, if_neg hne] at hx
    exact hchange .sub (congrArg emit (List.mem_singleton.mp hx))

lemma Arch.stops_of_mem_operations (arch : Arch) (g : Generator) {o : Op} {x : Operation arch.backend.Reg} {f : Fault}
    (hx : x ∈ arch.backend.operations o) (hf : (arch.backend.emit x).fault = some f) :
    ∃ c : Cause, f = c.fault ∧ arch.Stops g o c := by
  have himpossible (h : arch ≠ .i386) : False := by
    have hfaultless := (arch.faultless_iff o).mpr fun h' => absurd h' h
    cases (hfaultless x hx).symm.trans hf
  cases arch with
  | i386 =>
    obtain ⟨n, ho, hn, hcause⟩ := X86.Protected.cause_of_mem_operations hx hf
    exact ⟨_, hcause, .tooMany rfl ho hn⟩
  | _ => exact (himpossible nofun).elim

namespace Generator

variable {arch : Arch} {g g' : Generator}

/-! ## Steps -/

lemma stops_of_closeLoop (inv : g.Invariant arch.backend arch.alignment) {f : Fault}
    (h : (closeLoop arch.backend g).2 = some f) : ∃ c : Cause, f = c.fault ∧ arch.Stops g .loopClose c := by
  cases hl : g.loops with
  | nil =>
    simp only [closeLoop, hl] at h
    exact ⟨_, (Option.some.inj h).symm, .unopened hl⟩
  | cons l loops =>
    have hmem : l ∈ g.loops := by rw [hl]; exact List.mem_cons_self
    rcases closeLoop_cases arch.lawful hl (inv.within l hmem) rfl with ⟨-, journal, hok⟩ | ⟨-, f', hfail, hcause⟩
    · rw [hok] at h
      cases h
    rw [hfail] at h
    obtain rfl : f' = f := Option.some.inj h
    rcases hcause with ⟨hlarge, rfl⟩ | ⟨hsmall, hjump⟩
    · exact ⟨_, rfl, .tooLarge (by omega)⟩
    -- fillers stand at aligned offsets, so the distance is aligned and only its size is left to blame
    have hdvd : arch.alignment ∣ g.code.size - l.offset := Nat.dvd_sub inv.dvd_size (inv.dvd_offset l hmem)
    have hk : (Int64.ofNat (g.code.size - l.offset)).toInt % arch.alignment = 0 := by
      rw [Int64.toInt_ofNat_of_lt hsmall]
      exact Int.emod_eq_zero_of_dvd (Int.natCast_dvd_natCast.mpr hdvd)
    obtain ⟨bits, hbits⟩ := arch.cause_of_jumpIfZero hk hjump
    exact ⟨_, hbits, .tooFar (by rw [hl]; exact List.cons_ne_nil l loops) _ bits⟩

/-- **A step fails for one of the causes of `Stops` only.** -/
theorem stops_of_step (inv : g.Invariant arch.backend arch.alignment) {op : Op} {location : Option Location} {f : Fault}
    (h : (step arch.backend g op location).2 = some f) : ∃ c : Cause, f = c.fault ∧ arch.Stops g op c := by
  cases hop : op.isBracket with
  | false =>
    rw [step_plain arch.backend g ⟨op, hop⟩ location] at h
    obtain ⟨x, hx, hf⟩ := exists_mem_of_emitAll h
    exact arch.stops_of_mem_operations g hx hf
  | true =>
    cases op with
    | loopOpen =>
      change (openLoop arch.backend g location).2 = some f at h
      rw [openLoop_eq arch.lawful] at h
      cases h
    | loopClose => exact stops_of_closeLoop inv h
    | _ => cases hop

lemma loops_of_step {b : Backend} {op : Op} {location : Option Location} (h : step b g op location = (g', none)) :
    match op with
    | .loopOpen => g'.loops = { location, offset := g.code.size } :: g.loops
    | .loopClose => ∃ l, g.loops = l :: g'.loops
    | _ => g'.loops = g.loops := by
  have hplain (hop : op.isBracket = false) : g'.loops = g.loops := by
    rcases step_op b g ⟨op, hop⟩ location with ⟨-, journal, hstep⟩ | ⟨-, _, _, hstep⟩
    · cases h.symm.trans hstep
      rfl
    · cases h.symm.trans hstep
  cases op with
  | loopOpen =>
    obtain ⟨rfl, -⟩ := Prod.ext_iff.mp h
    rfl
  | loopClose => exact exists_loops_eq_of_closeLoop h
  | _ => exact hplain rfl

/-! ## Runs -/

/-- Generation gets to the state `g₁` by the ops of `before`, and fails at the op after them, for the cause `c`. -/
structure StopsAt (arch : Arch) (g : Generator) (before : List (Op × Option Location)) (op : Op)
    (location : Option Location) (g₁ g' : Generator) (c : Cause) : Prop where
  reached : stepsAt arch.backend g before = (g₁, none)
  fails : step arch.backend g₁ op location = (g', some c.fault)
  cause : arch.Stops g₁ op c

namespace StopsAt

variable {before : List (Op × Option Location)} {op : Op} {location : Option Location} {g₁ : Generator} {c : Cause}
  (h : StopsAt arch g before op location g₁ g' c)
include h

lemma stepsAt_eq (rest : List (Op × Option Location)) :
    stepsAt arch.backend g (before ++ (op, location) :: rest) = (g', some (c.fault.orContext op.symbol location)) := by
  rw [stepsAt_append_of_ok h.reached, stepsAt_cons_of_fault h.fails]

lemma size_le (inv : g.Invariant arch.backend arch.alignment) : g₁.code.size ≤ g'.code.size := by
  have hinv := (stepsAt_invariant arch.lawful inv before .plenty).1
  rw [h.reached] at hinv
  have hsize := (step_change arch.lawful hinv op location .plenty).1.size_le
  rwa [h.fails] at hsize

end StopsAt

/-- **Generation gets through its ops or fails at one of them.** -/
theorem stepsAt_cases (inv : g.Invariant arch.backend arch.alignment) (located : List (Op × Option Location)) :
    (∃ g', stepsAt arch.backend g located = (g', none)) ∨
      ∃ before op location rest g₁ g' c, located = before ++ (op, location) :: rest ∧
        StopsAt arch g before op location g₁ g' c := by
  induction located generalizing g with
  | nil => exact .inl ⟨g, rfl⟩
  | cons x located ih =>
    rcases hx : step arch.backend g x.1 x.2 with ⟨g₁, _ | f⟩
    · have hchange := (step_change arch.lawful inv x.1 x.2 .plenty).1
      rw [hx] at hchange
      rw [stepsAt_cons_of_ok hx]
      rcases ih (hchange.invariant arch.lawful inv) with hok | ⟨before, op, location, rest, g₂, g', c, rfl, hstop⟩
      · exact .inl hok
      · have hreached := (stepsAt_cons_of_ok hx before).trans hstop.reached
        exact .inr ⟨x :: before, op, location, rest, g₂, g', c, rfl, hreached, hstop.fails, hstop.cause⟩
    · obtain ⟨c, rfl, hstops⟩ := stops_of_step inv (congrArg Prod.snd hx)
      exact .inr ⟨[], x.1, x.2, located, g, g₁, c, rfl, rfl, hx, hstops⟩

end Generator

end TapeElf
