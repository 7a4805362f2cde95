import TapeElf.Proofs.OptimizedSize
import TapeElf.Proofs.Stopping

/-!
# The code of a program that breaks off

Generation stops at the first op that fails, and what was generated before it stays. This code too can be said without
patches. The ops before a failure are a `Beginning`: whole programs, each but the last followed by a `[` that nothing
closes. Its code is that of the programs, with a filler for each of these brackets (`Backend.beginningCode`).

* `exists_beginning`: ops that close no loop too many are a beginning;
* `stepsAt_beginning`: a beginning is compiled to its code, whatever code is before it;
* `Beginning.Refuses`: the ops at which generation stops after a beginning, and what they leave behind;
* `Arch.Generates`: the code of a source, whole or in part. There is exactly one (`exists_generates`,
  `generate_of_generates`).
-/

namespace TapeElf

open Program

/-- The beginning of a program: what stands before each `[` that is not closed, the outermost first, and what stands
after the last of them. -/
structure Beginning where
  outer : List Program
  last : Program

def Beginning.ops (t : Beginning) : List Op := (t.outer.flatMap fun p => p.ops ++ [.loopOpen]) ++ t.last.ops

lemma Beginning.ops_cons (p : Program) (outer : List Program) (last : Program) :
    (Beginning.mk (p :: outer) last).ops = p.ops ++ .loopOpen :: (Beginning.mk outer last).ops := by
  simp [Beginning.ops]

lemma exists_beginning {ops : List Op} {d : Nat} (h : depth? 0 ops = some d) :
    ∃ t : Beginning, t.outer.length = d ∧ t.ops = ops := by
  -- from the end, where an op goes into the last part, starts a new one, or closes the last but one
  induction ops using List.reverseRecOn generalizing d with
  | nil =>
    cases h
    exact ⟨⟨[], .nil⟩, rfl, rfl⟩
  | append_singleton ops o ih =>
    rw [depth?_append] at h
    obtain ⟨e, he, ho⟩ := Option.bind_eq_some_iff.mp h
    obtain ⟨⟨outer, last⟩, rfl, rfl⟩ := ih he
    rw [depth?_cons] at ho
    obtain ⟨d', hstep, hd⟩ := Option.bind_eq_some_iff.mp ho
    obtain rfl : d' = d := Option.some.inj hd
    by_cases hop : o.isBracket = false
    · rw [Op.depth?_plain hop] at hstep
      refine ⟨⟨outer, last ++ .op ⟨o, hop⟩ .nil⟩, Option.some.inj hstep, ?_⟩
      simp [Beginning.ops]
    · cases o with
      | loopOpen =>
        refine ⟨⟨outer ++ [last], .nil⟩, ?_, ?_⟩
        · rw [List.length_append]
          exact Option.some.inj hstep
        · simp [Beginning.ops]
      | loopClose =>
        rcases List.eq_nil_or_concat' outer with rfl | ⟨outer, p, rfl⟩
        · cases hstep
        · refine ⟨⟨outer, p ++ .loop last .nil⟩, ?_, ?_⟩
          · rw [List.length_append, List.length_singleton] at hstep
            exact Option.some.inj hstep
          · simp [Beginning.ops]
      | _ => exact absurd rfl hop

namespace Backend

variable (b : Backend)

/-- The code of a beginning: fillers stand for the brackets that are not closed. -/
def beginningCode (t : Beginning) : Bytes :=
  (t.outer.flatMap fun p => b.code p ++ (b.emit .loopFiller).bytes) ++ b.code t.last

/-- The target has code for all parts of a beginning. -/
def FitsBeginning (t : Beginning) : Prop := (∀ p ∈ t.outer, b.Fits p) ∧ b.Fits t.last

end Backend

/-! ## Compiling a beginning -/

namespace Generator

variable {b : Backend} {align : Nat} {g g' : Generator}

/-- `g'` is what becomes of `g` when the beginning `t` is compiled. -/
structure Begins (b : Backend) (g : Generator) (t : Beginning) (g' : Generator) : Prop where
  code : g'.code = g.code.append (b.beginningCode t)
  closed : t.outer = [] → g'.loops = g.loops
  /-- The filler of the innermost loop stands before the last part. -/
  innermost : t.outer ≠ [] → ∃ (before : Code) (location : Option Location) (loops : List OpenLoop),
    g'.loops = { location, offset := before.size } :: loops ∧
      g'.code = before.append ((b.emit .loopFiller).bytes ++ b.code t.last)

/-- **A beginning is compiled to its code,** or generation fails in it. -/
theorem stepsAt_beginning (law : b.Lawful align) (t : Beginning) (g : Generator)
    {located : List (Op × Option Location)} (h : located.map Prod.fst = t.ops) :
    b.FitsBeginning t ∧ (∃ g', stepsAt b g located = (g', none) ∧ Begins b g t g') ∨
      ¬ b.FitsBeginning t ∧ ∃ g' f, stepsAt b g located = (g', some f) := by
  obtain ⟨outer, last⟩ := t
  induction outer generalizing g located with
  | nil =>
    rcases stepsAt_ops law last g h with ⟨hfits, journal, hrun⟩ | ⟨hfits, hrun⟩
    · exact .inl ⟨⟨nofun, hfits⟩, _, hrun, rfl, fun _ => rfl, fun hne => absurd rfl hne⟩
    · exact .inr ⟨fun hall => hfits hall.2, hrun⟩
  | cons p outer ih =>
    rw [Beginning.ops_cons] at h
    obtain ⟨front, tail, rfl, hfront, htail⟩ := List.map_eq_append_iff.mp h
    obtain ⟨⟨-, location⟩, rest, rfl, rfl, hrest⟩ := List.map_eq_cons_iff.mp htail
    rcases stepsAt_ops law p g hfront with ⟨hp, journal, hrun⟩ | ⟨hp, g', f, hrun⟩
    · have hopen : step b ⟨g.code.append (b.code p), g.loops, journal⟩ .loopOpen location = _ :=
        openLoop_eq law _ location
      rw [stepsAt_append_of_ok hrun, stepsAt_cons_of_ok hopen]
      rcases ih _ hrest with ⟨hfits, g', hrun', hbegins⟩ | ⟨hfits, hrun'⟩
      · refine .inl ⟨⟨List.forall_mem_cons.mpr ⟨hp, hfits.1⟩, hfits.2⟩, g', hrun', ?_, nofun, fun _ => ?_⟩
        · rw [hbegins.code]
          simp [Backend.beginningCode]
        · -- the loop that was opened is the innermost one if no other follows
          rcases outer with _ | ⟨q, outer⟩
          · refine ⟨g.code.append (b.code p), location, g.loops, hbegins.closed rfl, ?_⟩
            rw [hbegins.code, Code.append_append]
            rfl
          · exact hbegins.innermost (List.cons_ne_nil q outer)
      · exact .inr ⟨fun hall => hfits ⟨(List.forall_mem_cons.mp hall.1).2, hall.2⟩, hrun'⟩
    · refine .inr ⟨fun hall => hp (List.forall_mem_cons.mp hall.1).1, g', f, ?_⟩
      exact stepsAt_append_of_fault hrun _

lemma exists_begins (law : b.Lawful align) (hg : g.loops = []) {located : List (Op × Option Location)}
    (h : stepsAt b g located = (g', none)) :
    ∃ t : Beginning, t.ops = located.map Prod.fst ∧ b.FitsBeginning t ∧ Begins b g t g' := by
  have hdepth := depth?_of_stepsAt h
  rw [hg] at hdepth
  obtain ⟨t, -, ht⟩ := exists_beginning hdepth
  rcases stepsAt_beginning law t g ht.symm with ⟨hfits, g₁, hrun, hbegins⟩ | ⟨-, g₁, f, hrun⟩
  · obtain rfl : g₁ = g' := congrArg Prod.fst (hrun.symm.trans h)
    exact ⟨t, ht, hfits, hbegins⟩
  · cases hrun.symm.trans h

end Generator

/-! ## Where generation stops -/

/-- Generation stops at an op after the beginning `t`, and the op leaves some bytes behind: a move on i386 by a count
that takes more than 32 bits is there with the low word of the count. -/
inductive Beginning.Refuses (t : Beginning) (arch : Arch) : Op → Bytes → Prop
  | unopened (h : t.outer = []) : Refuses t arch .loopClose []
  | tooLong (h : t.outer ≠ [])
      (hlong : ¬ arch.backend.Accepts ((arch.backend.code t.last).length + arch.backend.jumpSize)) :
      Refuses t arch .loopClose []
  | right {n : UInt64} (harch : arch = .i386) (hn : 2 ^ 32 ≤ n.toNat) :
      Refuses t arch (.right n) (X86.Instr.arithWord .add X86.Reg.si.number n.toUInt32).encode
  | left {n : UInt64} (harch : arch = .i386) (hn : 2 ^ 32 ≤ n.toNat) :
      Refuses t arch (.left n) (X86.Instr.arithWord .sub X86.Reg.si.number n.toUInt32).encode

lemma X86.Protected.bytes_change_of_large (op : Arith) (r : Reg) {n : UInt64} (hn : 2 ^ 32 ≤ n.toNat) :
    (change op r n).bytes = (Instr.arithWord op r.number n.toUInt32).encode := by
  have hzero : n ≠ 0 := by
    rintro rfl
    exact absurd hn (by decide)
  have hsmall : ¬ n ≤ 0x7f := by
    intro h
    have := UInt64.le_iff_toNat_le.mp h
    simp at this
    omega
  have hsize : ¬ n.toNat < UInt32.size := Nat.not_lt.mpr hn
  rw [change, if_neg hzero, if_neg hsmall, checked, if_neg (by simpa using hsize), assemble_eq rfl]
  simp

namespace Generator

variable {arch : Arch} {g g₁ : Generator} {t : Beginning} {op : Op} {location : Option Location}

/-- An op that is a single operation leaves the bytes of that operation, even if it fails. -/
lemma step_of_singleton {b : Backend} {o : PlainOp} {x : Operation b.Reg} {f : Fault} (hops : b.operations o.val = [x])
    (hf : (b.emit x).fault = some f) (g : Generator) (location : Option Location) :
    ∃ g', step b g o.val location = (g', some f) ∧ g'.code = g.code.append (b.emit x).bytes := by
  rw [step_plain, hops]
  simp only [emitAll, emit, hf, code_note]
  exact ⟨_, rfl, rfl⟩

/-- A move that is too large for i386 is there with the low word of the count. -/
lemma step_of_large {n : UInt64} (hn : 2 ^ 32 ≤ n.toNat) (g : Generator) (location : Option Location) :
    (∃ g' f, step X86.Protected.backend g (.right n) location = (g', some f) ∧
      g'.code = g.code.append (X86.Instr.arithWord .add X86.Reg.si.number n.toUInt32).encode) ∧
    ∃ g' f, step X86.Protected.backend g (.left n) location = (g', some f) ∧
      g'.code = g.code.append (X86.Instr.arithWord .sub X86.Reg.si.number n.toUInt32).encode := by
  have hne : n ≠ 1 := by
    rintro rfl
    exact absurd hn (by decide)
  have hfault (op : X86.Arith) : (X86.Protected.change op .si n).fault = some _ :=
    (X86.Protected.fault_change op .si n).trans (if_neg (Nat.not_lt.mpr hn))
  have hbytes (op : X86.Arith) := X86.Protected.bytes_change_of_large op .si hn
  constructor
  · obtain ⟨g', hstep, hcode⟩ := step_of_singleton (b := X86.Protected.backend) (o := ⟨.right n, rfl⟩) (if_neg hne)
      (hfault .add) g location
    exact ⟨g', _, hstep, hcode.trans (congrArg _ (hbytes .add))⟩
  · obtain ⟨g', hstep, hcode⟩ := step_of_singleton (b := X86.Protected.backend) (o := ⟨.left n, rfl⟩) (if_neg hne)
      (hfault .sub) g location
    exact ⟨g', _, hstep, hcode.trans (congrArg _ (hbytes .sub))⟩

lemma step_of_refuses (hg : g.loops = []) (hbegins : Begins arch.backend g t g₁) {left : Bytes}
    (h : t.Refuses arch op left) (location : Option Location) :
    ∃ g' f, step arch.backend g₁ op location = (g', some f) ∧ g'.code = g₁.code.append left := by
  cases h with
  | unopened houter =>
    have hloops : g₁.loops = [] := (hbegins.closed houter).trans hg
    refine ⟨g₁, Cause.unmatchedClose.fault, ?_, (Code.append_nil _).symm⟩
    show closeLoop arch.backend g₁ = _
    simp only [closeLoop, hloops]
  | tooLong houter hlong =>
    obtain ⟨before, location', loops, hloops, hcode⟩ := hbegins.innermost houter
    have hsize : g₁.code.size = before.size + ((arch.backend.code t.last).length + arch.backend.jumpSize) := by
      rw [hcode, Code.size_append, List.length_append, arch.lawful.filler_length]
      omega
    rcases closeLoop_cases (d := (arch.backend.code t.last).length + arch.backend.jumpSize) arch.lawful hloops
        (by dsimp only; omega) (by dsimp only; omega) with ⟨hacc, -⟩ | ⟨-, f, hclose, -⟩
    · exact absurd hacc hlong
    · exact ⟨_, f, hclose, (Code.append_nil _).symm⟩
  | right harch hn =>
    subst harch
    exact (step_of_large hn g₁ location).1
  | left harch hn =>
    subst harch
    exact (step_of_large hn g₁ location).2

/-- Generation stops at no other ops. -/
lemma refuses_of_step (hbegins : Begins arch.backend g t g₁) {g' : Generator} {f : Fault}
    (h : step arch.backend g₁ op location = (g', some f)) : ∃ left, t.Refuses arch op left := by
  by_cases hop : op.isBracket = false
  · rcases step_op arch.backend g₁ ⟨op, hop⟩ location with ⟨-, journal, hstep⟩ | ⟨hfault, -⟩
    · cases h.symm.trans hstep
    rw [arch.faultless_iff] at hfault
    simp only [Arch.CanMove, not_forall, Nat.not_lt] at hfault
    obtain ⟨harch, n, hn | hn, hlarge⟩ := hfault
    · subst hn
      exact ⟨_, .right harch hlarge⟩
    · subst hn
      exact ⟨_, .left harch hlarge⟩
  · cases op with
    | loopOpen => cases h.symm.trans (openLoop_eq arch.lawful g₁ location)
    | loopClose =>
      by_cases houter : t.outer = []
      · exact ⟨[], .unopened houter⟩
      refine ⟨[], .tooLong houter fun hacc => ?_⟩
      obtain ⟨before, location', loops, hloops, hcode⟩ := hbegins.innermost houter
      rcases step_loopClose arch.lawful before (arch.backend.code t.last) location' location loops g₁.journal
          (g := g₁) (by rw [← hcode, ← hloops]) with ⟨-, journal, hclose⟩ | ⟨hn, -⟩
      · cases h.symm.trans hclose
      · exact hn hacc
    | _ => exact absurd rfl hop

end Generator

/-! ## Ops -/

/-- The code that is generated for some ops, and whether generation succeeds. -/
inductive Arch.Yields (arch : Arch) (ops : List Op) : Bytes → Bool → Prop
  | whole {p : Program} (h : ops = p.ops) (hfits : arch.backend.Fits p) : Yields arch ops (arch.backend.code p) true
  | unclosed {t : Beginning} (h : ops = t.ops) (hopen : t.outer ≠ []) (hfits : arch.backend.FitsBeginning t) :
      Yields arch ops (arch.backend.beginningCode t) false
  | stopped {t : Beginning} {op : Op} {left : Bytes} {rest : List Op} (h : ops = t.ops ++ op :: rest)
      (hfits : arch.backend.FitsBeginning t) (hop : t.Refuses arch op left) :
      Yields arch ops (arch.backend.beginningCode t ++ left) false

namespace Generator

variable {arch : Arch}

/-- All ops yield some code, -/
lemma exists_yields (arch : Arch) (ops : List Op) : ∃ code ok, arch.Yields ops code ok := by
  have hops := map_fst_unlocated ops
  rcases stepsAt_cases (invariant_new arch.backend arch.alignment) (ops.map fun op => (op, none)) with
    ⟨g', hrun⟩ | ⟨before, op, location, rest, g₁, g', c, hsplit, hstop⟩
  · obtain ⟨⟨outer, last⟩, ht, hfits, -⟩ := exists_begins arch.lawful rfl hrun
    rw [hops] at ht
    by_cases houter : outer = []
    · subst houter
      exact ⟨_, _, .whole (p := last) ht.symm hfits.2⟩
    · exact ⟨_, _, .unclosed ht.symm houter hfits⟩
  · obtain ⟨t, ht, hfits, hbegins⟩ := exists_begins arch.lawful rfl hstop.reached
    obtain ⟨left, hop⟩ := refuses_of_step hbegins hstop.fails
    have hrest : ops = t.ops ++ op :: rest.map Prod.fst := by
      rw [← hops, hsplit, ht, List.map_append, List.map_cons]
    exact ⟨_, _, .stopped hrest hfits hop⟩

/-- and this is the code that generation adds. -/
lemma finish_of_yields {g : Generator} (hg : g.loops = []) {located : List (Op × Option Location)} {code : Bytes}
    {ok : Bool} (h : arch.Yields (located.map Prod.fst) code ok) :
    (finish (stepsAt arch.backend g located)).1.code = g.code.append code ∧
      (finish (stepsAt arch.backend g located)).2.isNone = ok := by
  rw [fst_finish]
  cases h with
  | whole h hfits =>
    rcases stepsAt_ops arch.lawful _ g h with ⟨-, journal, hrun⟩ | ⟨hn, -⟩
    · rw [hrun]
      exact ⟨rfl, Option.isNone_iff_eq_none.mpr (unclosed?_eq_none_iff.mpr hg)⟩
    · exact absurd hfits hn
  | @unclosed t h hopen hfits =>
    rcases stepsAt_beginning arch.lawful t g h with ⟨-, g', hrun, hbegins⟩ | ⟨hn, -⟩
    · rw [hrun]
      obtain ⟨_, _, _, hloops, -⟩ := hbegins.innermost hopen
      refine ⟨hbegins.code, Option.isNone_eq_false_iff.mpr (Option.isSome_iff_ne_none.mpr fun hnone => ?_)⟩
      cases hloops.symm.trans (unclosed?_eq_none_iff.mp hnone)
    · exact absurd hfits hn
  | @stopped t op left rest h hfits hop =>
    obtain ⟨front, tail, rfl, hfront, htail⟩ := List.map_eq_append_iff.mp h
    obtain ⟨⟨op, location⟩, rest', rfl, rfl, -⟩ := List.map_eq_cons_iff.mp htail
    rcases stepsAt_beginning arch.lawful t g hfront with ⟨-, g₁, hrun, hbegins⟩ | ⟨hn, -⟩
    · obtain ⟨g', f, hstep, hcode⟩ := step_of_refuses hg hbegins hop location
      rw [stepsAt_append_of_ok hrun, stepsAt_cons_of_fault hstep]
      refine ⟨?_, rfl⟩
      rw [hcode, hbegins.code, Code.append_append]
    · exact absurd hfits hn

end Generator

/-! ## Sources -/

/-- The ops that are generated for a source: its own, or the optimised ones. -/
def subjectOps (source : Bytes) (optimized : Bool) : Except Diagnostic (List Op) :=
  if optimized then optimize source else .ok (sourceOps source)

/-- The code that is generated for a source, and whether generation succeeds. Only then there is an epilogue. -/
inductive Arch.Generates (arch : Arch) (source : Bytes) (optimized : Bool) : Bytes → Bool → Prop
  | compiled {ops : List Op} {code : Bytes} {ok : Bool} (h : subjectOps source optimized = .ok ops)
      (hcode : arch.Yields ops code ok) :
      Generates arch source optimized (arch.backend.bytes arch.backend.prologue ++ code ++
        if ok then arch.backend.bytes arch.backend.epilogue else []) ok
  | rejected {d : Diagnostic} (h : subjectOps source optimized = .error d) :
      Generates arch source optimized (arch.backend.bytes arch.backend.prologue) false

namespace Generator

variable {arch : Arch} {source : Bytes} {optimized : Bool}

/-- **Every source has a code,** -/
theorem exists_generates (arch : Arch) (source : Bytes) (optimized : Bool) :
    ∃ code ok, arch.Generates source optimized code ok := by
  cases h : subjectOps source optimized with
  | error d => exact ⟨_, _, .rejected h⟩
  | ok ops =>
    obtain ⟨code, ok, hcode⟩ := exists_yields arch ops
    exact ⟨_, _, .compiled h hcode⟩

lemma compileBody_of_ok (b : Backend) (g : Generator) {ops : List Op} (h : subjectOps source optimized = .ok ops) :
    ∃ (g₀ : Generator) (located : List (Op × Option Location)), g₀.code = g.code ∧ g₀.loops = g.loops ∧
      located.map Prod.fst = ops ∧ compileBody b g source optimized = finish (stepsAt b g₀ located) := by
  cases optimized with
  | false =>
    obtain rfl : sourceOps source = ops := Except.ok.inj h
    exact ⟨g, locatedOps .start source, rfl, rfl, map_fst_locatedOps _ _, compileSource_eq b g source⟩
  | true =>
    have hops : optimize source = .ok ops := h
    refine ⟨g.note (some (optimizeEvent source ops)), ops.map fun op => (op, none), code_note _ _, loops_note _ _,
      map_fst_unlocated ops, ?_⟩
    simp only [compileBody, if_true, hops, compileText_eq b _ (Op.read_bytes ops)]

lemma compileBody_of_error (b : Backend) (g : Generator) {d : Diagnostic} (h : subjectOps source optimized = .error d) :
    compileBody b g source optimized = (g, some (.reported d)) := by
  cases optimized with
  | false => cases h
  | true =>
    have hops : optimize source = .error d := h
    simp only [compileBody, if_true, hops]

lemma emitAll_eq {b : Backend} {xs : List (Operation b.Reg)} (h : ∀ x ∈ xs, (b.emit x).fault = none) (g : Generator) :
    emitAll b g xs = ({ g with code := g.code.append (b.bytes xs) }, none) := by
  have hok : emitAll b g xs = ((emitAll b g xs).1, none) := Prod.ext rfl (snd_emitAll h g)
  rw [← eq_of_emitAll_eq_ok hok]
  exact hok

/-- **and generation comes to it.** -/
theorem generate_of_generates {code : Bytes} {ok : Bool} (h : arch.Generates source optimized code ok) :
    (generate arch.backend source optimized).1.code.toList = code ∧
      (generate arch.backend source optimized).2.isNone = ok := by
  have hnew : ({} : Generator).code.toList = [] := rfl
  simp only [generate, emitAll_eq arch.lawful.prologue_fault]
  cases h with
  | rejected h =>
    rw [compileBody_of_error _ _ h]
    exact ⟨by simp [hnew], rfl⟩
  | @compiled _ code ok h hcode =>
    obtain ⟨g₀, located, hg₀, hloops, rfl, hbody⟩ := compileBody_of_ok arch.backend
      { code := ({} : Generator).code.append (arch.backend.bytes arch.backend.prologue) } h
    obtain ⟨hrun, hok⟩ := finish_of_yields hloops hcode
    have hlist : (finish (stepsAt arch.backend g₀ located)).1.code.toList =
        arch.backend.bytes arch.backend.prologue ++ code := by
      rw [hrun, hg₀]
      simp [hnew]
    rw [hbody]
    rcases hfinish : finish (stepsAt arch.backend g₀ located) with ⟨g₁, _ | f⟩ <;> rw [hfinish] at hlist hok
    · obtain rfl : true = ok := hok
      simp only [emitAll_eq arch.lawful.epilogue_fault, if_true]
      exact ⟨(Code.toList_append _ _).trans (congrArg (· ++ _) hlist), rfl⟩
    · obtain rfl : false = ok := hok
      exact ⟨hlist.trans (List.append_nil _).symm, rfl⟩

end Generator

end TapeElf
