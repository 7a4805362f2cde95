import TapeElf.Compile
import TapeElf.Proofs.Generation
import TapeElf.Proofs.OpText

/-!
# One-pass generation gives the code of the loop tree

The code of a program can be said without fillers and patches: that of a loop is the code of its body between
two jumps, each of which knows how long the body is (`Backend.code`). Generation in one pass produces exactly
this code. It succeeds if and only if the brackets match, the target can jump over every loop, and nothing else
in the program fails (`Backend.Fits`).

`stepsAt_ops` is the induction over the tree, for any code and any open loops before it: a loop is opened, its
body is compiled by induction behind the filler, and the `]` finds the offset of the filler on top of the open
loops.
-/

namespace TapeElf

open Program

/-- The bodies of all loops of a program, at any depth. -/
def Program.bodies : Program → List Program
  | nil => []
  | op _ rest => rest.bodies
  | loop body rest => body :: (body.bodies ++ rest.bodies)

namespace Backend

variable (b : Backend)

/-- The code of a loop around the code of its body. Both jumps pass over the body and one jump. -/
def loopCode (body : Bytes) : Bytes :=
  let d := Int64.ofNat (body.length + b.jumpSize)
  (b.emit (.jumpIfZero b.roles.tape d)).bytes ++ body ++ (b.emit (.jumpIfNonzero b.roles.tape (-d))).bytes

def code : Program → Bytes
  | nil => []
  | op o rest => b.opCode o.val ++ code rest
  | loop body rest => b.loopCode (code body) ++ code rest

/-- The target has code for a program: it can jump over every loop, and every op succeeds. -/
def Fits (p : Program) : Prop :=
  (∀ body ∈ p.bodies, b.Accepts ((b.code body).length + b.jumpSize)) ∧ ∀ o ∈ p.ops, b.Faultless o

variable {b}

@[simp] lemma fits_nil : b.Fits nil := ⟨nofun, nofun⟩

@[simp] lemma fits_op {o : PlainOp} {p : Program} : b.Fits (op o p) ↔ b.Faultless o.val ∧ b.Fits p := by
  simp only [Fits, bodies, ops_op, List.forall_mem_cons]
  tauto

@[simp] lemma fits_loop {body p : Program} :
    b.Fits (loop body p) ↔ b.Fits body ∧ b.Accepts ((b.code body).length + b.jumpSize) ∧ b.Fits p := by
  have hopen : b.Faultless .loopOpen := nofun
  have hclose : b.Faultless .loopClose := nofun
  simp only [Fits, bodies, ops_loop, List.forall_mem_cons, List.forall_mem_append, hopen, hclose]
  tauto

end Backend

namespace Generator

variable {b : Backend} {g : Generator} {align : Nat}

/-- An op outside loop control appends its code, or it fails. -/
lemma step_op (b : Backend) (g : Generator) (o : PlainOp) (location : Option Location) :
    b.Faultless o.val ∧ (∃ journal,
      step b g o.val location = ({ g with code := g.code.append (b.opCode o.val), journal }, none)) ∨
    ¬ b.Faultless o.val ∧ ∃ g' f, step b g o.val location = (g', some f) := by
  rw [step_plain]
  obtain ⟨ys, -, hcode, hres⟩ := emitAll_spec (b.operations o.val) (g.note o.val.remark?)
  cases hf : (emitAll b (g.note o.val.remark?) (b.operations o.val)).2 with
  | none =>
    rw [hf] at hres
    obtain ⟨rfl, hok⟩ := hres
    refine .inl ⟨hok, (g.note o.val.remark?).journal, Prod.ext ?_ hf⟩
    rw [hcode, code_note, loops_note]
    rfl
  | some f =>
    rw [hf] at hres
    obtain ⟨x, hx, hxf⟩ := hres
    exact .inr ⟨fun h => (nomatch (h x hx).symm.trans hxf), _, f, Prod.ext rfl hf⟩

section

variable (law : b.Lawful align)
include law

/-- The filler between the code before a loop and that of its body becomes the opening jump, or the `]` fails. -/
lemma step_loopClose (code : Code) (body : Bytes) (location location' : Option Location) (loops : List OpenLoop)
    (journal : Journal) {g : Generator} (hg : g = {
      code := code.append ((b.emit .loopFiller).bytes ++ body)
      loops := { location, offset := code.size } :: loops
      journal }) :
    b.Accepts (body.length + b.jumpSize) ∧ (∃ journal,
      step b g .loopClose location' = ({ code := code.append (b.loopCode body), loops, journal }, none)) ∨
    ¬ b.Accepts (body.length + b.jumpSize) ∧ ∃ g' f, step b g .loopClose location' = (g', some f) := by
  have hbuf : g.code.toList = code.toList ++ (b.emit .loopFiller).bytes ++ body := by simp [hg]
  have hsize : g.code.size = code.size + b.jumpSize + body.length := by
    rw [← Code.length_toList, hbuf, List.length_append, List.length_append, law.filler_length, Code.length_toList]
  have hloops : g.loops = { location, offset := code.size } :: loops := by rw [hg]
  change _ ∧ (∃ journal, closeLoop b g = _) ∨ _ ∧ ∃ g' f, closeLoop b g = _
  rcases closeLoop_cases (d := body.length + b.jumpSize) law hloops (by dsimp only; omega) (by dsimp only; omega) with
    ⟨hacc, journal', h⟩ | ⟨hacc, f, h, -⟩
  · refine .inl ⟨hacc, journal', ?_⟩
    have hlen := (law.jumpIfZero (Int64.ofNat (body.length + b.jumpSize))).length_eq hacc.2
    have hpatch := Code.toList_patch hbuf (hlen.trans law.filler_length.symm)
    rw [Code.length_toList] at hpatch
    rw [h]
    congr 2
    refine Code.ext_toList ?_
    rw [Code.toList_append, hpatch, Code.toList_append]
    simp [Backend.loopCode]
  · exact .inr ⟨hacc, _, f, h⟩

/-- **A program is compiled to its code,** whatever code and open loops are before it, or it fails. -/
theorem stepsAt_ops (p : Program) (g : Generator) {located : List (Op × Option Location)}
    (h : located.map Prod.fst = p.ops) :
    b.Fits p ∧ (∃ journal,
      stepsAt b g located = ({ code := g.code.append (b.code p), loops := g.loops, journal }, none)) ∨
    ¬ b.Fits p ∧ ∃ g' f, stepsAt b g located = (g', some f) := by
  induction p generalizing g located with
  | nil =>
    obtain rfl : located = [] := List.map_eq_nil_iff.mp h
    exact .inl ⟨Backend.fits_nil, g.journal, by simp [stepsAt, Backend.code]⟩
  | op o p ih =>
    obtain ⟨⟨-, location⟩, rest, rfl, rfl, hrest⟩ := List.map_eq_cons_iff.mp h
    rw [Backend.fits_op]
    rcases step_op b g o location with ⟨ho, journal, hstep⟩ | ⟨ho, g', f, hstep⟩
    · rw [stepsAt_cons_of_ok hstep]
      rcases ih _ hrest with ⟨hp, journal', hrun⟩ | ⟨hp, hrun⟩
      · exact .inl ⟨⟨ho, hp⟩, journal', by rw [hrun, Code.append_append, Backend.code]⟩
      · exact .inr ⟨fun hfits => hp hfits.2, hrun⟩
    · exact .inr ⟨fun hfits => ho hfits.1, _, _, stepsAt_cons_of_fault hstep rest⟩
  | loop body p ihb ihp =>
    obtain ⟨⟨-, location⟩, tail, rfl, rfl, htail⟩ := List.map_eq_cons_iff.mp h
    obtain ⟨inner, tail', rfl, hinner, htail'⟩ := List.map_eq_append_iff.mp htail
    obtain ⟨⟨-, location'⟩, rest, rfl, rfl, hrest⟩ := List.map_eq_cons_iff.mp htail'
    have hopen : step b g .loopOpen location = _ := openLoop_eq law g location
    rw [stepsAt_cons_of_ok hopen, Backend.fits_loop]
    rcases ihb ⟨g.code.append (b.emit .loopFiller).bytes, ⟨location, g.code.size⟩ :: g.loops, g.journal⟩ hinner with
      ⟨hbody, journal, hrun⟩ | ⟨hbody, g', f, hrun⟩
    · rw [Code.append_append] at hrun
      rw [stepsAt_append_of_ok hrun]
      rcases step_loopClose law g.code (b.code body) location location' g.loops journal rfl with
        ⟨hacc, journal', hclose⟩ | ⟨hacc, g', f, hclose⟩
      · rw [stepsAt_cons_of_ok hclose]
        rcases ihp _ hrest with ⟨hp, journal'', hrun'⟩ | ⟨hp, hrun'⟩
        · exact .inl ⟨⟨hbody, hacc, hp⟩, journal'', by rw [hrun', Code.append_append, Backend.code]⟩
        · exact .inr ⟨fun hfits => hp hfits.2.2, hrun'⟩
      · exact .inr ⟨fun hfits => hacc hfits.2.1, _, _, stepsAt_cons_of_fault hclose rest⟩
    · exact .inr ⟨fun hfits => hbody hfits.1, _, _, stepsAt_append_of_fault hrun _⟩

end

/-! ## Balanced ops -/

lemma exists_loops_eq_of_closeLoop {g' : Generator} (h : closeLoop b g = (g', none)) :
    ∃ l, g.loops = l :: g'.loops := by
  unfold closeLoop at h
  split at h
  · cases h
  · next l loops hl =>
    dsimp only at h
    split at h
    · cases h
    split at h
    · cases h
    split at h
    · cases h
    split at h
    · obtain ⟨rfl, -⟩ := Prod.ext_iff.mp h
      exact ⟨l, hl⟩
    · cases h

lemma depth?_of_step {g' : Generator} {op : Op} {location : Option Location} (h : step b g op location = (g', none)) :
    op.depth? g.loops.length = some g'.loops.length := by
  cases hop : op.isBracket with
  | false =>
    rw [Op.depth?_plain hop]
    rcases step_op b g ⟨op, hop⟩ location with ⟨-, journal, hstep⟩ | ⟨-, _, _, hstep⟩
    · cases h.symm.trans hstep
      rfl
    · cases h.symm.trans hstep
  | true =>
    cases op with
    | loopOpen =>
      obtain ⟨rfl, -⟩ := Prod.ext_iff.mp h
      rfl
    | loopClose =>
      obtain ⟨l, hl⟩ := exists_loops_eq_of_closeLoop h
      rw [hl]
      rfl
    | _ => cases hop

lemma depth?_of_stepsAt {g' : Generator} {located : List (Op × Option Location)}
    (h : stepsAt b g located = (g', none)) :
    depth? g.loops.length (located.map Prod.fst) = some g'.loops.length := by
  induction located generalizing g with
  | nil =>
    cases h
    rfl
  | cons x located ih =>
    rcases hx : step b g x.1 x.2 with ⟨g₁, _ | f⟩
    · rw [stepsAt_cons_of_ok hx] at h
      rw [List.map_cons, depth?_cons, depth?_of_step hx, Option.bind_some, ih h]
    · rw [stepsAt_cons_of_fault hx] at h
      cases h

lemma unclosed?_eq_none_iff {g : Generator} : g.unclosed? = none ↔ g.loops = [] := by
  simp [unclosed?]

section

variable (law : b.Lawful align) (hg : g.loops = []) {located : List (Op × Option Location)}
include law hg

/-- What is compiled from no open loops without a failure is a program, and its code. -/
lemma exists_program_of_finish (h : (finish (stepsAt b g located)).2 = none) :
    ∃ p : Program, p.ops = located.map Prod.fst ∧ b.Fits p ∧ (finish (stepsAt b g located)).1.loops = [] ∧
      (finish (stepsAt b g located)).1.code.toList = g.code.toList ++ b.code p := by
  rcases hs : stepsAt b g located with ⟨g', _ | f⟩ <;> rw [hs] at h
  · have hloops : g'.loops = [] := unclosed?_eq_none_iff.mp h
    have hdepth := depth?_of_stepsAt hs
    rw [hg, hloops] at hdepth
    obtain ⟨p, hp⟩ := balanced_iff.mp hdepth
    rcases stepsAt_ops law p g hp.symm with ⟨hfits, journal, hok⟩ | ⟨-, g', f, hf⟩
    · cases hs.symm.trans hok
      exact ⟨p, hp, hfits, hg, Code.toList_append _ _⟩
    · cases hs.symm.trans hf
  · cases h

lemma finish_eq_ok {p : Program} (hp : p.ops = located.map Prod.fst) (hfits : b.Fits p) :
    (finish (stepsAt b g located)).2 = none := by
  rcases stepsAt_ops law p g hp.symm with ⟨-, journal, hrun⟩ | ⟨hn, -⟩
  · rw [hrun]
    exact unclosed?_eq_none_iff.mpr hg
  · exact absurd hfits hn

end

/-! ## Whole programs -/

/-- `q` is the program that is generated for a source: its own, or that of its optimised ops. -/
def IsSubject (source : Bytes) (optimized : Bool) (q : Program) : Prop :=
  if optimized then optimize source = .ok q.ops else q.ops = sourceOps source

lemma exists_program_of_compileBody (law : b.Lawful align) (hg : g.loops = []) {source : Bytes} {optimized : Bool}
    {g' : Generator} (h : compileBody b g source optimized = (g', none)) :
    ∃ q, IsSubject source optimized q ∧ b.Fits q ∧ g'.code.toList = g.code.toList ++ b.code q := by
  cases optimized with
  | false =>
    change compileSource b g source = _ at h
    rw [compileSource_eq] at h
    obtain ⟨q, hq, hfits, -, hcode⟩ := exists_program_of_finish law hg (congrArg Prod.snd h)
    rw [h] at hcode
    exact ⟨q, hq.trans (map_fst_locatedOps _ _), hfits, hcode⟩
  | true =>
    simp only [compileBody, if_true] at h
    split at h
    · cases h
    · next ops hops =>
      rw [compileText_eq b _ (Op.read_bytes ops)] at h
      obtain ⟨q, hq, hfits, -, hcode⟩ :=
        exists_program_of_finish law ((loops_note g _).trans hg) (congrArg Prod.snd h)
      rw [h, code_note] at hcode
      rw [map_fst_unlocated] at hq
      subst hq
      exact ⟨q, hops, hfits, hcode⟩

lemma eq_of_emitAll_eq_ok {xs : List (Operation b.Reg)} {g' : Generator} (h : emitAll b g xs = (g', none)) :
    g' = { g with code := g.code.append (b.bytes xs) } := by
  obtain ⟨ys, -, hcode, hres⟩ := emitAll_spec xs g
  rw [h] at hcode hres
  obtain ⟨rfl, -⟩ := hres
  exact hcode

/-- **A whole program** is the code of its program between prologue and epilogue. -/
theorem exists_program_of_generate (law : b.Lawful align) {source : Bytes} {optimized : Bool}
    (h : generate b source optimized = (g, none)) :
    ∃ q, IsSubject source optimized q ∧ b.Fits q ∧
      g.code.toList = b.bytes b.prologue ++ b.code q ++ b.bytes b.epilogue := by
  unfold generate at h
  split at h
  · cases h
  next g₁ hprologue =>
  split at h
  · cases h
  next g₂ hbody =>
  have h₁ := eq_of_emitAll_eq_ok hprologue
  have h₂ := eq_of_emitAll_eq_ok h
  obtain ⟨q, hq, hfits, hcode⟩ := exists_program_of_compileBody law (by rw [h₁]) hbody
  refine ⟨q, hq, hfits, ?_⟩
  rw [h₂, Code.toList_append, hcode, h₁, Code.toList_append]
  rfl

end Generator

/-! ## All targets -/

/-- The compilation of `ops` behind some code with the given outcome is right: it succeeds exactly if the brackets
match, the target can jump over every loop, and it can move by every count; and then the code is followed by that
of the program. -/
def Arch.Compiles (arch : Arch) (before : Code) (ops : List Op) (outcome : Generator × Option Fault) : Prop :=
  (outcome.2 = none ↔ Balanced ops ∧ ∀ p : Program, p.ops = ops →
    (∀ body ∈ p.bodies, arch.backend.Accepts ((arch.backend.code body).length + arch.backend.jumpSize)) ∧
      ∀ o ∈ ops, arch.CanMove o) ∧
  (outcome.2 = none → outcome.1.loops = [] ∧
    ∀ p : Program, p.ops = ops → outcome.1.code.toList = before.toList ++ arch.backend.code p)

lemma Arch.compiles_stepsAt (arch : Arch) {g : Generator} (hg : g.loops = []) (located : List (Op × Option Location)) :
    arch.Compiles g.code (located.map Prod.fst) (Generator.finish (Generator.stepsAt arch.backend g located)) := by
  have hfits (p : Program) : arch.backend.Fits p ↔
      (∀ body ∈ p.bodies, arch.backend.Accepts ((arch.backend.code body).length + arch.backend.jumpSize)) ∧
        ∀ o ∈ p.ops, arch.CanMove o := by
    simp only [Backend.Fits, arch.faultless_iff]
  refine ⟨⟨fun h => ?_, ?_⟩, fun h => ?_⟩
  · obtain ⟨p, hp, hp', -⟩ := Generator.exists_program_of_finish arch.lawful hg h
    refine ⟨balanced_iff.mpr ⟨p, hp⟩, fun q hq => ?_⟩
    obtain rfl : q = p := ops_injective (hq.trans hp.symm)
    rw [hfits, hp] at hp'
    exact hp'
  · rintro ⟨hbal, hall⟩
    obtain ⟨p, hp⟩ := balanced_iff.mp hbal
    exact Generator.finish_eq_ok arch.lawful hg hp ((hfits p).mpr (by rw [hp]; exact hall p hp))
  · obtain ⟨p, hp, -, hloops, hcode⟩ := Generator.exists_program_of_finish arch.lawful hg h
    refine ⟨hloops, fun q hq => ?_⟩
    obtain rfl : q = p := ops_injective (hq.trans hp.symm)
    exact hcode

/-- **Generation in one pass gives the code of the loop tree.** On every target, and whatever code comes before, a
source is compiled right, and so is every text that spells ops. -/
theorem compile_eq_code (arch : Arch) {g : Generator} (hg : g.loops = []) :
    (∀ source, arch.Compiles g.code (sourceOps source) (g.compileSource arch.backend source)) ∧
      ∀ text ops, Op.read text = (ops, none) → arch.Compiles g.code ops (g.compileText arch.backend text) := by
  constructor
  · intro source
    rw [Generator.compileSource_eq, ← Generator.map_fst_locatedOps .start source]
    exact arch.compiles_stepsAt hg _
  · intro text ops h
    rw [Generator.compileText_eq arch.backend g h]
    have := arch.compiles_stepsAt hg (ops.map fun op => (op, none))
    rwa [Generator.map_fst_unlocated] at this

/-- The text `}2[-]` is compiled for i386 behind a byte of code. -/
theorem compile_eq_code_move_and_loop :
    ({ code := { bytes := #[0x90] } } : Generator).loops = [] ∧
    Op.read [125, 50, 91, 45, 93] = ([.right 2, .loopOpen, .sub 1, .loopClose], none) ∧
    Arch.i386.Compiles { bytes := #[0x90] } [.right 2, .loopOpen, .sub 1, .loopClose]
      (Generator.compileText Arch.i386.backend { code := { bytes := #[0x90] } } [125, 50, 91, 45, 93]) := by
  have hread : Op.read [125, 50, 91, 45, 93] = ([.right 2, .loopOpen, .sub 1, .loopClose], none) := by cbv
  exact ⟨rfl, hread, (compile_eq_code .i386 rfl).2 _ _ hread⟩

end TapeElf
