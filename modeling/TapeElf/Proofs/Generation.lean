import Mathlib
import TapeElf.Proofs.Emission
import TapeElf.Proofs.Program

/-!
# Code generation, step by step

What each part of code generation does to the code and to the open loops.

* `Code.toList_patch`: patching replaces the bytes at an offset and keeps those before and after them;
* `emitAll_spec`: the operations of a list are emitted up to the first that fails;
* `closeLoop_cases`: a `]` puts both jumps of the innermost loop in place, or it fails and only forgets the loop;
* `stepsAt`: the generation of ops at their positions; a source and a text of ops are both compiled so, if there is
  memory for their code (`compileSource_cases`, `compileText_cases`);
* `step_memory`: with too little memory for it, a loop is not opened. So memory is one more cause of failures, but it
  does not matter where there is none (`compileSource_of_ok`, `compileText_of_ok`).
-/

namespace TapeElf

/-! ## Code -/

namespace Code

lemma ext_toList {a b : Code} (h : a.toList = b.toList) : a = b := by
  obtain ⟨a⟩ := a
  obtain ⟨b⟩ := b
  exact congrArg Code.mk (Array.toList_inj.mp h)

@[simp] lemma append_append (code : Code) (a b : Bytes) : (code.append a).append b = code.append (a ++ b) :=
  ext_toList (by simp)

@[simp] lemma append_nil (code : Code) : code.append [] = code := ext_toList (by simp)

lemma toList_patch {code : Code} {pre old post new : Bytes} (h : code.toList = pre ++ old ++ post)
    (hlen : new.length = old.length) : (code.patch pre.length new).toList = pre ++ new ++ post := by
  obtain ⟨bytes⟩ := code
  induction new generalizing bytes pre old with
  | nil =>
    rw [List.eq_nil_of_length_eq_zero hlen.symm] at h
    exact h
  | cons b new ih =>
    rcases old with _ | ⟨c, old⟩
    · cases hlen
    have hset : (bytes.setIfInBounds pre.length b).toList = (pre ++ [b]) ++ old ++ post := by
      rw [Array.toList_setIfInBounds, show bytes.toList = pre ++ c :: old ++ post from h]
      simp
    have := ih (Nat.succ.inj hlen) _ hset
    rw [List.length_append] at this
    exact this.trans (by simp)

end Code

/-! ## Operations -/

namespace Backend

/-- The code of some operations. -/
def bytes (b : Backend) (xs : List (Operation b.Reg)) : Bytes := xs.flatMap fun x => (b.emit x).bytes

@[simp] lemma bytes_nil (b : Backend) : b.bytes [] = [] := rfl

@[simp] lemma bytes_cons (b : Backend) (x : Operation b.Reg) (xs : List (Operation b.Reg)) :
    b.bytes (x :: xs) = (b.emit x).bytes ++ b.bytes xs := rfl

/-- The code of an op outside loop control. -/
def opCode (b : Backend) (o : Op) : Bytes := b.bytes (b.operations o)

/-- The target can jump over a distance. -/
def Accepts (b : Backend) (d : Nat) : Prop :=
  d < 2 ^ 63 ∧ (b.emit (.jumpIfZero b.roles.tape (Int64.ofNat d))).fault = none

end Backend

namespace Generator

variable {b : Backend} {g : Generator}

lemma emitAll_spec (xs : List (Operation b.Reg)) (g : Generator) :
    ∃ ys, ys <+: xs ∧ (emitAll b g xs).1 = { g with code := g.code.append (b.bytes ys) } ∧
      match (emitAll b g xs).2 with
      | none => ys = xs ∧ ∀ x ∈ xs, (b.emit x).fault = none
      | some f => ∃ x ∈ xs, (b.emit x).fault = some f := by
  induction xs generalizing g with
  | nil => exact ⟨[], List.prefix_refl _, by simp [emitAll], rfl, nofun⟩
  | cons x xs ih =>
    cases hf : (b.emit x).fault with
    | some f =>
      have he : emitAll b g (x :: xs) = ({ g with code := g.code.append (b.emit x).bytes }, some f) := by
        simp [emitAll, emit, hf]
      rw [he]
      exact ⟨[x], ⟨xs, rfl⟩, by simp, x, List.mem_cons_self, hf⟩
    | none =>
      have he : emitAll b g (x :: xs) = emitAll b { g with code := g.code.append (b.emit x).bytes } xs := by
        simp [emitAll, emit, hf]
      obtain ⟨ys, hys, hcode, hres⟩ := ih { g with code := g.code.append (b.emit x).bytes }
      rw [he]
      refine ⟨x :: ys, (List.prefix_cons_inj x).mpr hys, by simpa using hcode, ?_⟩
      cases hfault : (emitAll b { g with code := g.code.append (b.emit x).bytes } xs).2 with
      | none =>
        rw [hfault] at hres
        exact ⟨by rw [hres.1], List.forall_mem_cons.mpr ⟨hf, hres.2⟩⟩
      | some f =>
        rw [hfault] at hres
        obtain ⟨y, hy, hyf⟩ := hres
        exact ⟨y, List.mem_cons_of_mem x hy, hyf⟩

@[simp] lemma code_note (g : Generator) (e : Option Event) : (g.note e).code = g.code := by
  cases e <;> rfl

@[simp] lemma loops_note (g : Generator) (e : Option Event) : (g.note e).loops = g.loops := by
  cases e <;> rfl

/-! ## Loops -/

section

variable {align : Nat} (law : b.Lawful align)
include law

lemma openLoop_eq (g : Generator) (location : Option Location) :
    openLoop b g location = ({ g with
      code := g.code.append (b.emit .loopFiller).bytes
      loops := { location, offset := g.code.size } :: g.loops }, none) := by
  have hopen : openLoop b g location =
      emit b { g with loops := { location, offset := g.code.size } :: g.loops } .loopFiller := rfl
  rw [hopen, emit, law.filler_fault]

lemma closeLoop_cases {l : OpenLoop} {loops : List OpenLoop} {d : Nat} (hl : g.loops = l :: loops)
    (hoff : l.offset + b.jumpSize ≤ g.code.size) (hd : g.code.size - l.offset = d) :
    b.Accepts d ∧ (∃ journal, closeLoop b g = ({
        code := (g.code.patch l.offset (b.emit (.jumpIfZero b.roles.tape (Int64.ofNat d))).bytes).append
          (b.emit (.jumpIfNonzero b.roles.tape (-Int64.ofNat d))).bytes
        loops, journal }, none)) ∨
    ¬ b.Accepts d ∧ ∃ f, closeLoop b g = ({ g with loops }, some f) ∧
      (2 ^ 63 ≤ d ∧ f = Cause.loopTooLarge.fault ∨
        d < 2 ^ 63 ∧ (b.emit (.jumpIfZero b.roles.tape (Int64.ofNat d))).fault = some f) := by
  have hsize : ¬ g.code.size < l.offset := by omega
  by_cases hlarge : d ≥ 1 <<< 63
  · refine .inr ⟨fun h => absurd h.1 (by omega), Cause.loopTooLarge.fault, ?_, .inl ⟨by omega, rfl⟩⟩
    simp only [closeLoop, hl, hd, hsize, hlarge, if_false, if_true]
  cases hf : (b.emit (.jumpIfZero b.roles.tape (Int64.ofNat d))).fault with
  | some f =>
    refine .inr ⟨fun h => (nomatch hf.symm.trans h.2), f, ?_, .inr ⟨by omega, rfl⟩⟩
    simp only [closeLoop, hl, hd, hsize, hlarge, hf, if_false]
  | none =>
    have hsmall : d < 2 ^ 63 := by omega
    have hlen := (law.jumpIfZero (Int64.ofNat d)).length_eq hf
    have hback := law.jump_back (Int64.ofNat d) (by rw [Int64.toInt_ofNat_of_lt hsmall]; omega) hf
    have hholds : g.code.holds l.offset b.jumpSize = true := decide_eq_true hoff
    refine .inl ⟨⟨hsmall, hf⟩, g.journal.push (.loopPatched b.name l.offset d), ?_⟩
    simp only [closeLoop, hl, hd, hsize, hlarge, hf, hlen, hholds, and_self, if_true, if_false, emit, hback]

end

/-! ## Ops in sequence -/

lemma step_plain (b : Backend) (g : Generator) (o : PlainOp) (location : Option Location) :
    step b g o.val location = emitAll b (g.note o.val.remark?) (b.operations o.val) := by
  obtain ⟨o, ho⟩ := o
  cases o with
  | loopOpen | loopClose => cases ho
  | _ => rfl

/-- Where there is too little memory, no loop is opened; no other step asks for any. -/
lemma step_memory (b : Backend) (g : Generator) (op : Op) (location : Option Location) (memory : Memory) :
    step b g op location memory = step b g op location ∨ op = .loopOpen ∧
      ∃ shortage, step b g op location memory = (g, some (Cause.loopMemory shortage).fault) := by
  cases op with
  | loopOpen =>
    simp only [step, openLoop]
    cases memory.loop g.code.size g.loops.length with
    | none => exact .inl rfl
    | some shortage => exact .inr ⟨trivial, shortage, rfl⟩
  | _ => exact .inl rfl

/-- Generates the code of ops at their positions, up to the first that fails. -/
def stepsAt (b : Backend) (g : Generator) (ops : List (Op × Option Location)) (memory : Memory := .plenty) :
    Generator × Option Fault :=
  match ops with
  | [] => (g, none)
  | (op, location) :: ops =>
    match step b g op location memory with
    | (g, none) => stepsAt b g ops memory
    | (g, some f) => (g, some (f.orContext op.symbol location))

/-- The end of a program: no loop may be open. -/
def finish : Generator × Option Fault → Generator × Option Fault
  | (g, none) => (g, g.unclosed?)
  | (g, some f) => (g, some f)

@[simp] lemma fst_finish (r : Generator × Option Fault) : (finish r).1 = r.1 := by
  obtain ⟨g, _ | f⟩ := r <;> rfl

section

variable {g g' : Generator} {op : Op} {location : Option Location} {xs : List (Op × Option Location)} {memory : Memory}

lemma stepsAt_cons_of_ok (h : step b g op location memory = (g', none)) (ys : List (Op × Option Location)) :
    stepsAt b g ((op, location) :: ys) memory = stepsAt b g' ys memory := by
  simp only [stepsAt, h]

lemma stepsAt_cons_of_fault {f : Fault} (h : step b g op location memory = (g', some f))
    (ys : List (Op × Option Location)) :
    stepsAt b g ((op, location) :: ys) memory = (g', some (f.orContext op.symbol location)) := by
  simp only [stepsAt, h]

lemma stepsAt_append_of_ok (h : stepsAt b g xs = (g', none)) (ys : List (Op × Option Location)) :
    stepsAt b g (xs ++ ys) = stepsAt b g' ys := by
  induction xs generalizing g with
  | nil =>
    cases h
    rfl
  | cons x xs ih =>
    rcases hx : step b g x.1 x.2 with ⟨g₁, _ | f⟩
    · rw [stepsAt_cons_of_ok hx] at h
      rw [List.cons_append, stepsAt_cons_of_ok hx]
      exact ih h
    · rw [stepsAt_cons_of_fault hx] at h
      cases h

lemma stepsAt_append_of_fault {f : Fault} (h : stepsAt b g xs = (g', some f)) (ys : List (Op × Option Location)) :
    stepsAt b g (xs ++ ys) = (g', some f) := by
  induction xs generalizing g with
  | nil => cases h
  | cons x xs ih =>
    rcases hx : step b g x.1 x.2 with ⟨g₁, _ | f₁⟩
    · rw [stepsAt_cons_of_ok hx] at h
      rw [List.cons_append, stepsAt_cons_of_ok hx]
      exact ih h
    · rw [stepsAt_cons_of_fault hx] at h
      rw [List.cons_append, stepsAt_cons_of_fault hx, h]

lemma stepsAt_of_ok (h : stepsAt b g xs memory = (g', none)) : stepsAt b g xs = (g', none) := by
  induction xs generalizing g with
  | nil => exact h
  | cons x xs ih =>
    rcases hx : step b g x.1 x.2 memory with ⟨g₁, _ | f⟩
    · rw [stepsAt_cons_of_ok hx] at h
      rcases step_memory b g x.1 x.2 memory with hsame | ⟨-, shortage, hshort⟩
      · rw [stepsAt_cons_of_ok (hsame.symm.trans hx)]
        exact ih h
      · cases hshort.symm.trans hx
    · rw [stepsAt_cons_of_fault hx] at h
      cases h

end

/-- The ops of a source at their positions. -/
def locatedOps (loc : Location) : Bytes → List (Op × Option Location)
  | [] => []
  | c :: source =>
    match Command.ofByte? c with
    | none => locatedOps (loc.advance c) source
    | some command => (Op.ofCommand command, some (loc.advance c)) :: locatedOps (loc.advance c) source

lemma map_fst_locatedOps (loc : Location) (source : Bytes) :
    (locatedOps loc source).map Prod.fst = sourceOps source := by
  induction source generalizing loc with
  | nil => rfl
  | cons c source ih =>
    unfold locatedOps
    cases hc : Command.ofByte? c with
    | none => simp [ih, sourceOps, Command.ofSource, hc]
    | some command => simp [ih, sourceOps, Command.ofSource, Command.ops, hc]

lemma symbol_ofCommand (c : Command) : (Op.ofCommand c).symbol = c.char := by
  cases c <;> rfl

lemma compileSourceFrom_eq (b : Backend) (g : Generator) (loc : Location) (source : Bytes) (memory : Memory) :
    compileSourceFrom b g loc source memory = finish (stepsAt b g (locatedOps loc source) memory) := by
  induction source generalizing g loc with
  | nil => rfl
  | cons c source ih =>
    unfold compileSourceFrom locatedOps
    cases hc : Command.ofByte? c with
    | none => exact ih _ _
    | some command =>
      simp only [stepsAt, symbol_ofCommand]
      rcases step b g (Op.ofCommand command) (some (loc.advance c)) memory with ⟨g', _ | f⟩
      · exact ih _ _
      · rfl

/-- A source is compiled op by op, if there is memory for its code. -/
lemma compileSource_cases (b : Backend) (g : Generator) (source : Bytes) (memory : Memory) :
    compileSource b g source memory = finish (stepsAt b g (locatedOps .start source) memory) ∨
      ∃ shortage, compileSource b g source memory = (g, some (Cause.codeMemory shortage).fault) := by
  simp only [compileSource, Code.shortage?]
  cases memory.code g.code.size source.length with
  | none => exact .inl (compileSourceFrom_eq b g .start source memory)
  | some shortage => exact .inr ⟨shortage, rfl⟩

lemma compileSource_eq (b : Backend) (g : Generator) (source : Bytes) :
    compileSource b g source = finish (stepsAt b g (locatedOps .start source)) :=
  compileSourceFrom_eq b g .start source .plenty

lemma steps_eq (b : Backend) (g : Generator) (ops : List Op) (memory : Memory) :
    steps b g ops memory = stepsAt b g (ops.map fun op => (op, none)) memory := by
  induction ops generalizing g with
  | nil => rfl
  | cons op ops ih =>
    simp only [steps, List.map_cons, stepsAt]
    rcases step b g op none memory with ⟨g', _ | f⟩
    · exact ih _
    · rfl

@[simp] lemma map_fst_unlocated (ops : List Op) :
    (ops.map fun op => (op, (none : Option Location))).map Prod.fst = ops := by
  rw [List.map_map]
  exact List.map_id ops

/-- The end of a text: there may be more of it, which spells no op. -/
def finishText (refusal : Option Diagnostic) (r : Generator × Option Fault) : Generator × Option Fault :=
  match refusal, r with
  | some d, (g, none) => (g, some (.reported d))
  | _, r => finish r

@[simp] lemma fst_finishText (refusal : Option Diagnostic) (r : Generator × Option Fault) :
    (finishText refusal r).1 = r.1 := by
  obtain ⟨g, _ | f⟩ := r <;> cases refusal <;> rfl

lemma compileText_of_room (b : Backend) {g : Generator} {text : Bytes} {memory : Memory}
    (h : g.code.shortage? memory text.length = none) : compileText b g text memory =
      finishText (Op.read text).2 (stepsAt b g ((Op.read text).1.map fun op => (op, none)) memory) := by
  simp only [compileText, h, ← steps_eq]
  rcases Op.read text with ⟨ops, _ | d⟩
  · dsimp only [compileOps]
    rcases steps b g ops memory with ⟨g', _ | f⟩ <;> rfl
  · dsimp only
    rcases steps b g ops memory with ⟨g', _ | f⟩ <;> rfl

lemma compileText_cases (b : Backend) (g : Generator) (text : Bytes) (memory : Memory) :
    compileText b g text memory =
        finishText (Op.read text).2 (stepsAt b g ((Op.read text).1.map fun op => (op, none)) memory) ∨
      ∃ shortage, compileText b g text memory = (g, some (Cause.codeMemory shortage).fault) := by
  cases h : g.code.shortage? memory text.length with
  | none => exact .inl (compileText_of_room b h)
  | some d =>
    obtain ⟨shortage, -, rfl⟩ := Option.map_eq_some_iff.mp h
    refine .inr ⟨shortage, ?_⟩
    simp only [compileText, h]
    rfl

lemma compileText_eq (b : Backend) (g : Generator) {text : Bytes} {ops : List Op} (h : Op.read text = (ops, none)) :
    compileText b g text = finish (stepsAt b g (ops.map fun op => (op, none))) := by
  rw [compileText_of_room b rfl, h]
  rfl

/-! ## Memory -/

lemma finishText_of_ok {refusal : Option Diagnostic} {xs : List (Op × Option Location)} {memory : Memory}
    {g' : Generator} (h : finishText refusal (stepsAt b g xs memory) = (g', none)) :
    finishText refusal (stepsAt b g xs) = (g', none) := by
  rcases hsteps : stepsAt b g xs memory with ⟨g₁, _ | f⟩ <;> rw [hsteps] at h
  · rw [stepsAt_of_ok hsteps]
    exact h
  · cases refusal <;> cases h

/-- **What is compiled with some memory is compiled so without a limit:** a source, -/
lemma compileSource_of_ok {source : Bytes} {memory : Memory} {g' : Generator}
    (h : compileSource b g source memory = (g', none)) : compileSource b g source = (g', none) := by
  rcases compileSource_cases b g source memory with hsource | ⟨shortage, hshort⟩
  · have hok : finishText none (stepsAt b g (locatedOps .start source) memory) = (g', none) := hsource.symm.trans h
    rw [compileSource_eq]
    exact finishText_of_ok hok
  · cases hshort.symm.trans h

/-- and a text of ops. -/
lemma compileText_of_ok {text : Bytes} {memory : Memory} {g' : Generator}
    (h : compileText b g text memory = (g', none)) : compileText b g text = (g', none) := by
  rcases compileText_cases b g text memory with htext | ⟨shortage, hshort⟩
  · rw [compileText_of_room b rfl]
    exact finishText_of_ok (htext.symm.trans h)
  · cases hshort.symm.trans h

end Generator

end TapeElf
