import TapeElf.Proofs.Generation

/-!
# What holds at every time of code generation

A generator can be called again after a call that failed, and what the failed call left behind stays: code, and
fillers of loops that were never closed. Still some things hold at every time (`Generator.Invariant`):

* the fillers of the open loops lie in the code, one after the other, and none has been overwritten;
* the code has an aligned length.

`Change b align closed g g'` lists what an op can do to the state: it lets the code grow, opens a loop, or forgets
or closes the innermost one, which is then `closed`. Each change keeps the invariant (`Change.invariant`) and all
bytes outside the filler of the closed loop (`Change.getElem?_eq`); and each step is such a change, and fails, if it
fails, with a failure that is to be reported (`step_change`). What every step keeps is kept by runs of ops
(`stepsAt_kept`) and calls (`after_kept`), however much memory there is for each.
-/

namespace TapeElf

lemma Code.getElem?_append_of_lt {code : Code} {i : Nat} (h : i < code.size) (bytes : Bytes) :
    (code.append bytes).toList[i]? = code.toList[i]? := by
  rw [toList_append, List.getElem?_append_left (by simpa using h)]

lemma Code.getElem?_patch_of_outside {code : Code} {offset i : Nat} {new : Bytes}
    (h : i < offset ∨ offset + new.length ≤ i) : (code.patch offset new).toList[i]? = code.toList[i]? := by
  obtain ⟨bytes⟩ := code
  induction new generalizing bytes offset with
  | nil => rfl
  | cons b new ih =>
    rw [List.length_cons] at h
    have hne : offset ≠ i := by omega
    have hrest : i < offset + 1 ∨ offset + 1 + new.length ≤ i := by omega
    calc (patch ⟨bytes⟩ offset (b :: new)).toList[i]?
        = (toList ⟨bytes.setIfInBounds offset b⟩)[i]? := ih hrest _
      _ = (toList ⟨bytes⟩)[i]? := by
        rw [toList, toList, Array.toList_setIfInBounds, List.getElem?_set_ne hne]

namespace Generator

/-- What holds at every time. -/
structure Invariant (b : Backend) (align : Nat) (g : Generator) : Prop where
  /-- The open loops, innermost first: every filler ends before the next one inside it. -/
  gaps : g.loops.Pairwise fun inner outer => outer.offset + b.jumpSize ≤ inner.offset
  within : ∀ l ∈ g.loops, l.offset + b.jumpSize ≤ g.code.size
  filler : ∀ l ∈ g.loops, ∀ i < b.jumpSize, g.code.toList[l.offset + i]? = (b.emit .loopFiller).bytes[i]?
  dvd_size : align ∣ g.code.size
  dvd_offset : ∀ l ∈ g.loops, align ∣ l.offset

/-- What an op can do to the state; `closed` is the loop that it closes. -/
inductive Change (b : Backend) (align : Nat) : Option OpenLoop → Generator → Generator → Prop
  | grows {g : Generator} (bytes : Bytes) (journal : Journal) (h : align ∣ bytes.length) :
      Change b align none g { g with code := g.code.append bytes, journal }
  | opens {g : Generator} (location : Option Location) :
      Change b align none g { g with
        code := g.code.append (b.emit .loopFiller).bytes
        loops := { location, offset := g.code.size } :: g.loops }
  /-- The loop stays without its jumps. -/
  | forgets {g : Generator} {l : OpenLoop} {loops : List OpenLoop} (h : g.loops = l :: loops) :
      Change b align (some l) g { g with loops }
  | closes {g : Generator} {l : OpenLoop} {loops : List OpenLoop} (h : g.loops = l :: loops) (jump back : Bytes)
      (journal : Journal) (hjump : jump.length = b.jumpSize) (hback : align ∣ back.length) :
      Change b align (some l) g { code := (g.code.patch l.offset jump).append back, loops, journal }

def closedBy (g : Generator) : Op → Option OpenLoop
  | .loopClose => g.loops.head?
  | _ => none

variable {b : Backend} {align : Nat} {g g' : Generator} {closed : Option OpenLoop}

/-! ## Changes -/

namespace Change

lemma size_le (h : Change b align closed g g') : g.code.size ≤ g'.code.size := by
  cases h <;> simp

/-- A byte outside the filler of the closed loop stays. -/
lemma getElem?_eq (h : Change b align closed g g') {i : Nat} (hi : i < g.code.size)
    (hout : ∀ l ∈ closed, i < l.offset ∨ l.offset + b.jumpSize ≤ i) : g'.code.toList[i]? = g.code.toList[i]? := by
  cases h with
  | grows bytes => exact Code.getElem?_append_of_lt hi bytes
  | opens => exact Code.getElem?_append_of_lt hi _
  | forgets => rfl
  | @closes _ l _ _ jump back journal hjump =>
    rw [Code.getElem?_append_of_lt (by simpa using hi)]
    exact Code.getElem?_patch_of_outside (by rw [hjump]; exact hout l rfl)

end Change

/-- The invariant stays while the code grows and the fillers of the loops that stay open keep their bytes. -/
lemma Invariant.of_frame (inv : g.Invariant b align) (hloops : g'.loops.Sublist g.loops)
    (hsize : g.code.size ≤ g'.code.size) (hdvd : align ∣ g'.code.size)
    (hframe : ∀ l ∈ g'.loops, ∀ i < b.jumpSize, g'.code.toList[l.offset + i]? = g.code.toList[l.offset + i]?) :
    g'.Invariant b align where
  gaps := inv.gaps.sublist hloops
  within l hl := Nat.le_trans (inv.within l (hloops.subset hl)) hsize
  filler l hl i hi := (hframe l hl i hi).trans (inv.filler l (hloops.subset hl) i hi)
  dvd_size := hdvd
  dvd_offset l hl := inv.dvd_offset l (hloops.subset hl)

section

variable (law : b.Lawful align)
include law

/-- A filler is put at the end of the code. -/
lemma Invariant.opens (inv : g.Invariant b align) (location : Option Location) :
    Invariant b align { g with
      code := g.code.append (b.emit .loopFiller).bytes
      loops := { location, offset := g.code.size } :: g.loops } := by
  have hlen := law.filler_length
  refine ⟨List.pairwise_cons.mpr ⟨inv.within, inv.gaps⟩, ?_, ?_, ?_, ?_⟩
  · rw [List.forall_mem_cons, Code.size_append]
    exact ⟨by dsimp only; omega, fun l hl => by have := inv.within l hl; omega⟩
  · rw [List.forall_mem_cons]
    refine ⟨fun i hi => ?_, fun l hl i hi => ?_⟩
    · rw [Code.toList_append, List.getElem?_append_right (by simp), Code.length_toList, Nat.add_sub_cancel_left]
    · have := inv.within l hl
      rw [Code.getElem?_append_of_lt (by omega)]
      exact inv.filler l hl i hi
  · rw [Code.size_append]
    exact Nat.dvd_add inv.dvd_size (law.dvd_length _)
  · exact List.forall_mem_cons.mpr ⟨inv.dvd_size, inv.dvd_offset⟩

/-- **Every change keeps the invariant.** -/
theorem Change.invariant (h : Change b align closed g g') (inv : g.Invariant b align) : g'.Invariant b align := by
  -- the loops that stay open lie before the one that is closed, so their fillers are out of its reach
  have hframe (l : OpenLoop) (hl : l ∈ g.loops) (hout : ∀ c ∈ closed, l.offset + b.jumpSize ≤ c.offset) (i : Nat)
      (hi : i < b.jumpSize) : g'.code.toList[l.offset + i]? = g.code.toList[l.offset + i]? := by
    have := inv.within l hl
    exact h.getElem?_eq (by omega) fun c hc => .inl (by have := hout c hc; omega)
  cases h with
  | grows bytes journal hdvd =>
    refine inv.of_frame (List.Sublist.refl _) (by simp) ?_ fun l hl => hframe l hl nofun
    rw [Code.size_append]
    exact Nat.dvd_add inv.dvd_size hdvd
  | opens location => exact inv.opens law location
  | @forgets _ l loops hl =>
    exact inv.of_frame (by rw [hl]; exact List.sublist_cons_self l loops) (Nat.le_refl _) inv.dvd_size
      fun _ _ _ _ => rfl
  | @closes _ l loops hl jump back journal hjump hback =>
    have hgaps := inv.gaps
    rw [hl, List.pairwise_cons] at hgaps
    refine inv.of_frame (by rw [hl]; exact List.sublist_cons_self l loops) (by simp) ?_ fun l' hl' => ?_
    · rw [Code.size_append, Code.size_patch]
      exact Nat.dvd_add inv.dvd_size hback
    · refine hframe l' (by rw [hl]; exact List.mem_cons_of_mem l hl') ?_
      rintro c ⟨⟩
      exact hgaps.1 l' hl'

end

/-! ## Steps -/

lemma exists_mem_of_emitAll {xs : List (Operation b.Reg)} {f : Fault} (h : (emitAll b g xs).2 = some f) :
    ∃ x ∈ xs, (b.emit x).fault = some f := by
  obtain ⟨ys, -, -, hres⟩ := emitAll_spec xs g
  rw [h] at hres
  exact hres

lemma Change.refl (g : Generator) : Change b align none g g := by
  have := Change.grows (b := b) (g := g) [] g.journal (Nat.dvd_zero align)
  rwa [Code.append_nil] at this

section

variable (law : b.Lawful align)
include law

lemma emitAll_change (xs : List (Operation b.Reg)) (g : Generator) (e : Option Event) :
    Change b align none g (emitAll b (g.note e) xs).1 := by
  obtain ⟨ys, -, hcode, -⟩ := emitAll_spec xs (g.note e)
  rw [hcode, code_note, loops_note]
  exact .grows _ (g.note e).journal (dvd_length_flatMap law.dvd_length ys)

/-- A jump over an aligned distance fails, if it does, because it is too long. -/
lemma expected_jumpIfZero {d : Nat} (hd : d < 2 ^ 63) (hdvd : align ∣ d) {f : Fault}
    (hf : (b.emit (.jumpIfZero b.roles.tape (Int64.ofNat d))).fault = some f) : f.Expected := by
  rcases law.jumpIfZero (Int64.ofNat d) with ⟨h, -⟩ | ⟨c, h, hc⟩
  · cases h.symm.trans hf
  · rw [h] at hf
    cases hf
    refine Cause.expected_fault (hc ?_)
    rw [Int64.toInt_ofNat_of_lt hd]
    exact Int.natCast_dvd_natCast.mpr hdvd

lemma closeLoop_change (inv : g.Invariant b align) :
    Change b align g.loops.head? g (closeLoop b g).1 ∧ ∀ f, (closeLoop b g).2 = some f → f.Expected := by
  cases hl : g.loops with
  | nil =>
    have h : closeLoop b g = (g, some Cause.unmatchedClose.fault) := by simp only [closeLoop, hl]
    rw [h]
    refine ⟨.refl g, fun f hf => ?_⟩
    cases hf
    exact Cause.expected_fault (by decide)
  | cons l loops =>
    have hmem : l ∈ g.loops := by rw [hl]; exact List.mem_cons_self
    have hdvd : align ∣ g.code.size - l.offset := Nat.dvd_sub inv.dvd_size (inv.dvd_offset l hmem)
    rcases closeLoop_cases law hl (inv.within l hmem) rfl with ⟨hacc, journal, h⟩ | ⟨-, f, h, hf⟩
    · rw [h]
      refine ⟨.closes hl _ _ journal ((law.jumpIfZero _).length_eq hacc.2) (law.dvd_length _), fun f hf => ?_⟩
      cases hf
    · rw [h]
      refine ⟨.forgets hl, fun f' hf' => ?_⟩
      cases hf'
      rcases hf with ⟨-, rfl⟩ | ⟨hsmall, hf⟩
      · exact Cause.expected_fault (by decide)
      · exact expected_jumpIfZero law hsmall hdvd hf

/-- **Every step is a change,** and fails, if it does, with a failure to be reported. -/
theorem step_change (inv : g.Invariant b align) (op : Op) (location : Option Location) (memory : Memory) :
    Change b align (g.closedBy op) g (step b g op location memory).1 ∧
      ∀ f, (step b g op location memory).2 = some f → f.Expected := by
  have hplain (hop : op.isBracket = false) (hclosed : g.closedBy op = none) :
      Change b align (g.closedBy op) g (step b g op location).1 ∧
        ∀ f, (step b g op location).2 = some f → f.Expected := by
    rw [step_plain b g ⟨op, hop⟩ location, hclosed]
    refine ⟨emitAll_change law _ g _, fun f hf => ?_⟩
    obtain ⟨x, hx, hxf⟩ := exists_mem_of_emitAll hf
    exact law.expected op x hx f hxf
  rcases step_memory b g op location memory with hsame | ⟨rfl, shortage, hshort⟩
  · rw [hsame]
    cases op with
    | loopOpen =>
      change Change b align none g (openLoop b g location).1 ∧ ∀ f, (openLoop b g location).2 = some f → _
      rw [openLoop_eq law]
      exact ⟨.opens location, nofun⟩
    | loopClose => exact closeLoop_change law inv
    | _ => exact hplain rfl rfl
  · rw [hshort]
    refine ⟨.refl g, ?_⟩
    rintro _ ⟨⟩
    exact Cause.expected_fault nofun

end

/-! ## Runs -/

/-- **What every step keeps holds after every run of ops,** also of one that fails; and what holds of every failure of a
step holds of that. -/
theorem stepsAt_kept {P : Generator → Prop} {Q : Fault → Prop} {memory : Memory}
    (hstep : ∀ g op location, P g → P (step b g op location memory).1 ∧
      ∀ f, (step b g op location memory).2 = some f → Q (f.orContext op.symbol location))
    (hg : P g) (ops : List (Op × Option Location)) :
    P (stepsAt b g ops memory).1 ∧ ∀ f, (stepsAt b g ops memory).2 = some f → Q f := by
  induction ops generalizing g with
  | nil => exact ⟨hg, nofun⟩
  | cons x ops ih =>
    obtain ⟨hkept, hfault⟩ := hstep g x.1 x.2 hg
    rcases hx : step b g x.1 x.2 memory with ⟨g₁, _ | f⟩ <;> rw [hx] at hkept hfault
    · rw [stepsAt_cons_of_ok hx]
      exact ih hkept
    · rw [stepsAt_cons_of_fault hx]
      refine ⟨hkept, ?_⟩
      rintro _ ⟨⟩
      exact hfault f rfl

section

variable (law : b.Lawful align)
include law

lemma stepsAt_invariant (inv : g.Invariant b align) (ops : List (Op × Option Location)) (memory : Memory) :
    (stepsAt b g ops memory).1.Invariant b align ∧ ∀ f, (stepsAt b g ops memory).2 = some f → f.Expected := by
  refine stepsAt_kept (fun g op location inv => ?_) inv ops
  obtain ⟨hchange, hexp⟩ := step_change law inv op location memory
  exact ⟨hchange.invariant law inv, fun f hf => (hexp f hf).orContext _ _⟩

end

end Generator

/-! ## Calls -/

lemma Op.kind_of_next {b : UInt8} {rest : Bytes} {d : Diagnostic} (h : Op.next b rest = .error d) :
    d.kind ≠ .invalidJumpAlignment := by
  unfold Op.next at h
  split at h
  · cases h
  · split at h
    · cases h
    · next hcount =>
      cases h
      unfold Op.readCount at hcount
      dsimp only at hcount
      split at hcount
      · cases hcount
        nofun
      · split at hcount <;> cases hcount
        nofun
  · split at h <;> cases h
    nofun

lemma Op.kind_of_readFrom {text : Bytes} {d : Diagnostic} {read ops : List Op}
    (h : readFrom read text = (ops, some d)) : d.kind ≠ .invalidJumpAlignment := by
  fun_induction readFrom read text with
  | case1 => cases h
  | case2 read b rest op rest' hnext ih => exact ih h
  | case3 read b rest d' hnext =>
    cases h
    exact kind_of_next hnext

/-- A call of a generator, and the memory there is for it. -/
inductive Call where
  | prologue
  | epilogue
  | source (bytes : Bytes) (memory : Memory := .plenty)
  | text (bytes : Bytes) (memory : Memory := .plenty)

namespace Generator

def call (b : Backend) (g : Generator) : Call → Generator × Option Fault
  | .prologue => emitAll b g b.prologue
  | .epilogue => emitAll b g b.epilogue
  | .source bytes memory => compileSource b g bytes memory
  | .text bytes memory => compileText b g bytes memory

/-- A new generator after some calls, whether they failed or not. -/
def after (b : Backend) (calls : List Call) : Generator := calls.foldl (fun g c => (g.call b c).1) {}

variable {b : Backend} {align : Nat} {g : Generator}

lemma after_kept {P : Generator → Prop} (hnew : P {}) (hcall : ∀ g c, P g → P (g.call b c).1) (calls : List Call) :
    P (after b calls) := by
  suffices h : ∀ g, P g → P (calls.foldl (fun g c => (g.call b c).1) g) from h {} hnew
  induction calls with
  | nil => exact fun g hg => hg
  | cons c calls ih => exact fun g hg => ih _ (hcall g c hg)

/-- **What every step keeps holds at every time:** after any calls, failed ones included, and after any ops of a further
one. -/
theorem kept_at_every_time {P : Generator → Prop} (hnew : P {}) (hprologue : ∀ g, P g → P (emitAll b g b.prologue).1)
    (hepilogue : ∀ g, P g → P (emitAll b g b.epilogue).1)
    (hstep : ∀ g op location, P g → P (step b g op location).1) (calls : List Call)
    (ops : List (Op × Option Location)) (memory : Memory) : P (stepsAt b (after b calls) ops memory).1 := by
  have hsteps (memory : Memory) (ops : List (Op × Option Location)) (g : Generator) (hg : P g) :
      P (stepsAt b g ops memory).1 := by
    refine (stepsAt_kept (Q := fun _ => True) (fun g op location hg => ⟨?_, fun _ _ => trivial⟩) hg ops).1
    rcases step_memory b g op location memory with hsame | ⟨-, shortage, hshort⟩
    · rw [hsame]
      exact hstep g op location hg
    · rw [hshort]
      exact hg
  refine hsteps memory ops _ (after_kept hnew (fun g c hg => ?_) calls)
  cases c with
  | prologue => exact hprologue g hg
  | epilogue => exact hepilogue g hg
  | source bytes memory =>
    rcases compileSource_cases b g bytes memory with hsource | ⟨shortage, hshort⟩
    · rw [call, hsource, fst_finish]
      exact hsteps memory _ g hg
    · rw [call, hshort]
      exact hg
  | text bytes memory =>
    rcases compileText_cases b g bytes memory with htext | ⟨shortage, hshort⟩
    · rw [call, htext, fst_finishText]
      exact hsteps memory _ g hg
    · rw [call, hshort]
      exact hg

lemma invariant_new (b : Backend) (align : Nat) : Invariant b align {} :=
  ⟨List.Pairwise.nil, nofun, nofun, Nat.dvd_zero align, nofun⟩

lemma expected_unclosed? {f : Fault} (h : g.unclosed? = some f) : f.Expected := by
  obtain ⟨l, -, rfl⟩ := Option.map_eq_some_iff.mp h
  exact ⟨_, rfl, nofun⟩

lemma finish_invariant {r : Generator × Option Fault}
    (h : r.1.Invariant b align ∧ ∀ f, r.2 = some f → f.Expected) :
    (finish r).1.Invariant b align ∧ ∀ f, (finish r).2 = some f → f.Expected := by
  obtain ⟨g, _ | f⟩ := r
  · exact ⟨h.1, fun f hf => expected_unclosed? hf⟩
  · exact h

lemma finishText_invariant {r : Generator × Option Fault} {refusal : Option Diagnostic}
    (hrefusal : ∀ d, refusal = some d → d.kind ≠ .invalidJumpAlignment)
    (h : r.1.Invariant b align ∧ ∀ f, r.2 = some f → f.Expected) :
    (finishText refusal r).1.Invariant b align ∧ ∀ f, (finishText refusal r).2 = some f → f.Expected := by
  cases refusal with
  | none => exact finish_invariant h
  | some d =>
    obtain ⟨g, _ | f⟩ := r
    · refine ⟨h.1, ?_⟩
      rintro _ ⟨⟩
      exact ⟨d, rfl, hrefusal d rfl⟩
    · exact h

section

variable (law : b.Lawful align)
include law

/-- **Every call keeps the invariant,** and fails, if it does, with a failure to be reported. -/
theorem call_invariant (inv : g.Invariant b align) (c : Call) :
    (g.call b c).1.Invariant b align ∧ ∀ f, (g.call b c).2 = some f → f.Expected := by
  cases c with
  | prologue =>
    refine ⟨(emitAll_change law b.prologue g none).invariant law inv, fun f hf => ?_⟩
    obtain ⟨x, hx, hxf⟩ := exists_mem_of_emitAll hf
    cases (law.prologue_fault x hx).symm.trans hxf
  | epilogue =>
    refine ⟨(emitAll_change law b.epilogue g none).invariant law inv, fun f hf => ?_⟩
    obtain ⟨x, hx, hxf⟩ := exists_mem_of_emitAll hf
    cases (law.epilogue_fault x hx).symm.trans hxf
  | source bytes memory =>
    rcases compileSource_cases b g bytes memory with hsource | ⟨shortage, hshort⟩
    · rw [call, hsource]
      exact finish_invariant (stepsAt_invariant law inv _ memory)
    · rw [call, hshort]
      exact ⟨inv, fun f hf => Option.some.inj hf ▸ Cause.expected_fault nofun⟩
  | text bytes memory =>
    rcases compileText_cases b g bytes memory with htext | ⟨shortage, hshort⟩
    · rw [call, htext]
      exact finishText_invariant (fun d hd => Op.kind_of_readFrom (Prod.ext rfl hd))
        (stepsAt_invariant law inv _ memory)
    · rw [call, hshort]
      exact ⟨inv, fun f hf => Option.some.inj hf ▸ Cause.expected_fault nofun⟩

end

/-- **What holds at every time of code generation.** Take the state `g` after any calls, failed ones included, and
after any ops of a further one. It has the invariant; whatever is called or compiled next, a failure is one to be
reported, and not about alignment; and an op never shortens the code, and changes none of its bytes outside the
filler of the loop that it closes. -/
theorem invariant_at_every_time (arch : Arch) (calls : List Call) (ops : List (Op × Option Location))
    (memory : Memory) :
    let b := arch.backend
    let g := (stepsAt b (after b calls) ops memory).1
    g.Invariant b arch.alignment ∧ (∀ c f, (g.call b c).2 = some f → f.Expected) ∧
      ∀ op location memory, (∀ f, (step b g op location memory).2 = some f → f.Expected) ∧
        g.code.size ≤ (step b g op location memory).1.code.size ∧
        ∀ i < g.code.size, (∀ l ∈ g.closedBy op, ¬ (l.offset ≤ i ∧ i < l.offset + b.jumpSize)) →
          (step b g op location memory).1.code.toList[i]? = g.code.toList[i]? := by
  intro b g
  have hafter : (after b calls).Invariant b arch.alignment :=
    after_kept (invariant_new b arch.alignment) (fun g c inv => (call_invariant arch.lawful inv c).1) calls
  have inv : g.Invariant b arch.alignment := (stepsAt_invariant arch.lawful hafter ops memory).1
  refine ⟨inv, fun c => (call_invariant arch.lawful inv c).2, fun op location memory => ?_⟩
  obtain ⟨hchange, hexp⟩ := step_change arch.lawful inv op location memory
  refine ⟨hexp, hchange.size_le, fun i hi hout => hchange.getElem?_eq hi fun l hl => ?_⟩
  exact (Nat.lt_or_ge i l.offset).imp_right fun h => Nat.le_of_not_lt fun h' => hout l hl ⟨h, h'⟩

end Generator

end TapeElf
