import TapeElf.Proofs.Elf.AddressSpace
import TapeElf.Proofs.FrontEnds
import TapeElf.Proofs.PartialCode

/-!
# What a compilation delivers

A compilation can fail when it reads, when it generates code and when it delivers the executable; and after a failure of
generation it still delivers that of the code so far.

* `Arch.Delivers` says what a sink ends up with and what is reported, whatever fails. This is what happens, except for
  code that runs past the end of a 64-bit address space, which is not found to do so, and code that just fills a 32-bit
  one, which is found not to fit (`delivers_iff`);
* `Arch.ReportsFirst` says that a failure of generation is the one that is reported. It is reported only if the
  executable of the code so far gets through, and else the later failure is (`reportsFirst_iff`).
-/

namespace TapeElf

/-! ## Sinks -/

namespace Sink

variable {s : Sink}

/-- It takes `n` bytes and two flushes. -/
def Takes (s : Sink) (n : Nat) : Prop := (∀ room, s.room = some room → n ≤ room) ∧ s.badFlush ≠ 1 ∧ s.badFlush ≠ 2

/-- What it keeps of some bytes. -/
def kept (s : Sink) (bytes : Bytes) : Bytes :=
  match s.room with
  | none => bytes
  | some room => bytes.take room

@[simp] lemma kept_nil (s : Sink) : s.kept [] = [] := by
  unfold kept
  split
  · rfl
  · exact List.take_nil

@[simp] lemma badFlush_write (s : Sink) (bytes : Bytes) : (s.write bytes).1.badFlush = s.badFlush := by
  unfold write
  split
  · rfl
  · split <;> rfl

end Sink

/-! ## Deliveries -/

section

variable {b : Backend} {options : Options} {size : Nat} {sink : Sink} {g : Generator} {fault : Option Fault}
  {l : Elf.Layout} (hl : (b.executable options.tapeBlocks).layout = .ok l)
include hl

/-- Code that is found not to fit is not delivered. -/
lemma deliver_of_not_fits
    (h : ¬ (b.executable options.tapeBlocks).fitsAddressSpace l (0x100 + g.code.toList.length) = true) :
    (deliver b options size sink g fault).sink = sink ∧
      (deliver b options size sink g fault).result = .error Cause.imageTooLarge.fault := by
  rw [deliver, Elf.Executable.write_of_not_fits hl h]
  exact ⟨rfl, rfl⟩

/-- Any other is delivered as far as there is room, and a refusal of the sink is reported before anything else. -/
lemma deliver_of_fits
    (h : (b.executable options.tapeBlocks).fitsAddressSpace l (0x100 + g.code.toList.length) = true) :
    (deliver b options size sink g fault).sink.received =
        sink.received ++ sink.kept ((b.executable options.tapeBlocks).imageAt l g.code.toList) ∧
      (sink.Takes (0x100 + g.code.toList.length) ∧ (deliver b options size sink g fault).result =
          fault.elim (.ok { codeSize := g.code.toList.length, fileSize := 0x100 + g.code.toList.length }) .error ∨
        ¬ sink.Takes (0x100 + g.code.toList.length) ∧ ∃ e : SinkError,
          (deliver b options size sink g fault).result = .error (Cause.write e.message).fault) := by
  have hlen := Elf.Executable.length_imageAt (Elf.Layout.sound_of hl) g.code.toList
  have hroom := sink.write_eq_none_iff ((b.executable options.tapeBlocks).imageAt l g.code.toList)
  have hflush := sink.badFlush_write ((b.executable options.tapeBlocks).imageAt l g.code.toList)
  have hreceived := sink.received_write ((b.executable options.tapeBlocks).imageAt l g.code.toList)
  rw [hlen] at hroom
  simp only [deliver, Elf.Executable.write_eq_image, Elf.Executable.image_of_fits hl h, hlen, Sink.Takes, ← hroom]
  generalize sink.write ((b.executable options.tapeBlocks).imageAt l g.code.toList) = written at hflush hreceived ⊢
  obtain ⟨s₁, refusal⟩ := written
  dsimp only at hflush hreceived
  cases refusal with
  | some e => exact ⟨hreceived, .inr ⟨fun htakes => (nomatch htakes.1), e, rfl⟩⟩
  | none =>
    -- the first flush is that of the file, the second that of the compilation
    by_cases hfirst : s₁.badFlush = 1
    · simp only [Sink.flush, hfirst, if_true]
      exact ⟨hreceived, .inr ⟨fun htakes => htakes.2.1 (hflush.symm.trans hfirst), .flush, rfl⟩⟩
    by_cases hsecond : s₁.badFlush - 1 = 1
    · simp only [Sink.flush, hfirst, hsecond, if_true, if_false]
      exact ⟨hreceived, .inr ⟨fun htakes => htakes.2.2 (by omega), .flush, rfl⟩⟩
    · refine ⟨?_, .inl ⟨⟨rfl, by omega, by omega⟩, ?_⟩⟩
      · simp only [Sink.flush, hfirst, hsecond, if_false]
        exact hreceived
      · cases fault <;> simp only [Sink.flush, hfirst, hsecond, if_false, Code.length_toList, Option.elim]

end

/-! ## Compilations -/

section

variable {arch : Arch} {source : Reader} {sink : Sink} {options : Options} {memory : Memory}

/-- All architectures are enabled. -/
lemma compile_eq_backend (arch : Arch) (source : Reader) (sink : Sink) (options : Options) (memory : Memory) :
    compile arch source sink options memory = arch.backend.compile source sink options memory := by
  have henabled : arch.isEnabled = true := by cases arch <;> rfl
  rw [compile, if_pos henabled]

lemma compile_of_layout_error {d : Diagnostic}
    (h : (arch.backend.executable options.tapeBlocks).layout = .error d) :
    compile arch source sink options memory = { sink, result := .error (.reported d) } := by
  rw [compile_eq_backend, Backend.compile, h]

variable {l : Elf.Layout} (hl : (arch.backend.executable options.tapeBlocks).layout = .ok l)
include hl

lemma compile_of_read_failure {text : String} (h : source.failure = some text) :
    compile arch source sink options memory = { sink, result := .error (Cause.read text).fault } := by
  rw [compile_eq_backend, Backend.compile, hl, h]

lemma compile_eq_deliver (h : source.failure = none) :
    compile arch source sink options memory = deliver arch.backend options source.bytes.length sink
      (Generator.generate arch.backend source.bytes options.optimize memory).1
      (Generator.generate arch.backend source.bytes options.optimize memory).2 := by
  rw [compile_eq_backend, Backend.compile, hl, h]

end

/-! ## What is due -/

/-- The file that is due for the code of a source. There is none if the tape is refused or the source cannot be read;
and none if the code does not fit the address space, where it may go up to the last byte. -/
def Arch.due (arch : Arch) (source : Reader) (options : Options) (code : Bytes) : Bytes :=
  match (arch.backend.executable options.tapeBlocks).layout, source.failure with
  | .ok l, none =>
    if l.codeEnd code ≤ 2 ^ arch.backend.elfClass.addressBits then
      (arch.backend.executable options.tapeBlocks).imageAt l code
    else []
  | _, _ => []

/-- What a compilation of a source comes to, for every sink. -/
structure Arch.Delivers (arch : Arch) (source : Reader) (options : Options) : Prop where
  generated : ∃ code ok, arch.Generates source.bytes options.optimize code ok
  /-- The sink keeps what it has room for of the file that is due. -/
  received : ∀ sink code ok, arch.Generates source.bytes options.optimize code ok →
    (compile arch source sink options).sink.received = sink.received ++ sink.kept (arch.due source options code)
  /-- Success is reported if there is a file, which the sink takes, of a source that was generated to its end. -/
  succeeds : ∀ l sink code stats, (arch.backend.executable options.tapeBlocks).layout = .ok l →
    source.failure = none → arch.Generates source.bytes options.optimize code true →
      ((compile arch source sink options).result = .ok stats ↔
        stats = { codeSize := code.length, fileSize := (arch.due source options code).length } ∧
          arch.due source options code ≠ [] ∧ sink.Takes (arch.due source options code).length)
  /-- A sink that does not take the file is reported. -/
  refused : ∀ sink code ok, arch.Generates source.bytes options.optimize code ok →
    arch.due source options code ≠ [] → ¬ sink.Takes (arch.due source options code).length →
      ∃ e : SinkError, (compile arch source sink options).result = .error (Cause.write e.message).fault

/-- Whether the code of a source fits the address space is judged, and wrongly. -/
def Arch.Misjudges (arch : Arch) (source : Reader) (options : Options) : Prop :=
  source.failure = none ∧ ∃ code ok, arch.Generates source.bytes options.optimize code ok ∧
    (arch.backend.executable options.tapeBlocks).Misjudged code

section

variable {arch : Arch} {source : Reader} {sink : Sink} {options : Options} {l : Elf.Layout} {code : Bytes} {ok : Bool}

lemma due_of_fits (hl : (arch.backend.executable options.tapeBlocks).layout = .ok l) (hread : source.failure = none)
    (h : l.codeEnd code ≤ 2 ^ arch.backend.elfClass.addressBits) :
    arch.due source options code = (arch.backend.executable options.tapeBlocks).imageAt l code := by
  simp only [Arch.due, hl, hread, h, if_true]

lemma due_of_not_fits (hl : (arch.backend.executable options.tapeBlocks).layout = .ok l)
    (h : ¬ l.codeEnd code ≤ 2 ^ arch.backend.elfClass.addressBits) : arch.due source options code = [] := by
  cases hread : source.failure <;> simp only [Arch.due, hl, hread, h, if_false]

lemma exists_layout_of_due (h : arch.due source options code ≠ []) :
    ∃ l, (arch.backend.executable options.tapeBlocks).layout = .ok l ∧ source.failure = none := by
  unfold Arch.due at h
  split at h
  · next l hl hread => exact ⟨l, hl, hread⟩
  · exact absurd rfl h

lemma received_of_unreadable (sink : Sink) (code : Bytes)
    (h : ∀ l, (arch.backend.executable options.tapeBlocks).layout = .ok l → source.failure ≠ none) :
    arch.due source options code = [] ∧ (compile arch source sink options).sink.received = sink.received := by
  cases hl : (arch.backend.executable options.tapeBlocks).layout with
  | error d =>
    rw [compile_of_layout_error hl]
    exact ⟨by simp only [Arch.due, hl], rfl⟩
  | ok l =>
    obtain ⟨text, hread⟩ := Option.ne_none_iff_exists'.mp (h l hl)
    rw [compile_of_read_failure hl hread]
    exact ⟨by simp only [Arch.due, hl, hread], rfl⟩

/-- A compilation that gets to its delivery delivers what is due, or finds that the code does not fit. -/
lemma compile_cases (h : ¬ arch.Misjudges source options)
    (hl : (arch.backend.executable options.tapeBlocks).layout = .ok l) (hread : source.failure = none)
    (hgen : arch.Generates source.bytes options.optimize code ok) (sink : Sink) :
    (arch.due source options code = [] ∧ (compile arch source sink options).sink = sink ∧
      (compile arch source sink options).result = .error Cause.imageTooLarge.fault) ∨
    ((arch.due source options code).length = 0x100 + code.length ∧
      (compile arch source sink options).sink.received = sink.received ++ sink.kept (arch.due source options code) ∧
      (sink.Takes (0x100 + code.length) ∧ (ok = true → (compile arch source sink options).result =
          .ok { codeSize := code.length, fileSize := 0x100 + code.length }) ∨
        ¬ sink.Takes (0x100 + code.length) ∧ ∃ e : SinkError,
          (compile arch source sink options).result = .error (Cause.write e.message).fault)) := by
  have hfits : (arch.backend.executable options.tapeBlocks).fitsAddressSpace l (0x100 + code.length) = true ↔
      l.codeEnd code ≤ 2 ^ arch.backend.elfClass.addressBits := by
    by_contra hwrong
    exact h ⟨hread, code, ok, hgen, (Elf.Executable.misjudged_iff hl).mpr hwrong⟩
  obtain ⟨rfl, rfl⟩ := Generator.generate_of_generates hgen
  rw [compile_eq_deliver hl hread]
  by_cases hend : l.codeEnd (Generator.generate arch.backend source.bytes options.optimize).1.code.toList ≤
      2 ^ arch.backend.elfClass.addressBits
  · obtain ⟨hreceived, hresult⟩ := deliver_of_fits hl (hfits.mpr hend)
    rw [due_of_fits hl hread hend]
    refine .inr ⟨Elf.Executable.length_imageAt (Elf.Layout.sound_of hl) _, hreceived, ?_⟩
    rcases hresult with ⟨htakes, hresult⟩ | hrefused
    · refine .inl ⟨htakes, fun hok => ?_⟩
      rw [hresult, Option.isNone_iff_eq_none.mp hok, Option.elim_none]
    · exact .inr hrefused
  · exact .inl ⟨due_of_not_fits hl hend, deliver_of_not_fits hl fun hfit => hend (hfits.mp hfit)⟩

end

lemma delivers_of_not_misjudges {arch : Arch} {source : Reader} {options : Options}
    (h : ¬ arch.Misjudges source options) : arch.Delivers source options where
  generated := Generator.exists_generates arch source.bytes options.optimize
  received sink code ok hgen := by
    by_cases hready : ∃ l, (arch.backend.executable options.tapeBlocks).layout = .ok l ∧ source.failure = none
    · obtain ⟨l, hl, hread⟩ := hready
      rcases compile_cases h hl hread hgen sink with ⟨hdue, hsink, -⟩ | ⟨-, hreceived, -⟩
      · rw [hsink, hdue, Sink.kept_nil, List.append_nil]
      · exact hreceived
    · obtain ⟨hdue, hreceived⟩ := received_of_unreadable sink code fun l hl hread => hready ⟨l, hl, hread⟩
      rw [hreceived, hdue, Sink.kept_nil, List.append_nil]
  succeeds l sink code stats hl hread hgen := by
    rcases compile_cases h hl hread hgen sink with
      ⟨hdue, -, hresult⟩ | ⟨hlen, -, ⟨htakes, hresult⟩ | ⟨htakes, e, hresult⟩⟩
    · rw [hresult, hdue]
      exact ⟨nofun, fun hok => absurd rfl hok.2.1⟩
    · have hne : arch.due source options code ≠ [] := List.ne_nil_of_length_pos (by omega)
      rw [hresult rfl, hlen]
      exact ⟨fun hstats => ⟨(Except.ok.inj hstats).symm, hne, htakes⟩, fun hok => congrArg _ hok.1.symm⟩
    · rw [hresult, hlen]
      exact ⟨nofun, fun hok => absurd hok.2.2 htakes⟩
  refused sink code ok hgen hdue htakes := by
    obtain ⟨l, hl, hread⟩ := exists_layout_of_due hdue
    rcases compile_cases h hl hread hgen sink with ⟨hnone, -⟩ | ⟨hlen, -, ⟨htakes', -⟩ | ⟨-, hresult⟩⟩
    · exact absurd hnone hdue
    · rw [hlen] at htakes
      exact absurd htakes' htakes
    · exact hresult

/-- A sink without a limit receives a file where none is due, or none where one is. -/
lemma not_delivers_of_misjudges {arch : Arch} {source : Reader} {options : Options}
    (h : arch.Misjudges source options) : ¬ arch.Delivers source options := by
  intro hdelivers
  obtain ⟨hread, code, ok, hgen, hwrong⟩ := h
  obtain ⟨l, hl⟩ := hwrong.exists_layout
  have hlen := Elf.Executable.length_imageAt (Elf.Layout.sound_of hl) code
  have hreceived := congrArg List.length (hdelivers.received {} code ok hgen)
  rw [compile_eq_deliver hl hread] at hreceived
  rw [Elf.Executable.misjudged_iff hl] at hwrong
  obtain ⟨rfl, -⟩ := Generator.generate_of_generates hgen
  apply hwrong
  constructor
  · intro hfits
    by_contra hend
    rw [due_of_not_fits hl hend, (deliver_of_fits hl hfits).1, Sink.kept_nil] at hreceived
    simp only [Sink.kept, List.nil_append, List.length_nil, hlen] at hreceived
    omega
  · intro hend
    by_contra hfits
    rw [due_of_fits hl hread hend, (deliver_of_not_fits hl hfits).1] at hreceived
    simp only [Sink.kept, List.nil_append, List.length_nil, hlen] at hreceived
    omega

/-- **Compilations deliver what is due, except for code that is misjudged:** code that runs past the end of a 64-bit
address space, and code that just fills a 32-bit one. -/
theorem delivers_iff (arch : Arch) (source : Reader) (options : Options) :
    arch.Delivers source options ↔ ¬ arch.Misjudges source options :=
  ⟨fun hdelivers hwrong => not_delivers_of_misjudges hwrong hdelivers, delivers_of_not_misjudges⟩

lemma sourceOps_replicate (n : Nat) (c : Command) :
    sourceOps (List.replicate n c.byte) = List.replicate n (.ofCommand c) := by
  rw [sourceOps, Command.ofSource, List.filterMap_replicate_of_some (Command.ofByte?_byte c), Command.ops,
    List.map_replicate]

lemma exists_generates_outputs (n : Nat) : ∃ code,
    Arch.x86_64.Generates (List.replicate n Command.output.byte) false code true ∧ code.length = 20 * n + 14 := by
  have hops : subjectOps (List.replicate n Command.output.byte) false =
      .ok (Program.ofPlain (List.replicate n ⟨.output, rfl⟩)).ops := by
    rw [ops_ofPlain_replicate]
    exact congrArg Except.ok (sourceOps_replicate n .output)
  have hfits : Arch.x86_64.backend.Fits (Program.ofPlain (List.replicate n ⟨.output, rfl⟩)) := by
    apply Backend.fits_ofPlain
    intro o ho
    rw [List.eq_of_mem_replicate ho]
    exact Arch.x86_64.faultless_ofCommand .output
  have hprologue : (Arch.x86_64.backend.bytes Arch.x86_64.backend.prologue).length = 5 := by decide +kernel
  have hepilogue : (Arch.x86_64.backend.bytes Arch.x86_64.backend.epilogue).length = 9 := by decide +kernel
  have houtput : (Arch.x86_64.backend.opCode .output).length = 20 := by decide +kernel
  refine ⟨_, .compiled hops (.whole rfl hfits), ?_⟩
  rw [if_pos rfl, List.length_append, List.length_append, Backend.length_code_replicate, hprologue, hepilogue, houtput]
  omega

/-- Behind a tape of 4503599627370463 blocks, the code of 4000 times `.` does not fit. -/
theorem not_delivers_four_thousand_outputs :
    ¬ Arch.x86_64.Delivers { bytes := List.replicate 4000 46 } { tapeBlocks := 4503599627370463 } := by
  apply not_delivers_of_misjudges
  obtain ⟨code, hgen, hlen⟩ := exists_generates_outputs 4000
  have hlayout : (Arch.x86_64.backend.executable 4503599627370463).layout = .ok
      { tapeSize := 18446744073709416448, loadAddress := 18446744073709486080, codeOffset := 0x100 } := by
    decide +kernel
  refine ⟨rfl, code, true, hgen, .inl ⟨rfl, ?_, _, hlayout, ?_⟩⟩
  · rw [hlen]
    decide
  · rw [Elf.Layout.codeEnd, hlen]
    decide

/-! ## Two failures -/

/-- The failure is about an instruction, if it is one to be reported. -/
def Fault.OfCode (f : Fault) : Prop := ∀ d, f = .reported d → d.instruction ≠ none

lemma Cause.not_ofCode (c : Cause) : ¬ c.fault.OfCode := fun h => h _ rfl rfl

lemma Fault.ofCode_orContext (f : Fault) (c : Char) (location : Option Location) : (f.orContext c location).OfCode := by
  intro d hd
  cases f with
  | defect => cases hd
  | reported d' =>
    cases hd
    show (d'.instruction <|> some c) ≠ none
    cases d'.instruction <;> nofun

lemma ofCode_of_bracketFault? {loc : Location} {opened : List Location} {source : Bytes} {d : Diagnostic}
    (h : bracketFault? loc opened source = some d) : d.instruction ≠ none := by
  rcases cases_of_bracketFault? h with ⟨l, rfl⟩ | ⟨pre, post, -, rfl⟩ <;> nofun

lemma ofCode_of_condenseRuns {rs : List (Command × Nat)} {d : Diagnostic} (h : rs.mapM condenseRun = .error d) :
    d.instruction ≠ none := by
  induction rs with
  | nil => cases h
  | cons r rs ih =>
    rw [List.mapM_cons] at h
    cases hr : condenseRun r with
    | error e =>
      rw [hr] at h
      cases h
      unfold condenseRun at hr
      split at hr
      · split at hr
        · cases hr
        · cases hr
          nofun
      · cases hr
    | ok part =>
      rw [hr] at h
      cases hrest : rs.mapM condenseRun with
      | error e =>
        rw [hrest] at h
        cases h
        exact ih hrest
      | ok parts =>
        rw [hrest] at h
        cases h

/-- The optimiser rejects a source for its brackets or for a run of commands. -/
lemma ofCode_of_optimize {source : Bytes} {d : Diagnostic} (h : optimize source = .error d) : d.instruction ≠ none := by
  unfold optimize at h
  split at h
  · next d' hd' =>
    cases h
    exact ofCode_of_bracketFault? hd'
  · cases hparts : (runs (simplify (Command.ofSource source))).mapM condenseRun with
    | error e =>
      rw [condense, hparts] at h
      cases h
      exact ofCode_of_condenseRuns hparts
    | ok parts =>
      rw [condense, hparts] at h
      cases h

namespace Generator

variable {b : Backend} {g : Generator}

lemma ofCode_of_stepsAt {located : List (Op × Option Location)} {f : Fault} (h : (stepsAt b g located).2 = some f) :
    f.OfCode := by
  refine (stepsAt_kept (P := fun _ => True) (fun _ _ _ _ => ⟨trivial, ?_⟩) trivial located).2 f h
  exact fun f _ => f.ofCode_orContext _ _

lemma ofCode_of_finish {r : Generator × Option Fault} (hr : ∀ f, r.2 = some f → f.OfCode) {f : Fault}
    (h : (finish r).2 = some f) : f.OfCode := by
  obtain ⟨g, _ | f'⟩ := r
  · obtain ⟨l, -, rfl⟩ := Option.map_eq_some_iff.mp h
    intro d hd
    cases hd
    nofun
  · exact hr f h

/-- **Generation fails at an instruction.** -/
theorem ofCode_of_generate {arch : Arch} {source : Bytes} {optimized : Bool} {f : Fault}
    (h : (generate arch.backend source optimized).2 = some f) : f.OfCode := by
  simp only [generate, emitAll_eq arch.lawful.prologue_fault] at h
  cases hops : subjectOps source optimized with
  | error d =>
    rw [compileBody_of_error _ _ hops] at h
    cases h
    cases optimized with
    | false => cases hops
    | true =>
      intro d' hd'
      cases hd'
      exact ofCode_of_optimize hops
  | ok ops =>
    obtain ⟨g₀, located, -, -, -, hbody⟩ := compileBody_of_ok arch.backend
      { code := ({} : Generator).code.append (arch.backend.bytes arch.backend.prologue) } hops
    rw [hbody] at h
    rcases hfinish : finish (stepsAt arch.backend g₀ located) with ⟨g₁, _ | f₁⟩ <;> rw [hfinish] at h
    · simp only [emitAll_eq arch.lawful.epilogue_fault] at h
      cases h
    · cases h
      exact ofCode_of_finish (fun f => ofCode_of_stepsAt) (congrArg Prod.snd hfinish)

end Generator

/-- A failure of generation is what is reported of a compilation, whatever happens when the executable of the code so
far is delivered. -/
def Arch.ReportsFirst (arch : Arch) (source : Reader) (sink : Sink) (options : Options) : Prop :=
  ∀ l g f, (arch.backend.executable options.tapeBlocks).layout = .ok l → source.failure = none →
    Generator.generate arch.backend source.bytes options.optimize = (g, some f) →
      (compile arch source sink options).result = .error f

section

variable {arch : Arch} {source : Reader} {sink : Sink} {options : Options}

/-- Where the failure of generation is reported, the executable of the code so far has got through. -/
lemma Arch.ReportsFirst.takes (h : arch.ReportsFirst source sink options) {l : Elf.Layout} {code : Bytes}
    (hl : (arch.backend.executable options.tapeBlocks).layout = .ok l) (hread : source.failure = none)
    (hgen : arch.Generates source.bytes options.optimize code false) :
    (arch.backend.executable options.tapeBlocks).fitsAddressSpace l (0x100 + code.length) = true ∧
      sink.Takes (0x100 + code.length) := by
  obtain ⟨rfl, hfails⟩ := Generator.generate_of_generates hgen
  obtain ⟨f, hf⟩ := Option.isSome_iff_exists.mp (Option.isNone_eq_false_iff.mp hfails)
  have hresult := h l _ f hl hread (Prod.ext rfl hf)
  have hcode := Generator.ofCode_of_generate hf
  rw [compile_eq_deliver hl hread] at hresult
  by_cases hfits : (arch.backend.executable options.tapeBlocks).fitsAddressSpace l
      (0x100 + (Generator.generate arch.backend source.bytes options.optimize).1.code.toList.length) = true
  · refine ⟨hfits, ?_⟩
    rcases (deliver_of_fits hl hfits).2 with ⟨htakes, -⟩ | ⟨-, e, hrefused⟩
    · exact htakes
    · rw [hrefused] at hresult
      cases hresult
      exact absurd hcode (Cause.not_ofCode _)
  · rw [(deliver_of_not_fits hl hfits).2] at hresult
    cases hresult
    exact absurd hcode (Cause.not_ofCode _)

lemma reportsFirst_of_takes (h : ∀ l code, (arch.backend.executable options.tapeBlocks).layout = .ok l →
    source.failure = none → arch.Generates source.bytes options.optimize code false →
      (arch.backend.executable options.tapeBlocks).fitsAddressSpace l (0x100 + code.length) = true ∧
        sink.Takes (0x100 + code.length)) : arch.ReportsFirst source sink options := by
  intro l g f hl hread hg
  obtain ⟨code, ok, hgen⟩ := Generator.exists_generates arch source.bytes options.optimize
  obtain ⟨hcode, hok⟩ := Generator.generate_of_generates hgen
  rw [hg] at hcode hok
  subst hcode hok
  obtain ⟨hfits, htakes⟩ := h l _ hl hread hgen
  rw [compile_eq_deliver hl hread, hg]
  rcases (deliver_of_fits hl hfits).2 with ⟨-, hresult⟩ | ⟨hrefused, -⟩
  · exact hresult
  · exact absurd htakes hrefused

end

/-- **The first failure is reported only if no other comes after it:** the code so far must fit, and the sink take its
executable. -/
theorem reportsFirst_iff (arch : Arch) (source : Reader) (sink : Sink) (options : Options) :
    arch.ReportsFirst source sink options ↔
      ∀ l code, (arch.backend.executable options.tapeBlocks).layout = .ok l → source.failure = none →
        arch.Generates source.bytes options.optimize code false →
          (arch.backend.executable options.tapeBlocks).fitsAddressSpace l (0x100 + code.length) = true ∧
            sink.Takes (0x100 + code.length) :=
  ⟨fun h _ _ hl hread hgen => h.takes hl hread hgen, reportsFirst_of_takes⟩

/-- The second byte of `+]` is wrong, and the sink takes nothing. -/
theorem not_reportsFirst_full_sink : ¬ Arch.x86_64.ReportsFirst { bytes := [43, 93] } { room := some 0 } {} := by
  intro h
  have hops : subjectOps [43, 93] false = .ok [.add 1, .loopClose] := by decide
  have hfits : Arch.x86_64.backend.Fits (.op ⟨.add 1, rfl⟩ .nil) :=
    Backend.fits_op.mpr ⟨Arch.x86_64.faultless_ofCommand .inc, Backend.fits_nil⟩
  have hgen : Arch.x86_64.Generates [43, 93] false _ _ :=
    .compiled hops (.stopped (t := ⟨[], .op ⟨.add 1, rfl⟩ .nil⟩) rfl ⟨nofun, hfits⟩ (.unopened rfl))
  have hlayout : (Arch.x86_64.backend.executable 8).layout = .ok
      { tapeSize := 0x8000, loadAddress := 0x20000, codeOffset := 0x100 } := by
    decide +kernel
  have hroom := (h.takes hlayout rfl hgen).2.1 0 rfl
  omega

end TapeElf
