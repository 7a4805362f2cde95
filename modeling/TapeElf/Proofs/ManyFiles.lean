import TapeElf.Proofs.Delivery
import TapeElf.Proofs.GeneratorInvariant
import TapeElf.Proofs.SourceKept

/-!
# Runs over many files

A run compiles one file after the other, each next to itself, on a disk that refuses nothing (`Files`) and with some
memory for each, of which there may be too little. What it leaves behind can be said file by file
(`Job.runsThrough_run`), provided that no output is one of the sources:

* no source is changed, so every file has the outcome that it would have alone (`Job.compileFile_eq`);
* different files have different outputs (`Job.outputPath_injective`), so no file spoils what another left.

The induction is over the files, with the invariant that the sources still to come are as they were at the start.
-/

namespace TapeElf

/-! ## Disks without directories -/

/-- What every path holds, if it holds a file. -/
structure Files where
  get : Path → Option Bytes

namespace Files

/-- Puts a file to a path, or takes it away. -/
def set (d : Files) (path : Path) (contents : Option Bytes) : Files := ⟨Function.update d.get path contents⟩

variable {d : Files} {path path' : Path} {a b : Option Bytes}

@[simp] lemma get_set_self : (d.set path a).get path = a := Function.update_self ..

lemma get_set_of_ne (h : path' ≠ path) : (d.set path a).get path' = d.get path' := Function.update_of_ne h ..

@[simp] lemma set_set : (d.set path a).set path b = d.set path b := congrArg Files.mk (Function.update_idem ..)

end Files

/-- A file can be opened if it is there; and whatever is written, or removed, can be. -/
instance : Disk (StateM Files) where
  openRead path := fun d => ((d.get path).elim (.error .notFound) fun _ => .ok (), d)
  read path := fun d => ((d.get path).elim (.error .notFound) .ok, d)
  create path := fun d => (.ok (), d.set path (some []))
  write path data := fun d => (.ok (), d.set path (some data))
  remove path := fun d => (.ok (), d.set path none)

/-! ## Memory -/

namespace Generator

variable {b : Backend} {g g' : Generator} {source : Bytes} {optimized : Bool} {memory : Memory}

lemma compileBody_of_ok_memory (h : compileBody b g source optimized memory = (g', none)) :
    compileBody b g source optimized = (g', none) := by
  cases optimized with
  | false => exact compileSource_of_ok h
  | true =>
    simp only [compileBody, if_true] at h ⊢
    cases hops : optimize source with
    | error d =>
      rw [hops] at h
      cases h
    | ok ops =>
      simp only [hops] at h ⊢
      exact compileText_of_ok h

/-- A program that is generated with some memory is generated so without a limit. -/
lemma generate_of_ok_memory (h : generate b source optimized memory = (g, none)) :
    generate b source optimized = (g, none) := by
  unfold generate at h ⊢
  rcases hprologue : emitAll b {} b.prologue with ⟨g₁, _ | f⟩ <;> rw [hprologue] at h
  · rcases hbody : compileBody b g₁ source optimized memory with ⟨g₂, _ | f⟩ <;> simp only [hbody] at h
    · simp only [compileBody_of_ok_memory hbody]
      exact h
    · cases h
  · cases h

/-! ## Failures are reported -/

lemma reported_of_compileBody {align : Nat} (law : b.Lawful align) (inv : g.Invariant b align) {f : Fault}
    (h : (compileBody b g source optimized memory).2 = some f) : ∃ d, f = .reported d := by
  unfold compileBody at h
  split at h
  · split at h
    · cases h
      exact ⟨_, rfl⟩
    · next ops _ =>
      have hnote := (emitAll_change law [] g (some (optimizeEvent source ops))).invariant law inv
      obtain ⟨d, rfl, -⟩ := (call_invariant law hnote (.text (Op.bytes ops) memory)).2 f h
      exact ⟨d, rfl⟩
  · obtain ⟨d, rfl, -⟩ := (call_invariant law inv (.source source memory)).2 f h
    exact ⟨d, rfl⟩

/-- Generation breaks no promise: where it fails, there is something to report. -/
lemma reported_of_generate {arch : Arch} {f : Fault} (h : (generate arch.backend source optimized memory).2 = some f) :
    ∃ d, f = .reported d := by
  have hprologue := (call_invariant arch.lawful (invariant_new arch.backend arch.alignment) .prologue).1
  simp only [call, emitAll_eq arch.lawful.prologue_fault] at hprologue
  simp only [generate, emitAll_eq arch.lawful.prologue_fault] at h
  split at h
  · next hbody =>
    cases h
    exact reported_of_compileBody arch.lawful hprologue (congrArg Prod.snd hbody)
  · rw [emitAll_eq arch.lawful.epilogue_fault] at h
    cases h

end Generator

namespace Job

/-- The compilation of some data, to where there is room for everything. -/
def compileData (job : Job) (data : Bytes) (memory : Memory) : Compilation :=
  compile job.arch { bytes := data } {} job.options memory

lemma reported_of_compileData {job : Job} {data : Bytes} {memory : Memory} {f : Fault}
    (h : (job.compileData data memory).result = .error f) : ∃ d, f = .reported d := by
  unfold compileData at h
  cases hl : (job.arch.backend.executable job.options.tapeBlocks).layout with
  | error d =>
    rw [compile_of_layout_error hl] at h
    cases h
    exact ⟨d, rfl⟩
  | ok l =>
    rw [compile_eq_deliver hl rfl, result_deliver ⟨rfl, rfl⟩] at h
    split at h
    · cases h
      exact ⟨_, rfl⟩
    · next hf =>
      cases h
      exact Generator.reported_of_generate hf
    · cases h

/-- A compilation that succeeds delivers the executable of the whole program. -/
lemma exists_image_of_compileData {job : Job} {data : Bytes} {memory : Memory}
    (h : (job.compileData data memory).result.isOk = true) :
    ∃ l code, (job.arch.backend.executable job.options.tapeBlocks).layout = .ok l ∧
      job.arch.Generates data job.options.optimize code true ∧ (job.compileData data memory).sink.received =
        (job.arch.backend.executable job.options.tapeBlocks).imageAt l code := by
  obtain ⟨stats, hstats⟩ : ∃ stats, (job.compileData data memory).result = .ok stats := by
    cases hresult : (job.compileData data memory).result with
    | ok stats => exact ⟨stats, rfl⟩
    | error f =>
      rw [hresult] at h
      cases h
  obtain ⟨-, g, file, hg, himage, -⟩ := (compile_eq_ok_iff ⟨rfl, rfl⟩).mp hstats
  obtain ⟨l, hl, hfits, -⟩ := Elf.Executable.image_eq_ok_iff.mp himage
  obtain ⟨code, ok, hgen⟩ := Generator.exists_generates job.arch data job.options.optimize
  obtain ⟨rfl, rfl⟩ := Generator.generate_of_generates hgen
  rw [Generator.generate_of_ok_memory hg] at hgen
  rw [(Elf.Layout.sound_of hl).codeOffset_eq] at hfits
  refine ⟨l, g.code.toList, hl, hgen, ?_⟩
  rw [compileData, compile_eq_deliver hl rfl, hg]
  exact (deliver_of_fits hl hfits).1

/-! ## One file -/

/-- What is left at the output of a source with the given data. -/
def left (job : Job) (data : Bytes) (memory : Memory) : Option Bytes :=
  if (job.compileData data memory).result.isOk || job.keep then some (job.compileData data memory).sink.received
  else none

/-- The source has a path with an output, and is there. -/
def Opens (job : Job) (d : Files) (source : Path) : Prop :=
  ∃ output data, job.outputPath source = .ok output ∧ d.get source = some data

/-- What a source with the given contents, if there is one, does to the files. -/
def effect (job : Job) (source : Path) (contents : Option Bytes) (memory : Memory) (d : Files) : Files :=
  match job.outputPath source, contents with
  | .ok output, some data => d.set output (job.left data memory)
  | _, _ => d

/-- The outcome of a source that is opened, with the given data. -/
def outcomeOf (job : Job) (source output : Path) (data : Bytes) (memory : Memory) : Outcome :=
  let c := job.compileData data memory
  match c.result with
  | .ok stats =>
    { result := .ok stats
      journal := c.journal.push (.compiled (Utf8.decodeLossy source) (Utf8.decodeLossy output) stats.codeSize) }
  | .error f => { result := .error (inSource source f), journal := c.journal ++ #[] }

def outcome (job : Job) (d : Files) (source : Path) (memory : Memory) : Outcome :=
  ((job.compileFile source memory : StateM Files Outcome) d).1

def Compiles (job : Job) (d : Files) (source : Path) (memory : Memory) : Prop :=
  (job.outcome d source memory).result.isOk = true

section

variable {job : Job} {source output : Path} {data : Bytes} {memory : Memory} {d d' : Files}

lemma fill_eq (h : d.get source = some data) : (job.fill source output memory : StateM Files Outcome) d =
    ({ result := (job.compileData data memory).result, journal := (job.compileData data memory).journal },
      d.set output (some (job.compileData data memory).sink.received)) := by
  simp only [fill, bind, StateT.bind, Disk.read, h, Option.elim_some]
  rfl

lemma cleanUp_eq :
    (job.cleanUp output : StateM Files Journal) d = (#[], if job.keep then d else d.set output none) := by
  cases hkeep : job.keep with
  | true =>
    simp only [cleanUp, hkeep, if_true]
    rfl
  | false =>
    simp only [cleanUp, hkeep, Bool.false_eq_true, if_false, bind, StateT.bind, Disk.remove]
    rfl

/-- An output that is opened is filled, and removed after a failure. -/
lemma compileFile_of_opened (hout : job.outputPath source = .ok output) (hne : output ≠ source)
    (h : d.get source = some data) : (job.compileFile source memory : StateM Files Outcome) d =
      (job.outcomeOf source output data memory, d.set output (job.left data memory)) := by
  -- the source is read when the output is already empty
  have hsource : (d.set output (some [])).get source = some data := by
    rwa [Files.get_set_of_ne hne.symm]
  simp only [compileFile, hout, bind, StateT.bind, Disk.openRead, h, Option.elim_some, Disk.create, fill_eq hsource,
    Files.set_set, left, outcomeOf]
  cases hresult : (job.compileData data memory).result with
  | ok stats => rfl
  | error f =>
    simp only [StateT.bind, cleanUp_eq, Files.set_set]
    cases job.keep <;> rfl

lemma exists_fault_of_unopened (h : ¬ job.Opens d source) (memory : Memory) :
    ∃ e, ∀ d' : Files, d'.get source = d.get source →
      (job.compileFile source memory : StateM Files Outcome) d' = ({ result := .error (.reported e) }, d') := by
  unfold compileFile
  cases hout : job.outputPath source with
  | error e => exact ⟨_, fun d' _ => rfl⟩
  | ok output =>
    have hnone : d.get source = none := by
      rw [Option.eq_none_iff_forall_ne_some]
      intro data hdata
      exact h ⟨output, data, hout, hdata⟩
    refine ⟨(Cause.openRead DiskError.notFound.message).diagnostic.inFile (Utf8.decodeLossy source), fun d' hd' => ?_⟩
    simp only [bind, StateT.bind, Disk.openRead, hd', hnone, Option.elim_none]
    rfl

lemma effect_of_unopened (h : ¬ job.Opens d source) : job.effect source (d.get source) memory d' = d' := by
  unfold effect
  split
  · next output data hout hdata => exact absurd ⟨output, data, hout, hdata⟩ h
  · rfl

lemma effect_of_opened (hout : job.outputPath source = .ok output) (h : d.get source = some data) :
    job.effect source (d.get source) memory d' = d'.set output (job.left data memory) := by
  simp only [effect, hout, h]

/-- **A file has the same outcome wherever its source is the same.** -/
lemma compileFile_eq (hne : ∀ output, job.outputPath source = .ok output → output ≠ source)
    (h : d'.get source = d.get source) : (job.compileFile source memory : StateM Files Outcome) d' =
      (job.outcome d source memory, job.effect source (d.get source) memory d') := by
  by_cases hopens : job.Opens d source
  · obtain ⟨output, data, hout, hdata⟩ := hopens
    rw [outcome, compileFile_of_opened hout (hne output hout) hdata, effect_of_opened hout hdata,
      compileFile_of_opened hout (hne output hout) (h.trans hdata)]
  · obtain ⟨e, he⟩ := exists_fault_of_unopened hopens memory
    rw [outcome, he d rfl, he d' h, effect_of_unopened hopens]

lemma isOk_outcomeOf :
    (job.outcomeOf source output data memory).result.isOk = (job.compileData data memory).result.isOk := by
  simp only [outcomeOf]
  cases (job.compileData data memory).result <;> rfl

/-- No file shows that the compiler is broken. -/
lemma outcome_ne_defect (hne : ∀ output, job.outputPath source = .ok output → output ≠ source) :
    (job.outcome d source memory).result ≠ .error .defect := by
  by_cases hopens : job.Opens d source
  · obtain ⟨output, data, hout, hdata⟩ := hopens
    rw [outcome, compileFile_of_opened hout (hne output hout) hdata, outcomeOf]
    cases hresult : (job.compileData data memory).result with
    | ok stats => nofun
    | error f =>
      obtain ⟨e, rfl⟩ := reported_of_compileData hresult
      nofun
  · obtain ⟨e, he⟩ := exists_fault_of_unopened hopens memory
    rw [outcome, he d rfl]
    nofun

lemma outputPath_injective {source' : Path} (h : job.outputPath source = .ok output)
    (h' : job.outputPath source' = .ok output) : source = source' := by
  obtain ⟨stem, rfl, hstem⟩ := exists_stem_of_outputPath h
  obtain ⟨stem', rfl, hstem'⟩ := exists_stem_of_outputPath h'
  rw [List.append_cancel_right (hstem.symm.trans hstem')]

end

/-! ## Many files -/

/-- What a run notes of an outcome. -/
def record (job : Job) (r : Run) (o : Outcome) : Run :=
  let r := { r with journal := r.journal ++ o.journal }
  match o.result with
  | .ok _ => r
  | .error .defect => { r with ok := false, broken := true }
  | .error (.reported d) => { r.report job.mode d with ok := false }

/-- A run ends with a failure that is fatal and, unless it is to continue, with any other. -/
def endsRun (job : Job) (o : Outcome) : Bool :=
  match o.result with
  | .ok _ => false
  | .error .defect => true
  | .error (.reported d) => d.isFatal || !job.continueOnError

def Separate (job : Job) (files : List Path) : Prop :=
  ∀ f ∈ files, ∀ output, job.outputPath f = .ok output → output ∉ files

/-- The files up to the first whose outcome ends the run, and that one. -/
def attempted (job : Job) (memory : Path → Memory) (d : Files) (files : List Path) : List Path :=
  files.take (files.findIdx (fun f => job.endsRun (job.outcome d f (memory f))) + 1)

section

variable {job : Job} {memory : Path → Memory} {d d' : Files} {f : Path} {files : List Path}

lemma attempted_cons : job.attempted memory d (f :: files) =
    f :: if job.endsRun (job.outcome d f (memory f)) then [] else job.attempted memory d files := by
  rw [attempted, List.findIdx_cons, List.take_succ_cons]
  cases job.endsRun (job.outcome d f (memory f)) <;> rfl

lemma endsRun_of_compiles (h : job.Compiles d f (memory f)) : job.endsRun (job.outcome d f (memory f)) = false := by
  unfold endsRun
  split
  · rfl
  · next hresult =>
    rw [Compiles, hresult] at h
    cases h
  · next hresult =>
    rw [Compiles, hresult] at h
    cases h

lemma attempted_sublist (job : Job) (memory : Path → Memory) (d : Files) (files : List Path) :
    (job.attempted memory d files).Sublist files :=
  List.take_sublist _ _

lemma runFrom_cons {o : Outcome} (h : (job.compileFile f (memory f) : StateM Files Outcome) d = (o, d')) (r : Run) :
    (job.runFrom r (f :: files) memory : StateM Files Run) d =
      if job.endsRun o then (job.record r o, d')
      else (job.runFrom (job.record r o) files memory : StateM Files Run) d' := by
  obtain ⟨result, journal⟩ := o
  simp only [runFrom, bind, StateT.bind, h, record, endsRun]
  cases result with
  | ok stats => rfl
  | error fault =>
    cases fault with
    | defect => rfl
    | reported e =>
      dsimp only
      by_cases hends : (e.isFatal || !job.continueOnError) = true
      · rw [if_pos hends]
        exact (if_pos hends).symm
      · rw [if_neg hends]
        exact (if_neg hends).symm

namespace Separate

variable (h : job.Separate (f :: files))
include h

lemma ne {output : Path} (hout : job.outputPath f = .ok output) : output ≠ f := by
  rintro rfl
  exact h output List.mem_cons_self output hout List.mem_cons_self

lemma tail : job.Separate files := by
  intro g hg output hout hmem
  exact h g (List.mem_cons_of_mem f hg) output hout (List.mem_cons_of_mem f hmem)

lemma get_effect {contents : Option Bytes} {memory : Memory} (hsame : ∀ g ∈ files, d'.get g = d.get g) :
    ∀ g ∈ files, (job.effect f contents memory d').get g = d.get g := by
  intro g hg
  rw [← hsame g hg]
  unfold effect
  split
  · next output data hout =>
    refine Files.get_set_of_ne ?_
    rintro rfl
    exact h f List.mem_cons_self g hout (List.mem_cons_of_mem f hg)
  · rfl

end Separate

/-- What files do one after the other, if they are as in `d`. -/
def effects (job : Job) (memory : Path → Memory) (d : Files) (files : List Path) (d' : Files) : Files :=
  files.foldl (fun d' f => job.effect f (d.get f) (memory f) d') d'

lemma effects_cons : job.effects memory d (f :: files) d' =
    job.effects memory d files (job.effect f (d.get f) (memory f) d') := rfl

/-- **Files that are compiled one after the other have the outcomes that they have alone.** -/
lemma mapM_compileFile_eq (hsep : job.Separate files) (hsame : ∀ f ∈ files, d'.get f = d.get f) :
    (files.mapM fun f => job.compileFile f (memory f) : StateM Files (List Outcome)) d' =
      (files.map fun f => job.outcome d f (memory f), job.effects memory d files d') := by
  induction files generalizing d' with
  | nil => rfl
  | cons f files ih =>
    obtain ⟨hf, hfiles⟩ := List.forall_mem_cons.mp hsame
    rw [List.mapM_cons]
    simp only [bind, StateT.bind, compileFile_eq (fun _ => hsep.ne) hf, ih hsep.tail (hsep.get_effect hfiles)]
    rfl

/-- **A run compiles the files that are attempted, and no other.** -/
lemma runFrom_eq (hsep : job.Separate files) (hsame : ∀ f ∈ files, d'.get f = d.get f) (r : Run) :
    (job.runFrom r files memory : StateM Files Run) d' =
      (((job.attempted memory d files).map fun f => job.outcome d f (memory f)).foldl job.record r,
        job.effects memory d (job.attempted memory d files) d') := by
  induction files generalizing d' r with
  | nil => rfl
  | cons f files ih =>
    obtain ⟨hf, hfiles⟩ := List.forall_mem_cons.mp hsame
    rw [runFrom_cons (compileFile_eq (fun _ => hsep.ne) hf), attempted_cons, List.map_cons, List.foldl_cons,
      effects_cons]
    cases hends : job.endsRun (job.outcome d f (memory f)) with
    | true => rfl
    | false => exact ih hsep.tail (hsep.get_effect hfiles) _

/-! ### What is left -/

lemma get_effects_of_ne {path : Path} (h : ∀ f ∈ files, job.Opens d f → job.outputPath f ≠ .ok path) :
    (job.effects memory d files d').get path = d'.get path := by
  induction files generalizing d' with
  | nil => rfl
  | cons f files ih =>
    obtain ⟨hf, hfiles⟩ := List.forall_mem_cons.mp h
    rw [effects_cons, ih hfiles]
    by_cases hopens : job.Opens d f
    · obtain ⟨output, data, hout, hdata⟩ := hopens
      rw [effect_of_opened hout hdata]
      refine Files.get_set_of_ne ?_
      rintro rfl
      exact hf ⟨path, data, hout, hdata⟩ hout
    · rw [effect_of_unopened hopens]

/-- No file spoils the output of another. -/
lemma get_effects_of_mem {output : Path} {data : Bytes} (hnodup : files.Nodup) (hf : f ∈ files)
    (hout : job.outputPath f = .ok output) (hdata : d.get f = some data) :
    (job.effects memory d files d').get output = job.left data (memory f) := by
  induction files generalizing d' with
  | nil => cases hf
  | cons g files ih =>
    obtain ⟨hg, hnodup⟩ := List.nodup_cons.mp hnodup
    rcases List.mem_cons.mp hf with rfl | hf
    · -- a later file with this output would be this file
      have hothers : ∀ g ∈ files, job.Opens d g → job.outputPath g ≠ .ok output := by
        rintro g' hg' - hout'
        exact hg (outputPath_injective hout hout' ▸ hg')
      rw [effects_cons, get_effects_of_ne hothers, effect_of_opened hout hdata, Files.get_set_self]
    · exact ih hnodup hf

/-! ### What is reported -/

lemma ok_record (r : Run) (o : Outcome) : (job.record r o).ok = (r.ok && o.result.isOk) := by
  unfold record
  split
  · next h => rw [h, Except.isOk, Except.toBool, Bool.and_true]
  · next h => rw [h, Except.isOk, Except.toBool, Bool.and_false]
  · next h => rw [h, Except.isOk, Except.toBool, Bool.and_false]

lemma broken_record {o : Outcome} (h : o.result ≠ .error .defect) (r : Run) : (job.record r o).broken = r.broken := by
  unfold record
  split
  · rfl
  · next hdefect => exact absurd hdefect h
  · dsimp only
    unfold Run.report
    split <;> rfl

lemma ok_foldl_record (os : List Outcome) (r : Run) :
    (os.foldl job.record r).ok = (r.ok && os.all fun o => o.result.isOk) := by
  induction os generalizing r with
  | nil => simp
  | cons o os ih =>
    rw [List.foldl_cons, ih, List.all_cons, ← Bool.and_assoc, ok_record]

lemma broken_foldl_record {os : List Outcome} (h : ∀ o ∈ os, o.result ≠ .error .defect) (r : Run) :
    (os.foldl job.record r).broken = r.broken := by
  induction os generalizing r with
  | nil => rfl
  | cons o os ih =>
    obtain ⟨ho, hos⟩ := List.forall_mem_cons.mp h
    rw [List.foldl_cons, ih hos, broken_record ho]

/-- A run that is not ended by a failure has attempted everything. -/
lemma forall_attempted_iff : (∀ f ∈ job.attempted memory d files, job.Compiles d f (memory f)) ↔
    ∀ f ∈ files, job.Compiles d f (memory f) := by
  induction files with
  | nil => rfl
  | cons f files ih =>
    rw [attempted_cons, List.forall_mem_cons, List.forall_mem_cons]
    refine and_congr_right fun hf => ?_
    rw [endsRun_of_compiles hf, if_neg Bool.false_ne_true, ih]

end

/-! ## Whole runs -/

/-- What a run over some files comes to, with some memory for each, that is reported as `r` and leaves the files
`after`. -/
structure RunsThrough (job : Job) (memory : Path → Memory) (d : Files) (files : List Path) (r : Run) (after : Files) :
    Prop where
  /-- The files that are attempted are compiled one after the other, each with the outcome that it would have alone, -/
  outcomes : ((job.attempted memory d files).mapM fun f => job.compileFile f (memory f) :
      StateM Files (List Outcome)) d =
    ((job.attempted memory d files).map fun f => job.outcome d f (memory f), after)
  /-- and that is all there is to report. -/
  report : r = ((job.attempted memory d files).map fun f => job.outcome d f (memory f)).foldl job.record {}
  not_broken : r.broken = false
  ok_iff : r.ok = true ↔ ∀ f ∈ files, job.Compiles d f (memory f)
  /-- Where a file was compiled, there is the executable of its whole program. -/
  compiled : ∀ f ∈ job.attempted memory d files, job.Compiles d f (memory f) → ∃ output data l code,
    job.outputPath f = .ok output ∧ d.get f = some data ∧
    (job.arch.backend.executable job.options.tapeBlocks).layout = .ok l ∧
    job.arch.Generates data job.options.optimize code true ∧
    after.get output = some ((job.arch.backend.executable job.options.tapeBlocks).imageAt l code)
  /-- A file without an output, or that is not there, changes nothing, -/
  unopened : ∀ f ∈ job.attempted memory d files, ¬ job.Opens d f → ¬ job.Compiles d f (memory f) ∧
    (∀ d', d'.get f = d.get f → ((job.compileFile f (memory f) : StateM Files Outcome) d').2 = d') ∧
    ∀ output, job.outputPath f = .ok output → after.get output = d.get output
  /-- and one that fails later leaves what was delivered if that is to be kept, and else nothing. -/
  failed : ∀ f ∈ job.attempted memory d files, job.Opens d f → ¬ job.Compiles d f (memory f) → ∃ output data,
    job.outputPath f = .ok output ∧ d.get f = some data ∧ after.get output =
      if job.keep then some (compile job.arch { bytes := data } {} job.options (memory f)).sink.received else none
  others : ∀ path, (∀ f ∈ job.attempted memory d files, job.Opens d f → job.outputPath f ≠ .ok path) →
    after.get path = d.get path

section

variable {job : Job} {d : Files} {f : Path} {files : List Path}

lemma compiles_iff {output : Path} {data : Bytes} {memory : Memory} (hout : job.outputPath f = .ok output)
    (hne : output ≠ f) (hdata : d.get f = some data) :
    job.Compiles d f memory ↔ (job.compileData data memory).result.isOk = true := by
  rw [Compiles, outcome, compileFile_of_opened hout hne hdata, isOk_outcomeOf]

lemma Compiles.opens {memory : Memory} (h : job.Compiles d f memory) : job.Opens d f := by
  by_contra hopens
  obtain ⟨e, he⟩ := exists_fault_of_unopened hopens memory
  rw [Compiles, outcome, he d rfl] at h
  cases h

lemma Separate.sublist {files' : List Path} (h : job.Separate files) (hsub : files'.Sublist files) :
    job.Separate files' := by
  intro f hf output hout hmem
  exact h f (hsub.subset hf) output hout (hsub.subset hmem)

end

/-- **A run over many files leaves each as if it were alone,** however much memory there is for each. -/
theorem runsThrough_run (job : Job) (memory : Path → Memory) (d : Files) {files : List Path} (hnodup : files.Nodup)
    (hsep : job.Separate files) :
    job.RunsThrough memory d files ((job.run files memory : StateM Files Run) d).1
      ((job.run files memory : StateM Files Run) d).2 := by
  have hsep' := hsep.sublist (job.attempted_sublist memory d files)
  have hnodup' := hnodup.sublist (job.attempted_sublist memory d files)
  have hne : ∀ f ∈ job.attempted memory d files, ∀ output, job.outputPath f = .ok output → output ≠ f := by
    rintro f hf output hout rfl
    exact hsep' output hf output hout hf
  rw [run, runFrom_eq hsep fun _ _ => rfl]
  refine ⟨mapM_compileFile_eq hsep' fun _ _ => rfl, rfl, ?_, ?_, ?_, ?_, ?_, fun path => get_effects_of_ne⟩
  · refine broken_foldl_record ?_ _
    intro o ho
    obtain ⟨f, hf, rfl⟩ := List.mem_map.mp ho
    exact outcome_ne_defect (hne f hf)
  · rw [ok_foldl_record, Bool.true_and, List.all_map, List.all_eq_true]
    exact forall_attempted_iff
  · intro f hf hcompiles
    obtain ⟨output, data, hout, hdata⟩ := hcompiles.opens
    have hok := (compiles_iff hout (hne f hf output hout) hdata).mp hcompiles
    obtain ⟨l, code, hl, hgen, himage⟩ := exists_image_of_compileData hok
    refine ⟨output, data, l, code, hout, hdata, hl, hgen, ?_⟩
    rw [get_effects_of_mem hnodup' hf hout hdata, left, hok, Bool.true_or, if_pos rfl, himage]
  · intro f hf hopens
    refine ⟨fun hcompiles => hopens hcompiles.opens, ?_, ?_⟩
    · intro d' hd'
      obtain ⟨e, he⟩ := exists_fault_of_unopened hopens (memory f)
      rw [he d' hd']
    · intro output hout
      apply get_effects_of_ne
      rintro g - hg hout'
      exact hopens (outputPath_injective hout' hout ▸ hg)
  · intro f hf hopens hfails
    obtain ⟨output, data, hout, hdata⟩ := hopens
    rw [compiles_iff hout (hne f hf output hout) hdata, Bool.not_eq_true] at hfails
    refine ⟨output, data, hout, hdata, ?_⟩
    rw [get_effects_of_mem hnodup' hf hout hdata, left, hfails, Bool.false_or]
    rfl

/-- Of the files `a.bf` to `e.bf` the first cannot be compiled, the second is not there, the third is compiled, and for
the fourth there is no memory. That ends the run, although it is to continue after failures. -/
theorem runsThrough_run_five_files :
    let job : Job := { arch := .riscv64, continueOnError := true }
    let path (c : UInt8) : Path := [c, 46, 98, 102]
    let files : List Path := [path 97, path 98, path 99, path 100, path 101]
    let memory (f : Path) : Memory := if f = path 100 then .limited 0 else .plenty
    let d : Files := ⟨fun f => if f = path 97 then some [93] else if f = path 98 then none else some [43]⟩
    files.Nodup ∧ job.Separate files ∧ job.attempted memory d files = [path 97, path 98, path 99, path 100] ∧
      job.Compiles d (path 99) (memory (path 99)) ∧
      job.RunsThrough memory d files ((job.run files memory : StateM Files Run) d).1
        ((job.run files memory : StateM Files Run) d).2 := by
  intro job path files memory d
  have hsep : job.Separate files := by
    have houtputs : files.map job.outputPath = [.ok [97], .ok [98], .ok [99], .ok [100], .ok [101]] := by decide +kernel
    intro f hf output hout hmem
    have hmem' : Except.ok output ∈ files.map job.outputPath := hout ▸ List.mem_map_of_mem hf
    rw [houtputs] at hmem'
    simp only [List.mem_cons, Except.ok.injEq, List.not_mem_nil, or_false] at hmem'
    rcases hmem' with rfl | rfl | rfl | rfl | rfl <;> exact absurd hmem (by decide)
  have hthird : (job.outcome d (path 99) (memory (path 99))).result.isOk = true := by decide +kernel
  exact ⟨by decide, hsep, by decide +kernel, hthird, runsThrough_run job memory d (by decide) hsep⟩

end Job

end TapeElf
