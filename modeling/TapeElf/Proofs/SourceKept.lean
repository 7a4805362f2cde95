import TapeElf.CommandLine.Job
import TapeElf.Proofs.Disk.Leading
import TapeElf.Proofs.OpText

/-!
# What becomes of a source

A source should be there after it was compiled, as it was before. The only file that is changed is that of the output
(`exists_changesOnly`), so nothing happens to a source that is another file.

But the output may be the source itself: if the suffix is the extension, or if a suffix with slashes leads back to it.
It is opened to write, and emptied, before it is read. What is compiled then is an empty source, and what is left is
the executable of that or, after a failure, nothing (`Job.Spoils`). Apart from this, sources are spared
(`sparesSource_iff`).
-/

namespace TapeElf

lemma Bytes.ofString_injective : Function.Injective Bytes.ofString := by
  intro a b h
  rw [ofString, ofString, ByteArray.toList_eq, ByteArray.toList_eq] at h
  exact String.toByteArray_inj.mp (ByteArray.ext (Array.toList_inj.mp h))

namespace Job

/-- What is left of a tree after a file of it was compiled. -/
def treeAfter (job : Job) (source : Path) (t : Tree) : Tree := ((job.compileFile source : StateM Tree Outcome) t).2

/-- Compiling a source leaves it as it was, and the output has another name. -/
structure SparesSource (job : Job) (source : Path) (t : Tree) : Prop where
  kept : ∀ data, t.Readable source data → (job.treeAfter source t).Readable source data
  elsewhere : ∀ output, job.outputPath source = .ok output → output ≠ source

def compileEmpty (job : Job) : Compilation := compile job.arch { bytes := [] } {} job.options

/-- The source is the output too, and may be written. It could only stay as it was if it was the executable of an empty
source before, and is not removed. -/
def Spoils (job : Job) (source output : Path) (t : Tree) : Prop :=
  ∃ p mode data, t.LeadsTo source p ∧ t.LeadsTo output p ∧ t.get? p = some (.file mode data) ∧
    ownerMayRead mode = true ∧ ownerMayWrite mode = true ∧
    ¬ (data = job.compileEmpty.sink.received ∧ (job.compileEmpty.result.isOk || job.keep) = true)

/-! ## Names -/

section

variable {job : Job} {source output : Path}

/-- Source and output differ in their ends only. -/
lemma exists_stem_of_outputPath (h : job.outputPath source = .ok output) :
    ∃ stem, source = stem ++ Bytes.ofString job.extension ∧ output = stem ++ Bytes.ofString job.suffix := by
  unfold outputPath at h
  dsimp only at h
  split at h
  next hname =>
    cases h
    refine ⟨_, ?_, rfl⟩
    obtain ⟨stem, hstem⟩ := List.isSuffixOf_iff_suffix.mp hname.2.1
    rw [← hstem, List.length_append, Nat.add_sub_cancel, List.take_left]
  · cases h

lemma outputPath_eq_source_iff (h : job.outputPath source = .ok output) :
    output = source ↔ job.suffix = job.extension := by
  obtain ⟨stem, hsource, houtput⟩ := exists_stem_of_outputPath h
  rw [hsource, houtput, List.append_cancel_left_eq]
  exact Bytes.ofString_injective.eq_iff

end

/-! ## Runs on a tree -/

/-- What is read of a source. -/
def reader (t : Tree) (source : Path) : Reader :=
  match t.read source with
  | .ok bytes => { bytes }
  | .error e => { bytes := [], failure := some e.message }

/-- The compilation of a source, as it is in a tree. -/
def compilation (job : Job) (source : Path) (t : Tree) : Compilation :=
  compile job.arch (reader t source) {} job.options

/-- Only the file at `q` is changed, which is that of the output: it is filled with what was compiled once it was empty,
and is not there after a failure. -/
structure ChangesOnly (job : Job) (source output : Path) (t : Tree) (q : Place) (mode : Nat) : Prop where
  leads : t.LeadsTo output q
  before : t.get? q = none ∨ ∃ data, t.get? q = some (.file mode data) ∧ ownerMayWrite mode = true
  directories : t.SameDirectories (job.treeAfter source t)
  left : (job.treeAfter source t).get? q =
    if (job.compilation source (t.put q (.file mode []))).result.isOk || job.keep then
      some (.file mode (job.compilation source (t.put q (.file mode []))).sink.received)
    else none
  others : ∀ p, p ≠ q → (job.treeAfter source t).get? p = t.get? p

section

variable {job : Job} {source output : Path} {t t₁ : Tree}

lemma fill_of_write (h : t.write output (job.compilation source t).sink.received = .ok t₁) :
    (job.fill source output : StateM Tree Outcome) t =
      ({ result := (job.compilation source t).result, journal := (job.compilation source t).journal }, t₁) := by
  cases hread : t.read source <;>
    simp only [compilation, reader, hread] at h ⊢ <;>
    simp only [fill, bind, StateT.bind, Disk.read, hread, Disk.write, Tree.attempt, h] <;>
    rfl

lemma snd_cleanUp_of_remove (h : t.remove output = .ok t₁) :
    ((job.cleanUp output : StateM Tree Journal) t).2 = if job.keep then t else t₁ := by
  cases hkeep : job.keep with
  | true =>
    simp only [cleanUp, hkeep, if_true]
    rfl
  | false =>
    simp only [cleanUp, hkeep, Bool.false_eq_true, if_false, bind, StateT.bind, Disk.remove, Tree.attempt, h]
    rfl

/-- An output that was opened is filled with what was compiled, and removed after a failure. -/
lemma treeAfter_of_create (hout : job.outputPath source = .ok output) (hopen : t.openRead source = .ok ())
    (hcreate : t.create output = .ok t₁) {q : Place} {mode : Nat} (hleads : t₁.LeadsTo output q)
    (hfile : t₁.get? q = some (.file mode [])) {c : Compilation} (hc : c = job.compilation source t₁) :
    job.treeAfter source t =
      if c.result.isOk || job.keep then t₁.put q (.file mode c.sink.received)
      else (t₁.put q (.file mode c.sink.received)).erase q := by
  have hwrite := hleads.write hfile c.sink.received
  have hleads₂ : (t₁.put q (.file mode c.sink.received)).LeadsTo output q :=
    (Tree.SameDirectories.put (Tree.not_directory_of_file hfile) hleads.names_ne_nil mode _).leadsTo hleads
  have hremove := hleads₂.remove (Tree.get?_put_self t₁ q _ hleads.names_ne_nil)
  rw [hc] at hwrite
  simp only [treeAfter, compileFile, hout, bind, StateT.bind, Disk.openRead, hopen, Disk.create, Tree.attempt, hcreate,
    fill_of_write hwrite, ← hc]
  cases c.result with
  | ok stats => rfl
  | error f => exact snd_cleanUp_of_remove hremove

/-- **Once the output is opened, only its file is changed.** -/
theorem exists_changesOnly (hout : job.outputPath source = .ok output) (hopen : t.openRead source = .ok ())
    (hcreate : t.create output = .ok t₁) : ∃ q mode, job.ChangesOnly source output t q mode := by
  obtain ⟨q, mode, hleads, rfl, hbefore⟩ := Tree.exists_leadsTo_of_create hcreate
  have hq := hleads.names_ne_nil
  have hnotDirectory : t.get? q ≠ some .directory := by
    rcases hbefore with hnone | ⟨data, hfile, -⟩
    · rw [hnone]
      nofun
    · exact Tree.not_directory_of_file hfile
  have hsame₁ := Tree.SameDirectories.put hnotDirectory hq mode []
  have hfile₁ := Tree.get?_put_self t q (.file mode []) hq
  have hafter := treeAfter_of_create hout hopen hcreate (hsame₁.leadsTo hleads) hfile₁ rfl
  -- the tree with the output filled, which may then be removed
  set filled := (t.put q (.file mode [])).put q
    (.file mode (job.compilation source (t.put q (.file mode []))).sink.received)
  have hsame₂ : t.SameDirectories filled := hsame₁.trans (.put (Tree.not_directory_of_file hfile₁) hq mode _)
  have hfile₂ : filled.get? q = _ := Tree.get?_put_self _ q _ hq
  have hothers (p : Place) (hp : p ≠ q) : filled.get? p = t.get? p := by
    rw [Tree.get?_put_ne _ _ hp.symm, Tree.get?_put_ne _ _ hp.symm]
  refine ⟨q, mode, hleads, hbefore, ?_, ?_, ?_⟩
  · rw [hafter]
    split
    · exact hsame₂
    · exact hsame₂.trans (.erase (Tree.not_directory_of_file hfile₂) hq)
  · rw [hafter]
    split
    · exact hfile₂
    · exact Tree.get?_erase_self _ hq
  · intro p hp
    rw [hafter]
    split
    · exact hothers p hp
    · rw [Tree.get?_erase_ne _ hp.symm, hothers p hp]

/-- A source that is the output too is empty when it is read. -/
lemma compilation_of_emptied {q : Place} {mode : Nat} {data : Bytes} (hsource : t.LeadsTo source q)
    (hfile : t.get? q = some (.file mode data)) :
    job.compilation source (t.put q (.file mode [])) = job.compileEmpty := by
  have hq := hsource.names_ne_nil
  have hleads : (t.put q (.file mode [])).LeadsTo source q :=
    (Tree.SameDirectories.put (Tree.not_directory_of_file hfile) hq mode []).leadsTo hsource
  have hempty := Tree.get?_put_self t q (.file mode []) hq
  simp only [compilation, reader, Tree.read, hleads.locate hempty, hempty, compileEmpty]

lemma treeAfter_of_unopened (h : ∀ output t₁, job.outputPath source = .ok output → t.create output ≠ .ok t₁) :
    job.treeAfter source t = t := by
  unfold treeAfter compileFile
  cases hout : job.outputPath source with
  | error d => rfl
  | ok output =>
    simp only [bind, StateT.bind, Disk.openRead]
    cases hopen : t.openRead source with
    | error e => rfl
    | ok u =>
      cases hcreate : t.create output with
      | error e =>
        simp only [StateT.bind, Disk.create, Tree.attempt, hcreate]
        rfl
      | ok t₁ => exact absurd hcreate (h output t₁ hout)

end

/-! ## Sources -/

section

variable {job : Job} {source output : Path} {t : Tree}

lemma not_readable_of_spoils (hout : job.outputPath source = .ok output) (h : job.Spoils source output t) :
    ∃ data, t.Readable source data ∧ ¬ (job.treeAfter source t).Readable source data := by
  obtain ⟨p, mode, data, hsource, houtput, hfile, hread, hwrite, hspoils⟩ := h
  have hreadable : t.Readable source data := Tree.readable_iff.mpr ⟨p, mode, hsource, hfile, hread⟩
  have hcreate : t.create output = .ok (t.put p (.file mode [])) := (houtput.create hfile).trans (if_pos hwrite)
  refine ⟨data, hreadable, fun hkept => hspoils ?_⟩
  obtain ⟨q, mode', hchanges⟩ := exists_changesOnly hout hreadable.1 hcreate
  obtain rfl := houtput.unique hchanges.leads
  obtain ⟨p', mode'', hsource', hfile', -⟩ := Tree.readable_iff.mp hkept
  obtain rfl := (hchanges.directories.leadsTo hsource).unique hsource'
  rcases hchanges.before with hnone | ⟨data', hfile'', -⟩
  · cases hnone.symm.trans hfile
  cases hfile''.symm.trans hfile
  rw [hchanges.left, compilation_of_emptied hsource hfile] at hfile'
  split at hfile'
  · next hok =>
    cases hfile'
    exact ⟨rfl, hok⟩
  · cases hfile'

lemma readable_of_not_spoils (h : ∀ output, job.outputPath source = .ok output → ¬ job.Spoils source output t)
    {data : Bytes} (hreadable : t.Readable source data) :
    (job.treeAfter source t).Readable source data := by
  by_cases hopened : ∃ output t₁, job.outputPath source = .ok output ∧ t.create output = .ok t₁
  · obtain ⟨output, t₁, hout, hcreate⟩ := hopened
    obtain ⟨p, mode, hsource, hfile, hread⟩ := Tree.readable_iff.mp hreadable
    obtain ⟨q, mode', hchanges⟩ := exists_changesOnly hout hreadable.1 hcreate
    have hsource' := hchanges.directories.leadsTo hsource
    by_cases hp : p = q
    · subst hp
      rcases hchanges.before with hnone | ⟨data', hfile', hwrite⟩
      · cases hnone.symm.trans hfile
      cases hfile'.symm.trans hfile
      have hleft := hchanges.left
      rw [compilation_of_emptied hsource hfile] at hleft
      have hkept : data = job.compileEmpty.sink.received ∧ (job.compileEmpty.result.isOk || job.keep) = true := by
        by_contra hspoils
        exact h output hout ⟨p, mode, data, hsource, hchanges.leads, hfile, hread, hwrite, hspoils⟩
      have hfile₂ := hleft.trans (if_pos hkept.2)
      exact Tree.readable_iff.mpr ⟨p, mode, hsource', hkept.1 ▸ hfile₂, hread⟩
    · exact Tree.readable_iff.mpr ⟨p, mode, hsource', (hchanges.others p hp).trans hfile, hread⟩
  · rw [treeAfter_of_unopened fun output t₁ hout hcreate => hopened ⟨output, t₁, hout, hcreate⟩]
    exact hreadable

end

/-- **A source is spared unless it is its own output.** -/
theorem sparesSource_iff (job : Job) (source : Path) (t : Tree) : job.SparesSource source t ↔
    ∀ output, job.outputPath source = .ok output → job.suffix ≠ job.extension ∧ ¬ job.Spoils source output t := by
  constructor
  · intro h output hout
    refine ⟨fun heq => h.elsewhere output hout ((outputPath_eq_source_iff hout).mpr heq), fun hspoils => ?_⟩
    obtain ⟨data, hreadable, hlost⟩ := not_readable_of_spoils hout hspoils
    exact hlost (h.kept data hreadable)
  · intro h
    refine ⟨fun data hreadable => readable_of_not_spoils (fun output hout => (h output hout).2) hreadable, ?_⟩
    intro output hout heq
    exact (h output hout).1 ((outputPath_eq_source_iff hout).mp heq)

/-- The source `a.bf` is lost if the suffix is `.bf` too and the tape is too large. -/
theorem not_sparesSource_suffix_is_extension :
    let job : Job := { arch := .i386, options := { tapeBlocks := 1048576 }, extension := ".bf", suffix := ".bf" }
    let t : Tree := { entries := [({ names := [[97, 46, 98, 102]] }, .file 0o644 [43, 46])] }
    ¬ job.SparesSource [97, 46, 98, 102] t := by
  intro job t h
  have hreadable : t.Readable [97, 46, 98, 102] [43, 46] := ⟨by decide +kernel, by decide +kernel⟩
  have hlost : (job.treeAfter [97, 46, 98, 102] t).read [97, 46, 98, 102] = .error .notFound := by decide +kernel
  cases hlost.symm.trans (h.kept _ hreadable).2

end Job

end TapeElf
