import TapeElf.CommandLine.Args

/-!
# Carrying out a command line

Each file is compiled next to itself: `dir/hello.bf` becomes `dir/hello` and the suffix. A file that fails
leaves no output behind, unless outputs are to be kept, and ends the run, unless that is to continue.
-/

namespace TapeElf

/-- What a command line asks for, the files apart. -/
structure Job where
  arch : Arch
  options : Options := {}
  extension : String := ".bf"
  suffix : String := ""
  keep : Bool := false
  continueOnError : Bool := false
  mode : Mode := .normal
deriving DecidableEq, Repr

structure Outcome where
  result : Except Fault Stats
  journal : Journal := #[]

/-- What came of a run: what was printed, and whether every file was compiled. -/
structure Run where
  ok : Bool := true
  stdout : String := ""
  stderr : String := ""
  journal : Journal := #[]
  /-- The run ended because the compiler is broken. -/
  broken : Bool := false
deriving DecidableEq, Repr

/-- Shows a failure. -/
def Run.report (r : Run) (mode : Mode) (d : Diagnostic) : Run :=
  match mode with
  | .normal => { r with stderr := r.stderr ++ "error: " ++ d.report ++ "\n" }
  | .json => { r with stdout := r.stdout ++ String.ofList d.json ++ "\n" }
  | .quiet => r

namespace Job

def ofArgs (a : Args) : Except Diagnostic Job := do
  return {
    arch := ← a.target
    options := ← a.options
    extension := a.extension
    suffix := a.suffix
    keep := a.keep
    continueOnError := a.continueOnError
    mode := a.mode }

/-- The path of the output: that of the source with the suffix in place of the extension. The source must be
named in UTF-8, and something must be left of its name without the extension. -/
def outputPath (job : Job) (source : Path) : Except Diagnostic Path :=
  let extension := Bytes.ofString job.extension
  let stem := source.take (source.length - extension.length)
  if (Utf8.decode? source).isSome ∧ extension.isSuffixOf source ∧ stem ≠ [] then
    .ok (stem ++ Bytes.ofString job.suffix)
  else .error Cause.sourceExtension.diagnostic

/-- A failure in the source file, if the fault is one. -/
def inSource (source : Path) (f : Fault) : Fault :=
  match f with
  | .reported d => .reported (d.inFile (Utf8.decodeLossy source))
  | .defect => .defect

section

variable {m : Type → Type} [Monad m] [Disk m]

/-- Compiles an opened source into an opened output. The source is read only now, after the output has been
emptied. -/
def fill (job : Job) (source output : Path) (memory : Memory := .plenty) : m Outcome := do
  let reader : Reader := match ← Disk.read source with
    | .ok bytes => { bytes }
    | .error e => { bytes := [], failure := some e.message }
  let c := compile job.arch reader {} job.options memory
  match ← Disk.write output c.sink.received with
  | .error e => return { result := .error (Cause.write e.message).fault, journal := c.journal }
  | .ok _ => return { result := c.result, journal := c.journal }

/-- Removes the output of a failed file, and notes if that fails. -/
def cleanUp (job : Job) (output : Path) : m Journal := do
  if job.keep then return #[]
  match ← Disk.remove output with
  | .ok _ => return #[]
  | .error e => return #[.notRemoved (Utf8.decodeLossy output) e.message]

def compileFile (job : Job) (source : Path) (memory : Memory := .plenty) : m Outcome := do
  match job.outputPath source with
  | .error d => return { result := .error (inSource source (.reported d)) }
  | .ok output =>
    match ← Disk.openRead source with
    | .error e => return { result := .error (inSource source (Cause.openRead e.message).fault) }
    | .ok _ =>
      match ← Disk.create output with
      | .error e =>
        let d := (Cause.openWrite e.message).diagnostic
        return { result := .error (.reported (d.inFile (Utf8.decodeLossy output))) }
      | .ok _ =>
        let outcome ← job.fill source output memory
        match outcome.result with
        | .ok stats =>
          let event := Event.compiled (Utf8.decodeLossy source) (Utf8.decodeLossy output) stats.codeSize
          return { outcome with journal := outcome.journal.push event }
        | .error f =>
          let left ← job.cleanUp output
          return { result := .error (inSource source f), journal := outcome.journal ++ left }

/-- Compiles files in order, up to the first failure that ends the run. For each file there is some memory. -/
def runFrom (job : Job) (r : Run) (files : List Path) (memory : Path → Memory := fun _ => .plenty) : m Run :=
  match files with
  | [] => return r
  | file :: files => do
    let outcome ← job.compileFile file (memory file)
    let r := { r with journal := r.journal ++ outcome.journal }
    match outcome.result with
    | .ok _ => job.runFrom r files memory
    | .error .defect => return { r with ok := false, broken := true }
    | .error (.reported d) =>
      let r := { r.report job.mode d with ok := false }
      if d.isFatal || !job.continueOnError then return r else job.runFrom r files memory

def run (job : Job) (files : List Path) (memory : Path → Memory := fun _ => .plenty) : m Run :=
  job.runFrom {} files memory

end

end Job

def Args.run {m : Type → Type} [Monad m] [Disk m] (a : Args) (memory : Path → Memory := fun _ => .plenty) : m Run :=
  if a.listArches then return { stdout := Arch.listing }
  else
    match Job.ofArgs a with
    | .error d => return { ({} : Run).report a.mode d with ok := false }
    | .ok job => job.run a.files memory

end TapeElf
