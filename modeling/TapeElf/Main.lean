import TapeElf.CommandLine.Job
import TapeElf.CommandLine.Usage

/-!
# The compiler on real files
-/

namespace TapeElf

/-- The failure that the operating system reports. -/
def DiskError.ofError : IO.Error → DiskError
  | .noFileOrDirectory .. => .notFound
  | .permissionDenied _ 13 _ => .accessDenied
  | .inappropriateType _ 20 _ => .notDirectory
  | .inappropriateType _ 21 _ => .isDirectory
  | .invalidArgument _ 36 _ => .nameTooLong
  | e => .other (toString e)

/-- An action that reports its failure. -/
def attempt {α : Type} (act : IO α) : IO (Except DiskError α) := do
  try
    return .ok (← act)
  catch e =>
    return .error (.ofError e)

/-- Empties a file, or makes a new one that can be executed. -/
def createExecutable (name : String) : IO Unit := do
  try
    discard (IO.FS.Handle.mk name .writeNew)
    IO.setAccessRights name
      { user := { read := true, write := true, execution := true }
        group := { read := true, execution := true }
        other := { read := true, execution := true } }
  catch
    | .alreadyExists .. => discard (IO.FS.Handle.mk name .write)
    | e => throw e

instance : Disk IO where
  openRead path := attempt (discard (IO.FS.Handle.mk (Utf8.decodeLossy path) .read))
  read path := attempt (return (← IO.FS.readBinFile (Utf8.decodeLossy path)).toList)
  create path := attempt (createExecutable (Utf8.decodeLossy path))
  write path data := attempt (IO.FS.writeBinFile (Utf8.decodeLossy path) (ByteArray.mk data.toArray))
  remove path := attempt (IO.FS.removeFile (Utf8.decodeLossy path))

def runOnFiles (args : Args) : IO UInt32 := do
  let run : Run ← args.run
  for event in run.journal do
    if event.level = .warn then IO.eprintln ("warning: " ++ event.message)
  IO.print run.stdout
  IO.eprint run.stderr
  return if run.ok then 0 else 1

end TapeElf

def main (words : List String) : IO UInt32 := do
  match TapeElf.Args.read (words.map TapeElf.Bytes.ofString) with
  | .ok args => TapeElf.runOnFiles args
  | .error refusal =>
    if refusal.isFailure then
      IO.eprint refusal.message
      return 1
    else
      IO.print refusal.message
      return 0
