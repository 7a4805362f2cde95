import TapeElf.Bytes

/-!
# Disks

What a run of the compiler asks of the files it works on. A disk is a monad with five operations, so the same
run can be carried out on real files and on a directory tree that is a value.
-/

namespace TapeElf

/-- A path, in any bytes. -/
abbrev Path := Bytes

/-- Why an operation on a file failed. -/
inductive DiskError where
  | notFound | accessDenied | notDirectory | isDirectory | nameTooLong | nulInName
  | other (text : String)
deriving DecidableEq, Repr

def DiskError.message : DiskError → String
  | notFound => "No such file or directory (os error 2)"
  | accessDenied => "Permission denied (os error 13)"
  | notDirectory => "Not a directory (os error 20)"
  | isDirectory => "Is a directory (os error 21)"
  | nameTooLong => "File name too long (os error 36)"
  | nulInName => "file name contained an unexpected NUL byte"
  | other text => text

/-- The operations on files. -/
class Disk (m : Type → Type) where
  /-- Opens a file to read; a directory can be opened too, though not read. -/
  openRead : Path → m (Except DiskError Unit)
  /-- The contents of an opened file, at the time of reading. -/
  read : Path → m (Except DiskError Bytes)
  /-- Opens a file to write, emptying it, or making it executable if it is new. -/
  create : Path → m (Except DiskError Unit)
  /-- Fills a file opened to write. -/
  write : Path → Bytes → m (Except DiskError Unit)
  /-- Removes a file. -/
  remove : Path → m (Except DiskError Unit)

end TapeElf
