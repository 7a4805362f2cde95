import TapeElf.Compile
import TapeElf.Disk
import TapeElf.Text.Digits
import TapeElf.Text.Utf8

/-!
# The words of a command line

A word is a long option `--name` or `--name=value`, a group of short options `-abc`, the mark `--` after
which every word is a file, or a value or file. A short option that takes a value takes the rest of its
word, or else the next word.

Words are taken from left to right, and the first that cannot be taken decides the answer. A value that
stands in a word of its own, and a file, are only looked at when the next option or file after them is taken,
or at the end; so an option that does not exist is found before a bad value in front of it.
-/

namespace TapeElf

/-- How failures are shown. -/
inductive Mode where
  | normal | json | quiet
deriving DecidableEq, Repr

structure Args where
  quiet : Bool := false
  json : Bool := false
  optimize : Bool := false
  keep : Bool := false
  continueOnError : Bool := false
  listArches : Bool := false
  arch : Option String := none
  tapeBlocks : UInt64 := 8
  extension : String := ".bf"
  suffix : String := ""
  files : List Path := []
deriving DecidableEq, Repr

/-- Why a command line is not carried out. Asking for help or the version is no failure. -/
inductive Refusal where
  | help | version
  | unknownArgument | conflict | missingValue | badValue | unexpectedValue | missingFile | invalidUtf8
deriving DecidableEq, Repr

def Refusal.isFailure : Refusal → Bool
  | help | version => false
  | _ => true

/-! ## Options -/

/-- The options without a value. -/
inductive Switch where
  | quiet | json | optimize | keep | continueOnError | listArches | help | version
deriving DecidableEq, Repr

/-- The options with a value. -/
inductive Setting where
  | arch | tapeSize | extension | suffix
deriving DecidableEq, Repr

def longOption? (name : Bytes) : Option (Switch ⊕ Setting) :=
  match Utf8.decode? name with
  | some "quiet" => some (.inl .quiet)
  | some "json" => some (.inl .json)
  | some "optimize" => some (.inl .optimize)
  | some "keep" => some (.inl .keep)
  | some "continue" => some (.inl .continueOnError)
  | some "list-arches" => some (.inl .listArches)
  | some "help" => some (.inl .help)
  | some "version" => some (.inl .version)
  | some "arch" => some (.inr .arch)
  | some "tape-size" => some (.inr .tapeSize)
  | some "source-ext" => some (.inr .extension)
  | some "output-suffix" => some (.inr .suffix)
  | _ => none

def shortOption? (b : UInt8) : Option (Switch ⊕ Setting) :=
  match Char.ofNat b.toNat with
  | 'q' => some (.inl .quiet)
  | 'j' => some (.inl .json)
  | 'O' => some (.inl .optimize)
  | 'k' => some (.inl .keep)
  | 'c' | 'm' => some (.inl .continueOnError)
  | 'A' => some (.inl .listArches)
  | 'h' => some (.inl .help)
  | 'V' => some (.inl .version)
  | 'a' => some (.inr .arch)
  | 't' => some (.inr .tapeSize)
  | 'e' => some (.inr .extension)
  | 's' => some (.inr .suffix)
  | _ => none

/-! ## Values -/

/-- A number of 64 bits in decimal, which may have a plus sign and leading zeros. -/
def decimal? (s : String) : Option UInt64 :=
  let digits := match s.toList with
    | '+' :: digits => digits
    | digits => digits
  if digits.isEmpty ∨ ¬ digits.all Char.isDigit then none
  else (digitsBelow? 10 UInt64.size (digits.map (·.toNat - 48))).map UInt64.ofNat

/-! ## Taking words -/

/-- What has been taken but not looked at. -/
inductive Pending where
  | nothing
  /-- An option, and its value unless that is still to come. -/
  | setting (s : Setting) (value : Option Bytes)
  /-- Files, the last one first. -/
  | files (paths : List Path)
deriving DecidableEq, Repr

/-- A command line while it is being taken. -/
structure Draft where
  switches : List Switch := []
  arch : Option String := none
  tapeBlocks : Option UInt64 := none
  extension : Option String := none
  suffix : Option String := none
  files : List Path := []
  pending : Pending := .nothing
deriving DecidableEq, Repr

namespace Draft

def has (d : Draft) : Setting → Bool
  | .arch => d.arch.isSome
  | .tapeSize => d.tapeBlocks.isSome
  | .extension => d.extension.isSome
  | .suffix => d.suffix.isSome

/-- Sets an option from the bytes of its value. -/
def set (d : Draft) (s : Setting) (value : Bytes) : Except Refusal Draft :=
  if d.has s then .error .conflict
  else
    match Utf8.decode? value with
    | none => .error .invalidUtf8
    | some text =>
      match s with
      | .arch => .ok { d with arch := some text }
      | .extension => .ok { d with extension := some text }
      | .suffix => .ok { d with suffix := some text }
      | .tapeSize =>
        match decimal? text with
        | some n => .ok { d with tapeBlocks := some n }
        | none => .error .badValue

/-- Looks at what is pending. -/
def settle (d : Draft) : Except Refusal Draft :=
  let settled := { d with pending := .nothing }
  match d.pending with
  | .nothing => .ok d
  | .setting _ none => .error .missingValue
  | .setting s (some value) => settled.set s value
  | .files paths =>
    if paths.contains [] then .error .missingValue
    else .ok { settled with files := d.files ++ paths.reverse }

def takeSwitch (d : Draft) (s : Switch) : Except Refusal Draft := do
  let d ← d.settle
  match s with
  | .help => throw .help
  | .version => throw .version
  | s => if d.switches.contains s then throw .conflict else return { d with switches := s :: d.switches }

/-- Takes an option with its value, or with the value still to come. -/
def takeSetting (d : Draft) (s : Setting) (value : Option Bytes) : Except Refusal Draft := do
  let d ← d.settle
  match value with
  | some value => d.set s value
  | none => return { d with pending := .setting s none }

def takeFile (d : Draft) (path : Path) : Except Refusal Draft :=
  match d.pending with
  | .files paths => .ok { d with pending := .files (path :: paths) }
  | _ => do
    let d ← d.settle
    return { d with pending := .files [path] }

/-- Takes a word that is no option: the value still to come, or a file. -/
def takeValue (d : Draft) (word : Bytes) : Except Refusal Draft :=
  match d.pending with
  | .setting s none => .ok { d with pending := .setting s (some word) }
  | _ => d.takeFile word

def takeLong (d : Draft) (name : Bytes) (value : Option Bytes) : Except Refusal Draft :=
  match longOption? name, value with
  | none, _ => .error .unknownArgument
  | some (.inl _), some _ => .error .unexpectedValue
  | some (.inl s), none => d.takeSwitch s
  | some (.inr s), value => d.takeSetting s value

def takeShort (d : Draft) : Bytes → Except Refusal Draft
  | [] => .ok d
  | b :: rest =>
    match shortOption? b with
    | none => .error .unknownArgument
    | some (.inl s) => do
      let d ← d.takeSwitch s
      d.takeShort rest
    | some (.inr s) =>
      match rest with
      | [] => d.takeSetting s none
      | 61 :: value => d.takeSetting s (some value)
      | value => d.takeSetting s (some value)

/-- The name and the value of a long option. -/
def splitValue (word : Bytes) : Bytes × Option Bytes :=
  match word.dropWhile (· ≠ 61) with
  | [] => (word, none)
  | _ :: value => (word.takeWhile (· ≠ 61), some value)

def takeFiles (d : Draft) : List Bytes → Except Refusal Draft
  | [] => d.settle
  | word :: words => do
    let d ← d.takeFile word
    d.takeFiles words

def takeWords (d : Draft) : List Bytes → Except Refusal Draft
  | [] => d.settle
  | [45, 45] :: words => d.takeFiles words
  | (45 :: 45 :: option) :: words => do
    let (name, value) := splitValue option
    let d ← d.takeLong name value
    d.takeWords words
  | (45 :: letter :: letters) :: words => do
    let d ← d.takeShort (letter :: letters)
    d.takeWords words
  | word :: words => do
    let d ← d.takeValue word
    d.takeWords words

/-- The command line, with what was not given at its default. -/
def args (d : Draft) : Args where
  quiet := d.switches.contains .quiet
  json := d.switches.contains .json
  optimize := d.switches.contains .optimize
  keep := d.switches.contains .keep
  continueOnError := d.switches.contains .continueOnError
  listArches := d.switches.contains .listArches
  arch := d.arch
  tapeBlocks := d.tapeBlocks.getD 8
  extension := d.extension.getD ".bf"
  suffix := d.suffix.getD ""
  files := d.files

end Draft

namespace Args

/-- Reads a command line. A file must be named unless the architectures are to be listed. -/
def read (words : List Bytes) : Except Refusal Args := do
  let d ← ({} : Draft).takeWords words
  let args := d.args
  if args.files.isEmpty && !args.listArches then throw .missingFile else return args

/-! ## What a command line asks for -/

def mode (a : Args) : Mode := if a.quiet then .quiet else if a.json then .json else .normal

def target (a : Args) : Except Diagnostic Arch := do
  let arch ← match a.arch with
    | some name => Arch.ofName name
    | none => pure (Arch.default?.getD .x86_64)
  if arch.isEnabled then return arch else throw arch.unsupported

/-- The settings of each compilation. The tape size must make sense for some architecture. -/
def options (a : Args) : Except Diagnostic Options := do
  let _ ← Elf.tapeSize a.tapeBlocks
  return { optimize := a.optimize, tapeBlocks := a.tapeBlocks }

end Args

end TapeElf
