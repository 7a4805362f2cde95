import TapeElf.Target.X86.Long
import TapeElf.Target.X86.Protected
import TapeElf.Target.Arm64.Backend
import TapeElf.Target.Riscv64.Backend
import TapeElf.Target.S390x.Backend

/-!
# Architectures

The targets by name. A name is looked up without regard to the case of ASCII letters, and every target has
other names besides its own.
-/

namespace TapeElf

/-- The architectures known to the compiler. -/
inductive Arch where
  | x86_64 | i386 | arm64 | riscv64 | s390x
deriving DecidableEq, Repr

namespace Arch

def all : List Arch := [x86_64, i386, arm64, riscv64, s390x]

def name : Arch → String
  | x86_64 => "x86_64"
  | i386 => "i386"
  | arm64 => "arm64"
  | riscv64 => "riscv64"
  | s390x => "s390x"

def aliases : Arch → List String
  | x86_64 => ["x64", "amd64", "x86-64"]
  | i386 => ["x86", "i686"]
  | arm64 => ["aarch64"]
  | riscv64 => ["riscv"]
  | s390x => ["s390", "z/architecture"]

def backend : Arch → Backend
  | x86_64 => X86.Long.backend
  | i386 => X86.Protected.backend
  | arm64 => Arm64.backend
  | riscv64 => Riscv64.backend
  | s390x => S390x.backend

def ofName (name : String) : Except Diagnostic Arch :=
  let lower := name.map Char.toLower
  match all.find? fun arch => arch.name == lower || arch.aliases.contains lower with
  | some arch => .ok arch
  | none => .error (Cause.unknownArch name).diagnostic

/-- The architectures that this build can compile for: all of them. -/
def enabled : List Arch := all

def isEnabled (arch : Arch) : Bool := enabled.contains arch

/-- The failure of a request for an architecture that is not enabled. -/
def unsupported (arch : Arch) : Diagnostic := (Cause.unsupportedArch arch.name).diagnostic

/-- The architecture the compiler itself runs on. -/
def host : Arch := x86_64

/-- The architecture to compile for when none is asked for: the host's, or else the first enabled one. -/
def default? : Option Arch := if host.isEnabled then some host else enabled.head?

/-- The architectures as the command line lists them. -/
def listing : String :=
  let line (arch : Arch) := "- " ++ arch.name ++ " (aliases: " ++ ", ".intercalate arch.aliases ++ ")\n"
  "This build of bfc supports the following architectures:\n\n" ++ String.join (enabled.map line) ++
  match default? with
  | some arch => "\nIf no architecture is specified, it defaults to " ++ arch.name ++ ".\n"
  | none => "\nNo architectures were enabled in this build.\n"

end Arch

end TapeElf
