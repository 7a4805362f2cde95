import TapeElf.Elf.Executable
import TapeElf.Generator
import TapeElf.Optimizer
import TapeElf.Target.Arch

/-!
# Compiling a source into an executable

The tape size is checked first, then the source is read, code is generated and the executable delivered.
If generation fails part way, the executable of what was generated is delivered all the same, and the failure
is given afterwards; a failed delivery comes before it.
-/

namespace TapeElf

structure Options where
  optimize : Bool := false
  /-- The size of the tape in blocks of 4 KiB. -/
  tapeBlocks : UInt64 := 8
deriving DecidableEq, Repr

/-- The sizes of a delivered executable. -/
structure Stats where
  codeSize : Nat
  fileSize : Nat
deriving DecidableEq, Repr

/-- A source to be read: its bytes, and what stops the reading after them, if something does. -/
structure Reader where
  bytes : Bytes
  failure : Option String := none
deriving DecidableEq, Repr

structure Compilation where
  sink : Sink
  result : Except Fault Stats
  journal : Journal := #[]

/-- The executable that a target is compiled to. -/
def Backend.executable (b : Backend) (tapeBlocks : UInt64) : Elf.Executable where
  elfClass := b.elfClass
  endian := b.endian
  machine := b.machine
  flags := b.flags
  tapeBlocks := tapeBlocks

namespace Generator

/-- Generates the code of a program between prologue and epilogue; an optimised one goes through the text of
its ops. -/
def compileBody (b : Backend) (g : Generator) (source : Bytes) (optimized : Bool) (memory : Memory := .plenty) :
    Generator × Option Fault :=
  if optimized then
    match optimize source with
    | .error d => (g, some (.reported d))
    | .ok ops => compileText b (g.note (some (optimizeEvent source ops))) (Op.bytes ops) memory
  else compileSource b g source memory

def generate (b : Backend) (source : Bytes) (optimized : Bool) (memory : Memory := .plenty) :
    Generator × Option Fault :=
  match emitAll b {} b.prologue with
  | (g, some f) => (g, some f)
  | (g, none) =>
    match compileBody b g source optimized memory with
    | (g, some f) => (g, some f)
    | (g, none) => emitAll b g b.epilogue

end Generator

/-- Delivers the executable of generated code, or of the part of it before a fault. -/
def deliver (b : Backend) (options : Options) (sourceSize : Nat) (sink : Sink) (g : Generator)
    (fault : Option Fault) : Compilation :=
  let code := g.code.toList
  match (b.executable options.tapeBlocks).write sink code with
  | (sink, .error d) => { sink, result := .error (.reported d), journal := g.journal }
  | (sink, .ok fileSize) =>
    match sink.flush with
    | (sink, some e) => { sink, result := .error (Cause.write e.message).fault, journal := g.journal }
    | (sink, none) =>
      let stats : Stats := { codeSize := g.code.size, fileSize }
      { sink
        result := match fault with | some f => .error f | none => .ok stats
        journal := g.journal.push (.delivered b.name options.optimize sourceSize stats.codeSize fileSize) }

def Backend.compile (b : Backend) (source : Reader) (sink : Sink) (options : Options) (memory : Memory := .plenty) :
    Compilation :=
  match (b.executable options.tapeBlocks).layout with
  | .error d => { sink, result := .error (.reported d) }
  | .ok _ =>
    match source.failure with
    | some text => { sink, result := .error (Cause.read text).fault }
    | none =>
      let (g, fault) := Generator.generate b source.bytes options.optimize memory
      deliver b options source.bytes.length sink g fault

def compile (arch : Arch) (source : Reader) (sink : Sink) (options : Options) (memory : Memory := .plenty) :
    Compilation :=
  if arch.isEnabled then arch.backend.compile source sink options memory
  else { sink, result := .error (.reported arch.unsupported) }

end TapeElf
