import TapeElf.Code
import TapeElf.Elf.Layout
import TapeElf.Journal
import TapeElf.Op.Reader
import TapeElf.Target.Backend

/-!
# Generating machine code

Every op becomes a few operations of the target. A loop is compiled in one pass: `[` leaves a filler and
remembers its offset; `]` overwrites the filler with the jump past the loop and adds the jump back. Both jumps
have the size of the filler, so the distance between them is known at the `]`.

A generator keeps its state when a step fails, and what it has generated so far stays. Room for code is asked for
before a program is compiled, and room for a loop before it is opened; no more memory is asked for if that is refused.
-/

namespace TapeElf

/-- A `[` that waits for its `]`. -/
structure OpenLoop where
  /-- Its position in the source, if it comes from one. -/
  location : Option Location
  /-- The offset of its filler. -/
  offset : Nat
deriving DecidableEq, Repr

/-- The state of code generation. -/
structure Generator where
  code : Code := {}
  /-- The open loops, the innermost first. -/
  loops : List OpenLoop := []
  journal : Journal := #[]
deriving DecidableEq, Repr

/-! ## The operations of an op -/

namespace Backend

/-- Points the tape register at the first cell. -/
def prologue (b : Backend) : List (Operation b.Reg) :=
  [.load b.roles.tape (Int64.ofNat Elf.tapeAddress)]

/-- Exits with status 0. -/
def epilogue (b : Backend) : List (Operation b.Reg) :=
  [.load b.roles.call b.syscalls.exit, .load b.roles.arg1 0, .syscall]

/-- Reads one byte from, or writes it to, the file `fd`. -/
def transfer (b : Backend) (call fd : Int64) : List (Operation b.Reg) :=
  [.load b.roles.call call, .load b.roles.arg1 fd, .copy b.roles.arg2 b.roles.tape, .load b.roles.arg3 1, .syscall]

/-- The operations of an op outside loop control. A cell is changed by the count modulo 256. -/
def operations (b : Backend) : Op → List (Operation b.Reg)
  | .add n =>
    if n = 1 then [.incCell b.roles.tape] else if n % 256 = 0 then [] else [.addCell b.roles.tape n.toUInt8]
  | .sub n =>
    if n = 1 then [.decCell b.roles.tape] else if n % 256 = 0 then [] else [.subCell b.roles.tape n.toUInt8]
  | .right n => if n = 1 then [.incReg b.roles.tape] else [.addReg b.roles.tape n]
  | .left n => if n = 1 then [.decReg b.roles.tape] else [.subReg b.roles.tape n]
  | .output => b.transfer b.syscalls.write 1
  | .input => b.transfer b.syscalls.read 0
  | .clear => [.clearCell b.roles.tape]
  | .loopOpen | .loopClose => []

end Backend

/-- What is worth noting about an op: a count that a cell cannot hold. -/
def Op.remark? (op : Op) : Option Event :=
  match op with
  | .add n | .sub n => if n > 255 then some (.cellWraps op.symbol n.toNat) else none
  | _ => none

/-! ## Steps -/

namespace Generator

def emit (b : Backend) (g : Generator) (op : Operation b.Reg) : Generator × Option Fault :=
  let e := b.emit op
  ({ g with code := g.code.append e.bytes }, e.fault)

/-- Appends operations up to the first that fails. -/
def emitAll (b : Backend) (g : Generator) : List (Operation b.Reg) → Generator × Option Fault
  | [] => (g, none)
  | op :: ops =>
    match emit b g op with
    | (g, none) => emitAll b g ops
    | (g, some f) => (g, some f)

def note (g : Generator) (e : Option Event) : Generator :=
  match e with
  | some e => { g with journal := g.journal.push e }
  | none => g

def openLoop (b : Backend) (g : Generator) (location : Option Location) (memory : Memory := .plenty) :
    Generator × Option Fault :=
  match memory.loop g.code.size g.loops.length with
  | some shortage => (g, some (Cause.loopMemory shortage).fault)
  | none => emit b { g with loops := { location, offset := g.code.size } :: g.loops } .loopFiller

/-- Closes the innermost loop. -/
def closeLoop (b : Backend) (g : Generator) : Generator × Option Fault :=
  match g.loops with
  | [] => (g, some Cause.unmatchedClose.fault)
  | l :: loops =>
    let g := { g with loops }
    let distance := g.code.size - l.offset
    if g.code.size < l.offset then (g, some .defect)
    else if distance ≥ 1 <<< 63 then (g, some Cause.loopTooLarge.fault)
    else
      let opening := b.emit (.jumpIfZero b.roles.tape (Int64.ofNat distance))
      match opening.fault with
      | some f => (g, some f)
      | none =>
        if opening.bytes.length = b.jumpSize ∧ g.code.holds l.offset b.jumpSize then
          emit b
            { g with
              code := g.code.patch l.offset opening.bytes
              journal := g.journal.push (.loopPatched b.name l.offset distance) }
            (.jumpIfNonzero b.roles.tape (-Int64.ofNat distance))
        else (g, some .defect)

def step (b : Backend) (g : Generator) (op : Op) (location : Option Location) (memory : Memory := .plenty) :
    Generator × Option Fault :=
  match op with
  | .loopOpen => openLoop b g location memory
  | .loopClose => closeLoop b g
  | op => emitAll b (g.note op.remark?) (b.operations op)

/-- The failure of ending with open loops: it is the outermost that is reported. -/
def unclosed? (g : Generator) : Option Fault :=
  g.loops.getLast?.map fun l =>
    .reported { Cause.unmatchedOpen.diagnostic.withInstruction '[' with location := l.location }

/-! ## Programs -/

/-- Generates the code of a source that is read from `loc` on. -/
def compileSourceFrom (b : Backend) (g : Generator) (loc : Location) (source : Bytes) (memory : Memory := .plenty) :
    Generator × Option Fault :=
  match source with
  | [] => (g, g.unclosed?)
  | c :: source =>
    let loc := loc.advance c
    match Command.ofByte? c with
    | none => compileSourceFrom b g loc source memory
    | some command =>
      match step b g (Op.ofCommand command) (some loc) memory with
      | (g, none) => compileSourceFrom b g loc source memory
      | (g, some f) => (g, some (f.orContext command.char (some loc)))

def compileSource (b : Backend) (g : Generator) (source : Bytes) (memory : Memory := .plenty) :
    Generator × Option Fault :=
  match g.code.shortage? memory source.length with
  | some d => (g, some (.reported d))
  | none => compileSourceFrom b g Location.start source memory

/-- Generates the code of some ops, up to the first that fails. -/
def steps (b : Backend) (g : Generator) (ops : List Op) (memory : Memory := .plenty) : Generator × Option Fault :=
  match ops with
  | [] => (g, none)
  | op :: ops =>
    match step b g op none memory with
    | (g, none) => steps b g ops memory
    | (g, some f) => (g, some (f.orContext op.symbol none))

def compileOps (b : Backend) (g : Generator) (ops : List Op) (memory : Memory := .plenty) : Generator × Option Fault :=
  match steps b g ops memory with
  | (g, none) => (g, g.unclosed?)
  | (g, some f) => (g, some f)

/-- Generates the code of a text of ops, up to the first place that spells none. -/
def compileText (b : Backend) (g : Generator) (text : Bytes) (memory : Memory := .plenty) : Generator × Option Fault :=
  match g.code.shortage? memory text.length with
  | some d => (g, some (.reported d))
  | none =>
    match Op.read text with
    | (ops, none) => compileOps b g ops memory
    | (ops, some d) =>
      match steps b g ops memory with
      | (g, none) => (g, some (.reported d))
      | (g, some f) => (g, some f)

end Generator

end TapeElf
