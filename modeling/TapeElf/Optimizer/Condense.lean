import TapeElf.Op
import TapeElf.Diagnostic
import TapeElf.Optimizer.Simplify

/-!
# From commands to ops and back

* `condense`: each run of a repeatable command becomes one counted op;
* `foldClears`: a loop that only counts the cell down, or up, to zero becomes a `clear`;
* `Op.expand`: the commands of a list of ops, as plain source.
-/

namespace TapeElf

/-! ## Condensing -/

/-- The counted op of a command that can be repeated. -/
def Command.counted? : Command → Option (UInt64 → Op)
  | .inc => some .add | .dec => some .sub | .right => some .right | .left => some .left
  | _ => none

/-- The ops of a run. A count must be a signed 64-bit number. -/
def condenseRun (run : Command × Nat) : Except Diagnostic (List Op) :=
  match run.1.counted? with
  | some op =>
    if run.2 < 1 <<< 63 then .ok [op (UInt64.ofNat run.2)]
    else .error (Cause.runTooLong.diagnostic.withInstruction run.1.char)
  | none => .ok (List.replicate run.2 (Op.ofCommand run.1))

/-- The ops of a program, one for each run of a repeatable command. -/
def condense (code : List Command) : Except Diagnostic (List Op) := do
  let parts ← (runs code).mapM condenseRun
  return parts.flatten

/-! ## Clearing loops -/

/-- One more op at the end of a list, the last op first. -/
def clearStep (done : List Op) (op : Op) : List Op :=
  match op, done with
  | .loopClose, .add n :: .loopOpen :: rest => if n = 1 then .clear :: rest else op :: done
  | .loopClose, .sub n :: .loopOpen :: rest => if n = 1 then .clear :: rest else op :: done
  | _, _ => op :: done

/-- The ops with every loop that only steps its cell to zero replaced by a `clear`. -/
def foldClears (ops : List Op) : List Op := (ops.foldl clearStep []).reverse

/-! ## Expanding -/

/-- The commands of an op: which one, and how often. -/
def Op.commands : Op → List (Command × Nat)
  | .add n => [(.inc, n.toNat)]
  | .sub n => [(.dec, n.toNat)]
  | .right n => [(.right, n.toNat)]
  | .left n => [(.left, n.toNat)]
  | .output => [(.output, 1)]
  | .input => [(.input, 1)]
  | .loopOpen => [(.loopOpen, 1)]
  | .loopClose => [(.loopClose, 1)]
  | .clear => [(.loopOpen, 1), (.dec, 1), (.loopClose, 1)]

/-- How much memory has to be found before an op is expanded; a `clear` asks for none. -/
def Op.reservation : Op → Nat
  | .add n | .sub n | .right n | .left n => n.toNat
  | .clear => 0
  | _ => 1

/-- The source of a list of ops, where `available` bytes of memory can be had; `done` holds what is
already written, the last byte first, and `length` its length. -/
def expandFrom (available : Nat) (done : Bytes) (length : Nat) : List Op → Except Diagnostic Bytes
  | [] => .ok done.reverse
  | op :: ops =>
    match MemoryShortage.of? available length op.reservation with
    | some shortage => .error (Cause.expansionMemory shortage).diagnostic
    | none =>
      let more := (unroll op.commands).map Command.byte
      expandFrom available (more.reverse ++ done) (length + more.length) ops

/-- The source of a list of ops, where `available` bytes of memory can be had. -/
def Op.expand (available : Nat) (ops : List Op) : Except Diagnostic Bytes := expandFrom available [] 0 ops

end TapeElf
