import TapeElf.Command
import TapeElf.Text.Hex

/-!
# Ops

An op is a command with a repeat count, or one that no single command expresses: clearing a cell.
Its text is its symbol, followed by the count in lowercase hexadecimal unless that is 1; a counted
symbol differs from the command's own character, so a text is read without looking back:

| command | `+` | `-` | `>` | `<` |
|---------|-----|-----|-----|-----|
| counted | `#` | `=` | `}` | `{` |
-/

namespace TapeElf

/-- An instruction of a condensed program. -/
inductive Op where
  /-- Add to the cell. -/
  | add (count : UInt64)
  /-- Subtract from the cell. -/
  | sub (count : UInt64)
  /-- Move to the right. -/
  | right (count : UInt64)
  /-- Move to the left. -/
  | left (count : UInt64)
  /-- Write the cell. -/
  | output
  /-- Read into the cell. -/
  | input
  /-- Skip to the end of the loop if the cell is zero. -/
  | loopOpen
  /-- Go back to the start of the loop unless the cell is zero. -/
  | loopClose
  /-- Set the cell to zero. -/
  | clear
deriving DecidableEq, Repr

namespace Op

def ofCommand : Command → Op
  | .inc => add 1 | .dec => sub 1 | .right => right 1 | .left => left 1
  | .output => output | .input => input | .loopOpen => loopOpen | .loopClose => loopClose

def ofByte? (b : UInt8) : Option Op := (Command.ofByte? b).map ofCommand

/-- The repeat count of the ops that have one. -/
def count? : Op → Option UInt64
  | add n | sub n | right n | left n => some n
  | _ => none

/-- The character an op is written with. -/
def symbol : Op → Char
  | add n => if n = 1 then '+' else '#'
  | sub n => if n = 1 then '-' else '='
  | right n => if n = 1 then '>' else '\x7d'
  | left n => if n = 1 then '<' else '\x7b'
  | output => '.' | input => ',' | loopOpen => '[' | loopClose => ']' | clear => '@'

def text (op : Op) : List Char :=
  match op.count? with
  | none => [op.symbol]
  | some n => if n = 1 then [op.symbol] else op.symbol :: hexDigits n.toNat

def render (ops : List Op) : List Char := ops.flatMap text

def bytes (ops : List Op) : Bytes := Bytes.ofString (String.ofList (render ops))

end Op

end TapeElf
