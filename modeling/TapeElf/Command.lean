import TapeElf.Bytes

/-!
# The commands of the source language

Eight bytes are commands; every other byte of a source is a comment.
-/

namespace TapeElf

/-- A command: change the cell by one, move by one cell, write or read the cell, open or close a loop. -/
inductive Command where
  | inc | dec | right | left | output | input | loopOpen | loopClose
deriving DecidableEq, Repr

namespace Command

def char : Command → Char
  | inc => '+' | dec => '-' | right => '>' | left => '<'
  | output => '.' | input => ',' | loopOpen => '[' | loopClose => ']'

def byte : Command → UInt8
  | inc => 43 | dec => 45 | right => 62 | left => 60
  | output => 46 | input => 44 | loopOpen => 91 | loopClose => 93

def ofByte? (b : UInt8) : Option Command :=
  if b = 43 then some inc
  else if b = 45 then some dec
  else if b = 62 then some right
  else if b = 60 then some left
  else if b = 46 then some output
  else if b = 44 then some input
  else if b = 91 then some loopOpen
  else if b = 93 then some loopClose
  else none

@[simp] theorem ofByte?_byte (c : Command) : ofByte? c.byte = some c := by cases c <;> rfl

theorem ofByte?_eq_some_iff {b : UInt8} {c : Command} : ofByte? b = some c ↔ b = c.byte := by
  refine ⟨fun h => ?_, fun h => h ▸ ofByte?_byte c⟩
  unfold ofByte? at h
  repeat' split at h
  all_goals cases h
  all_goals assumption

/-- The command that undoes this one, if it is one of the four that can be undone. -/
def inverse? : Command → Option Command
  | inc => some dec | dec => some inc | right => some left | left => some right
  | _ => none

def changesCell : Command → Bool
  | inc | dec => true
  | _ => false

/-- The commands of a source, comments left out. -/
def ofSource (source : Bytes) : List Command := source.filterMap ofByte?

end Command

end TapeElf
