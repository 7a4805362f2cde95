import TapeElf.Bytes

/-!
# Positions in a source

Lines start at 1. A column counts code points: the bytes `10xxxxxx` that continue a character do not
move it, so in valid UTF-8 the column of a byte is the number of characters of its line up to it.
-/

namespace TapeElf

/-- A position: the line, and the number of characters of that line already passed. -/
structure Location where
  line : Nat := 1
  column : Nat := 0
deriving DecidableEq, Repr

namespace Location

def start : Location := {}

/-- A byte that continues a UTF-8 character. -/
def isContinuation (b : UInt8) : Bool := b &&& 0xc0 == 0x80

/-- The position after one more byte. -/
def advance (loc : Location) (b : UInt8) : Location :=
  if b = 0x0a then { line := loc.line + 1, column := 0 }
  else if isContinuation b then loc
  else { loc with column := loc.column + 1 }

/-- Both counters are 64-bit numbers. -/
def inRange (loc : Location) : Bool := loc.line < UInt64.size && loc.column < UInt64.size

/-- The positions passed while advancing over `bytes`, the first one included, or nothing if a
counter leaves its 64 bits. -/
def trail? (loc : Location) : Bytes → Option (List Location)
  | [] => some [loc]
  | b :: bytes =>
    let next := loc.advance b
    if next.inRange then (next.trail? bytes).map (loc :: ·) else none

end Location

end TapeElf
