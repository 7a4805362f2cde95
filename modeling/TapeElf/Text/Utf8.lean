import TapeElf.Bytes

/-!
# Reading UTF-8

A byte string is read as a sequence of characters and of ill-formed parts. A part that starts like a
character but cannot be finished is ill-formed as a whole, up to the byte that rules it out; that byte
is then read afresh. `decode?` accepts a string without ill-formed parts, `decodeLossy` shows each of
them as U+FFFD.
-/

namespace TapeElf.Utf8

/-- What an ill-formed part is shown as. -/
def replacement : Char := Char.ofNat 0xfffd

/-- Where the reader stands: between characters, or inside one with `count` continuation bytes owed,
the next of which lies between `low` and `high`. -/
inductive State where
  | start
  | inside (count : Nat) (low high : UInt8) (value : Nat)

/-- A first byte: the characters it completes (none for an ill-formed byte) and the next state. -/
def first (b : UInt8) : List (Option Char) × State :=
  let n := b.toNat
  if n < 0x80 then ([some (Char.ofNat n)], .start)
  else if n < 0xc2 then ([none], .start)
  else if n < 0xe0 then ([], .inside 1 0x80 0xbf (n % 32))
  else if n = 0xe0 then ([], .inside 2 0xa0 0xbf (n % 16))
  else if n = 0xed then ([], .inside 2 0x80 0x9f (n % 16))
  else if n < 0xf0 then ([], .inside 2 0x80 0xbf (n % 16))
  else if n = 0xf0 then ([], .inside 3 0x90 0xbf (n % 8))
  else if n < 0xf4 then ([], .inside 3 0x80 0xbf (n % 8))
  else if n = 0xf4 then ([], .inside 3 0x80 0x8f (n % 8))
  else ([none], .start)

def step : State → UInt8 → List (Option Char) × State
  | .start, b => first b
  | .inside count low high value, b =>
    if low ≤ b ∧ b ≤ high then
      let value := value * 64 + b.toNat % 64
      if count ≤ 1 then ([some (Char.ofNat value)], .start)
      else ([], .inside (count - 1) 0x80 0xbf value)
    else
      let (read, state) := first b
      (none :: read, state)

/-- The characters of a byte string, `none` for each ill-formed part; `read` holds those already read,
the last one first. -/
def charsFrom (read : List (Option Char)) : State → Bytes → List (Option Char)
  | .start, [] => read.reverse
  | .inside .., [] => (none :: read).reverse
  | state, b :: bytes =>
    let (more, state) := step state b
    charsFrom (more.reverse ++ read) state bytes

/-- The characters of a byte string, `none` for each ill-formed part. -/
def chars (bytes : Bytes) : List (Option Char) := charsFrom [] .start bytes

/-- The text that a well-formed byte string spells. -/
def decode? (bytes : Bytes) : Option String :=
  let read := chars bytes
  if read.all Option.isSome then some (String.ofList (read.map (·.getD replacement))) else none

/-- The text of a byte string, with U+FFFD for each ill-formed part. -/
def decodeLossy (bytes : Bytes) : String := String.ofList ((chars bytes).map (·.getD replacement))

end TapeElf.Utf8
