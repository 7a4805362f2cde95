import TapeElf.Text.Hex

/-!
# Characters in printed text

* `escapeChar`: an instruction character inside a report, printable ASCII on any terminal.
* `JsonWriter`: what makes the text of a JSON object out of its members. The one in use, `standard`, escapes in texts
  only what the format forbids there (`jsonChar`), so a written line is never broken.
-/

namespace TapeElf

/-! ## Reports -/

/-- A character as printable ASCII: itself, a backslash escape, or its code point in braces. -/
def escapeChar (c : Char) : List Char :=
  if c = '\t' then ['\\', 't']
  else if c = '\r' then ['\\', 'r']
  else if c = '\n' then ['\\', 'n']
  else if c.toNat = 0x27 ∨ c = '"' ∨ c = '\\' then ['\\', c]
  else if 0x20 ≤ c.toNat ∧ c.toNat ≤ 0x7e then [c]
  else ['\\', 'u', '\x7b'] ++ hexDigits c.toNat ++ ['\x7d']

/-! ## JSON objects -/

/-- A value that is a member of an object. -/
inductive JsonScalar where
  | text (s : String)
  | number (n : Nat)
deriving DecidableEq, Repr

/-- A text as a JSON string, quotes included, with every character as `escape` has it. -/
def jsonQuote (escape : Char → List Char) (s : String) : List Char := '"' :: s.toList.flatMap escape ++ ['"']

def JsonScalar.write (escape : Char → List Char) : JsonScalar → List Char
  | text s => jsonQuote escape s
  | number n => n.repr.toList

/-- A JSON object on one line. -/
def jsonObject (escape : Char → List Char) (members : List (String × JsonScalar)) : List Char :=
  let parts := members.map fun m => jsonQuote escape m.1 ++ ':' :: m.2.write escape
  '\x7b' :: (parts.intersperse [',']).flatten ++ ['\x7d']

/-- What makes the text of an object out of its members, if it can. -/
abbrev JsonWriter := List (String × JsonScalar) → Option (List Char)

/-- A character inside a JSON string. -/
def jsonChar (c : Char) : List Char :=
  if c = '"' then ['\\', '"']
  else if c = '\\' then ['\\', '\\']
  else if c.toNat = 0x08 then ['\\', 'b']
  else if c.toNat = 0x0c then ['\\', 'f']
  else if c = '\n' then ['\\', 'n']
  else if c = '\r' then ['\\', 'r']
  else if c = '\t' then ['\\', 't']
  else if c.toNat < 0x20 then ['\\', 'u', '0', '0', hexDigit (c.toNat / 16), hexDigit (c.toNat % 16)]
  else [c]

def JsonWriter.standard : JsonWriter := fun members => some (jsonObject jsonChar members)

end TapeElf
