/-!
# Numbers in lowercase hexadecimal

`hexDigits` writes a number with the fewest digits, `hexDigit?` reads one digit.
-/

namespace TapeElf

def hexDigit (n : Nat) : Char :=
  if n < 10 then Char.ofNat (48 + n) else Char.ofNat (87 + n)

/-- The digits of `n`, the most significant first, without leading zeros. -/
def hexDigits (n : Nat) : List Char :=
  if n < 16 then [hexDigit n] else hexDigits (n / 16) ++ [hexDigit (n % 16)]
decreasing_by omega

/-- The value of a byte as a lowercase hexadecimal digit. -/
def hexDigit? (b : UInt8) : Option Nat :=
  if 48 ≤ b ∧ b ≤ 57 then some (b.toNat - 48)
  else if 97 ≤ b ∧ b ≤ 102 then some (b.toNat - 87)
  else none

/-- A number as the journal and the messages show it: `0x` and its digits. -/
def hexNumber (n : Nat) : String := "0x" ++ String.ofList (hexDigits n)

/-- A byte as `0x` and two digits. -/
def hexByte (b : UInt8) : String :=
  String.ofList ['0', 'x', hexDigit (b.toNat / 16), hexDigit (b.toNat % 16)]

end TapeElf
