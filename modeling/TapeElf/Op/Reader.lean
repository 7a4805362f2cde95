import TapeElf.Op
import TapeElf.Diagnostic
import TapeElf.Text.Digits

/-!
# Reading the text of ops

`Op.next` takes one op off the front of a text; `Op.read` takes all of them, up to the first place that
spells no op. A count is the longest run of lowercase hexadecimal digits after its symbol.
-/

namespace TapeElf.Op

/-- The counted op of a symbol. -/
def counted? (b : UInt8) : Option (UInt64 → Op) :=
  if b = 35 then some add
  else if b = 61 then some sub
  else if b = 125 then some right
  else if b = 123 then some left
  else none

/-- The leading digits of a text, and what follows them; `read` holds those already read, the last one first. -/
def digitsFrom (read : List Nat) : Bytes → List Nat × Bytes
  | [] => (read.reverse, [])
  | b :: rest =>
    match hexDigit? b with
    | some d => digitsFrom (d :: read) rest
    | none => (read.reverse, b :: rest)

theorem length_digitsFrom_le (read : List Nat) (text : Bytes) :
    (digitsFrom read text).2.length ≤ text.length := by
  induction text generalizing read with
  | nil => simp [digitsFrom]
  | cons b rest ih =>
    unfold digitsFrom
    split
    · exact Nat.le_trans (ih _) (Nat.le_succ _)
    · exact Nat.le_refl _

/-- The count at the front of a text, after the symbol `opcode`. -/
def readCount (opcode : Char) (text : Bytes) : Except Diagnostic (UInt64 × Bytes) :=
  let read := digitsFrom [] text
  if read.1.isEmpty then .error ((Cause.missingCount opcode).diagnostic.withInstruction opcode)
  else
    match digitsBelow? 16 UInt64.size read.1 with
    | some n => .ok (UInt64.ofNat n, read.2)
    | none => .error (Cause.countTooLarge.diagnostic.withInstruction opcode)

theorem length_readCount_le {opcode : Char} {text rest : Bytes} {n : UInt64}
    (h : readCount opcode text = .ok (n, rest)) : rest.length ≤ text.length := by
  unfold readCount at h
  dsimp only at h
  split at h
  · cases h
  · split at h
    · cases h
      exact length_digitsFrom_le [] text
    · cases h

/-- The op at the front of a text that starts with `b`, and what follows it. -/
def next (b : UInt8) (rest : Bytes) : Except Diagnostic (Op × Bytes) :=
  match ofByte? b, counted? b with
  | some op, _ => .ok (op, rest)
  | none, some op =>
    match readCount (Char.ofNat b.toNat) rest with
    | .ok (n, rest) => .ok (op n, rest)
    | .error d => .error d
  | none, none =>
    if b = 64 then .ok (clear, rest)
    else .error ((Cause.foreignByte b).diagnostic.withInstruction (Char.ofNat b.toNat))

theorem length_next_le {b : UInt8} {rest rest' : Bytes} {op : Op} (h : next b rest = .ok (op, rest')) :
    rest'.length ≤ rest.length := by
  unfold next at h
  split at h
  · cases h; exact Nat.le_refl _
  · split at h
    · cases h; exact length_readCount_le (by assumption)
    · cases h
  · split at h <;> cases h
    exact Nat.le_refl _

/-- The ops of a text up to its end or to the first failure; `read` holds those already read, the last one
first. -/
def readFrom (read : List Op) : Bytes → List Op × Option Diagnostic
  | [] => (read.reverse, none)
  | b :: rest =>
    match _h : next b rest with
    | .ok (op, rest') => readFrom (op :: read) rest'
    | .error d => (read.reverse, some d)
termination_by text => text.length
decreasing_by have := length_next_le _h; simp only [List.length_cons]; omega

/-- The ops of a text up to its end or to the first place that spells no op. -/
def read (text : Bytes) : List Op × Option Diagnostic := readFrom [] text

end TapeElf.Op
