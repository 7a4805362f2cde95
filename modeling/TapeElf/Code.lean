import TapeElf.Diagnostic

/-!
# Machine code under construction

Code grows at its end, and bytes already written can be overwritten in place; their offsets never change. There may be
too little memory for it to grow (`Memory`).
-/

namespace TapeElf

structure Code where
  bytes : Array UInt8 := #[]
deriving DecidableEq, Repr

namespace Code

/-- The number of bytes written, which is the offset of the next one. -/
def size (code : Code) : Nat := code.bytes.size

def toList (code : Code) : Bytes := code.bytes.toList

def append (code : Code) (bytes : Bytes) : Code := { bytes := code.bytes ++ bytes }

@[simp] theorem toList_append (code : Code) (bytes : Bytes) : (code.append bytes).toList = code.toList ++ bytes := by
  simp [append, toList]

@[simp] theorem size_append (code : Code) (bytes : Bytes) : (code.append bytes).size = code.size + bytes.length := by
  simp [append, size, ← Array.length_toList]

@[simp] theorem length_toList (code : Code) : code.toList.length = code.size := by
  simp [toList, size]

/-! ## Overwriting -/

/-- The array with the bytes from `pos` on replaced. -/
def overwrite (bytes : Array UInt8) (pos : Nat) : Bytes → Array UInt8
  | [] => bytes
  | b :: rest => overwrite (bytes.setIfInBounds pos b) (pos + 1) rest

@[simp] theorem size_overwrite (bytes : Array UInt8) (pos : Nat) (new : Bytes) :
    (overwrite bytes pos new).size = bytes.size := by
  induction new generalizing bytes pos with
  | nil => rfl
  | cons b rest ih => simp [overwrite, ih]

/-- Whether `length` bytes from `offset` on have been written. -/
def holds (code : Code) (offset length : Nat) : Bool := offset + length ≤ code.size

/-- The code with the bytes from `offset` on replaced, where the code `holds` them. -/
def patch (code : Code) (offset : Nat) (bytes : Bytes) : Code := { bytes := overwrite code.bytes offset bytes }

@[simp] theorem size_patch (code : Code) (offset : Nat) (bytes : Bytes) :
    (code.patch offset bytes).size = code.size := by
  simp [patch, size]

/-- The code with the bytes from `offset` on replaced, if they have all been written. -/
def patch? (code : Code) (offset : Nat) (bytes : Bytes) : Option Code :=
  if code.holds offset bytes.length then some (code.patch offset bytes) else none

end Code

/-! ## Memory -/

/-- The memory that is left for code and for open loops: why a request for more is refused, if it is. -/
structure Memory where
  /-- A request for `additional` bytes of code behind `size`. -/
  code : (size additional : Nat) → Option MemoryShortage
  /-- A request for one more loop, which is at `offset` and inside of `depth` others. -/
  loop : (offset depth : Nat) → Option MemoryShortage

/-- No request is refused. -/
def Memory.plenty : Memory where
  code _ _ := none
  loop _ _ := none

/-- `available` bytes of code can be had, and as many loops as there are. -/
def Memory.limited (available : Nat) : Memory where
  code := MemoryShortage.of? available
  loop _ _ := none

/-- Why `additional` more bytes of code cannot be held. -/
def Code.shortage? (code : Code) (memory : Memory) (additional : Nat) : Option Diagnostic :=
  (memory.code code.size additional).map fun s => (Cause.codeMemory s).diagnostic

end TapeElf
