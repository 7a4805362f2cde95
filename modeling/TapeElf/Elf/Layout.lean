import TapeElf.Diagnostic
import TapeElf.Elf.Class

/-!
# Where an executable lies in memory

The tape starts at a fixed address. The code segment holds the whole file and starts at the first multiple
of 64 KiB past the end of the tape, so the two never overlap. Machine code starts at the first multiple of
256 past the headers.
-/

namespace TapeElf.Elf

/-- The address of the first cell. -/
def tapeAddress : Nat := 0x10000

def blockSize : Nat := 0x1000

/-- The number of program headers: one for the tape, one for the code. -/
def segmentCount : Nat := 2

def Class.headersSize (c : Class) : Nat := c.headerSize + segmentCount * c.segmentSize

/-- The offset of the machine code in the file and in its segment. -/
def Class.codeOffset (c : Class) : Nat := c.headersSize / 0x100 * 0x100 + 0x100

def tapeSize (blocks : UInt64) : Except Diagnostic Nat :=
  if blocks = 0 then .error Cause.tapeSizeZero.diagnostic
  else if blocks.toNat ≥ 1 <<< 52 - 1 then .error Cause.tapeTooLarge.diagnostic
  else .ok (blocks.toNat * blockSize)

/-- The addresses that follow from the size of the tape. -/
structure Layout where
  tapeSize : Nat
  /-- The address of the code segment. -/
  loadAddress : Nat
  /-- The offset of the machine code. -/
  codeOffset : Nat
deriving DecidableEq, Repr

/-- The address of the first instruction. -/
def Layout.entry (l : Layout) : Nat := l.loadAddress + l.codeOffset

/-- The layout for a tape of `blocks` blocks. The entry is its highest address, so a layout fits the address
space if the entry does. -/
def Layout.of (c : Class) (blocks : UInt64) : Except Diagnostic Layout :=
  match Elf.tapeSize blocks with
  | .error d => .error d
  | .ok tapeSize =>
    let layout : Layout :=
      { tapeSize, loadAddress := (tapeAddress + tapeSize) / 0x10000 * 0x10000 + 0x10000, codeOffset := c.codeOffset }
    if layout.entry ≤ c.maxAddress then .ok layout else .error Cause.tapeTooLarge.diagnostic

end TapeElf.Elf
