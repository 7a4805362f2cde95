import TapeElf.Bytes

/-!
# Where executables are delivered

A sink takes bytes until its room is used up: a write that does not fit stores what does and fails. One of
its flushes may fail too.
-/

namespace TapeElf

/-- Why a sink refuses. -/
inductive SinkError where
  | full | flush
deriving DecidableEq, Repr

def SinkError.message : SinkError → String
  | full => "failed to write whole buffer"
  | flush => "flush failed"

/-- A destination of bytes. -/
structure Sink where
  /-- How many more bytes it takes, if there is a limit. -/
  room : Option Nat := none
  /-- Which flush from now on fails: the first is 1, and 0 stands for none. -/
  badFlush : Nat := 0
  /-- What it has received. -/
  received : Bytes := []
deriving DecidableEq, Repr

namespace Sink

def write (s : Sink) (bytes : Bytes) : Sink × Option SinkError :=
  match s.room with
  | none => ({ s with received := s.received ++ bytes }, none)
  | some room =>
    if bytes.length ≤ room then
      ({ s with room := some (room - bytes.length), received := s.received ++ bytes }, none)
    else ({ s with room := some 0, received := s.received ++ bytes.take room }, some .full)

@[simp] theorem received_write (s : Sink) (bytes : Bytes) :
    (s.write bytes).1.received = s.received ++ match s.room with | none => bytes | some room => bytes.take room := by
  unfold write
  split
  · simp
  · next room h =>
    split
    · next fit => rw [List.take_of_length_le fit]
    · rfl

theorem write_eq_none_iff (s : Sink) (bytes : Bytes) :
    (s.write bytes).2 = none ↔ ∀ room, s.room = some room → bytes.length ≤ room := by
  unfold write
  split
  · simp [*]
  · next room h => split <;> simp [*]

/-- What does not fit in one write does not fit in two. -/
theorem write_append (s : Sink) (a b : Bytes) :
    s.write (a ++ b) = match s.write a with
      | (s, none) => s.write b
      | (s, some e) => (s, some e) := by
  obtain ⟨_ | room, badFlush, received⟩ := s
  · simp [write]
  · by_cases ha : a.length ≤ room
    · by_cases hb : b.length ≤ room - a.length
      · have hab : a.length + b.length ≤ room := by omega
        simp [write, ha, hb, hab, Nat.sub_sub]
      · have hab : ¬ a.length + b.length ≤ room := by omega
        simp [write, ha, hb, hab, List.take_append, List.take_of_length_le ha]
    · have hab : ¬ a.length + b.length ≤ room := by omega
      have hcut : (a ++ b).take room = a.take room := List.take_append_of_le_length (by omega)
      simp [write, ha, hab, hcut]

/-- Writes one piece after another, up to the first that does not fit. -/
def writeAll (s : Sink) : List Bytes → Sink × Option SinkError
  | [] => (s, none)
  | piece :: pieces =>
    match s.write piece with
    | (s, none) => s.writeAll pieces
    | (s, some e) => (s, some e)

/-- It makes no difference in what pieces bytes are written. -/
theorem writeAll_eq (s : Sink) (pieces : List Bytes) : s.writeAll pieces = s.write pieces.flatten := by
  induction pieces generalizing s with
  | nil =>
    obtain ⟨_ | room, badFlush, received⟩ := s <;> simp [writeAll, write]
  | cons piece pieces ih =>
    rw [List.flatten_cons, write_append, writeAll]
    rcases s.write piece with ⟨s', _ | e⟩
    · exact ih s'
    · rfl

def flush (s : Sink) : Sink × Option SinkError :=
  ({ s with badFlush := s.badFlush - 1 }, if s.badFlush = 1 then some .flush else none)

@[simp] theorem received_flush (s : Sink) : s.flush.1.received = s.received := rfl

end Sink

end TapeElf
