import TapeElf.Balance
import TapeElf.Journal
import TapeElf.Op.Reader
import TapeElf.Optimizer.Condense

/-!
# The optimiser

`optimize` turns a source into ops: balanced brackets, no command without effect, runs counted, clearing
loops folded. `expandText` goes back from the text of ops to plain source.
-/

namespace TapeElf

def optimize (source : Bytes) : Except Diagnostic (List Op) :=
  match unbalanced? source with
  | some d => .error d
  | none => do
    let ops ← condense (simplify (Command.ofSource source))
    return foldClears ops

/-- What is noted of a source that became `ops`. -/
def optimizeEvent (source : Bytes) (ops : List Op) : Event := .condensed source.length ops.length

/-- The source of a text of ops, where `available` bytes of memory can be had. What comes before a
failure of the text is expanded first, and its own failure wins. -/
def expandText (available : Nat) (text : Bytes) : Except Diagnostic Bytes :=
  let (ops, failure) := Op.read text
  match Op.expand available ops, failure with
  | .ok _, some d => .error d
  | result, _ => result

end TapeElf
