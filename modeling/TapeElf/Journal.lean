import TapeElf.Text.Hex

/-!
# The journal

What the compiler notes down while it works, besides its result: each `Event` has a level and a wording.
-/

namespace TapeElf

/-- How much an event matters. -/
inductive Level where
  | warn | debug | trace
deriving DecidableEq, Repr

/-- Something worth noting. -/
inductive Event where
  /-- A cell is changed by more than a cell holds. -/
  | cellWraps (symbol : Char) (count : Nat)
  /-- A loop was closed and its opening jump written. -/
  | loopPatched (target : String) (offset distance : Nat)
  /-- A source was optimised. -/
  | condensed (bytes ops : Nat)
  /-- An executable was delivered. -/
  | delivered (target : String) (optimize : Bool) (source code file : Nat)
  /-- A file was compiled. -/
  | compiled (source output : String) (code : Nat)
  /-- The output of a failed file stays behind. -/
  | notRemoved (output reason : String)
deriving DecidableEq, Repr

namespace Event

def level : Event → Level
  | cellWraps .. | notRemoved .. => .warn
  | delivered .. | compiled .. => .debug
  | loopPatched .. | condensed .. => .trace

def message : Event → String
  | cellWraps symbol count =>
    "'" ++ String.singleton symbol ++ "' count " ++ hexNumber count ++ " wraps the cell; using " ++
      hexNumber (count % 256)
  | loopPatched target offset distance =>
    target ++ ": patched loop at " ++ hexNumber offset ++ ", distance " ++ hexNumber distance
  | condensed bytes ops =>
    "condensed " ++ bytes.repr ++ " bytes of source into " ++ ops.repr ++ " IR ops"
  | delivered target optimize source code file =>
    target ++ ": optimize=" ++ (if optimize then "true" else "false") ++ " source=" ++ source.repr ++ "B code=" ++
      code.repr ++ "B file=" ++ file.repr ++ "B"
  | compiled source output code =>
    source ++ " -> " ++ output ++ " (" ++ code.repr ++ " bytes of code)"
  | notRemoved output reason => "failed to remove " ++ output ++ ": " ++ reason

end Event

/-- A journal, in the order of writing. -/
abbrev Journal := Array Event

end TapeElf
