import TapeElf.Command
import TapeElf.Diagnostic

/-!
# Brackets

Every `]` closes the nearest open `[`. A source is refused at the first `]` that closes nothing, or else at
the first `[` that is never closed.
-/

namespace TapeElf

/-- The failure at a `]` that closes nothing. -/
def unmatchedClose (loc : Location) : Diagnostic :=
  Cause.unmatchedClose.diagnostic.withInstruction ']' |>.withLocation loc

/-- The failure at a `[` that is never closed. -/
def unmatchedOpen (loc : Location) : Diagnostic :=
  Cause.unmatchedOpen.diagnostic.withInstruction '[' |>.withLocation loc

/-- What is wrong with the brackets of a source read from `loc` on, inside the loops whose brackets stand at
`opened`, the innermost first. -/
def bracketFault? (loc : Location) (opened : List Location) : Bytes → Option Diagnostic
  | [] => opened.getLast?.map unmatchedOpen
  | b :: source =>
    let loc := loc.advance b
    match Command.ofByte? b with
    | some .loopOpen => bracketFault? loc (loc :: opened) source
    | some .loopClose =>
      match opened with
      | [] => some (unmatchedClose loc)
      | _ :: opened => bracketFault? loc opened source
    | _ => bracketFault? loc opened source

def unbalanced? (source : Bytes) : Option Diagnostic := bracketFault? Location.start [] source

end TapeElf
