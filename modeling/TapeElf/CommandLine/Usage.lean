import TapeElf.CommandLine.Args

/-!
# What the command line says about itself

The texts for a command line that is not carried out.
-/

namespace TapeElf

/-- The name and the version of the program. -/
def versionText : String := "bfc 0.1.0\n"

def usageText : String :=
  "Brainfuck to ELF compiler\n\n" ++
  "Usage: bfc [OPTIONS] [FILE]...\n\n" ++
  "Options:\n" ++
  "  -q, --quiet                Don't print any errors\n" ++
  "  -j, --json                 Print errors as JSON, one object per line\n" ++
  "  -O, --optimize             Run the optimizer before generating code\n" ++
  "  -k, --keep                 Keep output files that failed to compile\n" ++
  "  -c, -m, --continue         Continue with the next file after a failure\n" ++
  "  -A, --list-arches          List supported architectures and exit\n" ++
  "  -a, --arch <ARCH>          Target architecture\n" ++
  "  -t, --tape-size <BLOCKS>   Tape size in 4 KiB blocks [default: 8]\n" ++
  "  -e, --source-ext <EXT>     Extension of source files [default: .bf]\n" ++
  "  -s, --output-suffix <SUF>  Suffix appended to output file names\n" ++
  "  -h, --help                 Print help\n" ++
  "  -V, --version              Print version\n"

def Refusal.message : Refusal → String
  | help => usageText
  | version => versionText
  | unknownArgument => "error: unexpected argument\n\n" ++ usageText
  | conflict => "error: an argument cannot be used multiple times\n\n" ++ usageText
  | missingValue => "error: a value is required\n\n" ++ usageText
  | badValue => "error: invalid value for '--tape-size <BLOCKS>'\n\n" ++ usageText
  | unexpectedValue => "error: unexpected value for an option without one\n\n" ++ usageText
  | missingFile => "error: the argument '<FILE>...' was not provided\n\n" ++ usageText
  | invalidUtf8 => "error: invalid UTF-8 in a value\n\n" ++ usageText

end TapeElf
