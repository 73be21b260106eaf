import ScalarJit.CommandLine.Options

/-! # Texts about usage -/

namespace ScalarJit.CommandLine

def programName : String := "silica"

def programVersion : String := "0.1.0"

def generalUsage : String := programName ++ " [FLAGS] [OPTIONS] <in-file>"

def usage (options : List OptionName) : String :=
  match options with
  | [] => generalUsage
  | options => " ".intercalate (programName :: "<in-file>" :: options.map (·.shown))

def named (seen : Seen) : List OptionName := OptionName.all.filter fun o => 0 < o.count seen

def settled (seen : Seen) : List OptionName :=
  OptionName.all.filter fun o => o = .entry || 0 < o.count seen

def complaint (text : String) (options : List OptionName) : String :=
  "error: " ++ text ++ "\n\nUSAGE:\n    " ++ usage options ++
    "\n\nFor more information try --help\n"

def version : String := programName ++ " " ++ programVersion ++ "\n"

def help : String :=
  "\n".intercalate [
    programName ++ " " ++ programVersion,
    "Compile and run a Silica program",
    "",
    "USAGE:",
    "    " ++ generalUsage,
    "",
    "FLAGS:",
    "        --emit-ast     Print the syntax tree as JSON before running",
    "        --emit-code    Print the generated sections as hex before running",
    "    -h, --help         Prints help information",
    "    -V, --version      Prints version information",
    "",
    "OPTIONS:",
    "        --entry <entry>    Function to call once compiled [default: main]",
    "",
    "ARGS:",
    "    <in-file>    Source file to compile",
    ""]

def UsageFault.message : UsageFault → String
  | .helpWanted => help
  | .versionWanted => version
  | .unknownArgument argument seen =>
    complaint ("Found argument '" ++ argument ++
      "' which wasn't expected, or isn't valid in this context") (named seen)
  | .missingFile seen =>
    complaint "The following required arguments were not provided:\n    <in-file>" (settled seen)
  | .repeated option seen =>
    complaint ("The argument '" ++ option.shown ++
      "' was provided more than once, but cannot be used multiple times") (settled seen)

/-- Whether a call that ends with this fault did what was asked. -/
def UsageFault.isAnswer : UsageFault → Bool
  | .helpWanted | .versionWanted => true
  | _ => false

end ScalarJit.CommandLine
