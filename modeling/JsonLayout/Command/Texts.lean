import JsonLayout.Command.Arguments
import JsonLayout.Text.ControlSequence

/-! # Fixed texts of the command -/

namespace JsonLayout.Command

def versionText : String := "jsonfmt 0.1.0, commit none, built at unknown\n"

def helpText : String :=
  "Like gofmt, but for JSON\n\n" ++
  "Usage: jsonfmt [OPTIONS] [FILES]...\n\n" ++
  "Arguments:\n" ++
  "  [FILES]...  Globs of the files you want to check [default: **/*.json]\n\n" ++
  "Options:\n" ++
  "  -w, --write       Write changes to the files\n" ++
  "      --verbose...  Log what's happening to stderr (repeat for more detail)\n" ++
  "  -v, --version     Print version\n" ++
  "  -h, --help        Print help\n"

namespace UsageError

/-- What is wrong, and a tip if there is one. What was given is quoted without what would steer the
terminal. -/
def explanation : UsageError → String
  | .unknownLetter c => unexpected (String.ofList ['-', c]) none
  | .unknownName name _ => unexpected ("--" ++ name) (Flag.closest? name)
  | .repeated flag => "the argument '" ++ flag.usage ++ "' cannot be used multiple times"
  | .needlessValue flag value _ =>
      "unexpected value '" ++ Text.plainText value ++ "' for '" ++ flag.usage ++
      "' found; no more were expected"
where
  unexpected (argument : String) (meant : Option Flag) : String :=
    let shown := Text.plainText argument
    "unexpected argument '" ++ shown ++ "' found\n\n  tip: " ++
    match meant with
    | some flag => "a similar argument exists: '" ++ flag.given ++ "'"
    | none => "to pass '" ++ shown ++ "' as a value, use '-- " ++ shown ++ "'"

/-- The usage of all flags and globs together. -/
def fullUsage : List String := ["[OPTIONS]", "[FILES]..."]

/-- The usage to recall: of what the arguments have shown to be wanted, if anything. -/
def usage : UsageError → List String
  | .unknownLetter _ | .repeated _ => fullUsage
  | .unknownName name before =>
      let flags := before.distinctFlags
      let wanted := flags ++ (Flag.closest? name).toList.filter (!flags.contains ·)
      if wanted.isEmpty && before.globs.isEmpty then fullUsage
      else wanted.map Flag.usage ++ [if before.globs.isEmpty then "[FILES]..." else "<FILES>..."]
  | .needlessValue flag _ before =>
      if before.flags.isEmpty then [flag.usage, "[FILES]..."]
      else
        let alone := if flag = .version || flag = .help then [flag.usage] else []
        alone ++ ["<FILES|--write|--verbose...>"]

def message (e : UsageError) : String :=
  "error: " ++ e.explanation ++ "\n\nUsage: " ++ " ".intercalate ("jsonfmt" :: e.usage) ++
  "\n\nFor more information, try '--help'.\n"

end UsageError

end JsonLayout.Command
