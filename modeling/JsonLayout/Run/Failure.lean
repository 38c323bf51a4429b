import JsonLayout.Disk.Path
import JsonLayout.Disk.Basic
import JsonLayout.Glob.Pattern
import JsonLayout.Json.ParseError

/-! # What ends a run -/

namespace JsonLayout.Run

inductive Failure where
  | badGlob (glob : String) (cause : Glob.PatternError)
  | unreadable (path : Path) (cause : DiskError)
  | badJson (path : Path) (cause : Json.ParseError)
  | unwritable (path : Path) (cause : DiskError)
  deriving DecidableEq

namespace Failure

def message : Failure → String
  | .badGlob glob _ => "failed to parse glob: " ++ glob
  | .unreadable path _ => "failed to read file: " ++ path.text
  | .badJson path _ => "failed to format json file: " ++ path.text
  | .unwritable path _ => "failed to write json file: " ++ path.text

def causeMessage : Failure → String
  | .badGlob _ cause => cause.message
  | .unreadable _ cause => cause.message
  | .badJson _ cause => cause.message
  | .unwritable _ cause => cause.message

end Failure

end JsonLayout.Run
