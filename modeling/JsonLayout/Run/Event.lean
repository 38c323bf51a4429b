import JsonLayout.Disk.Path
import JsonLayout.Text.Shown

/-! # What a run reports about its progress -/

namespace JsonLayout.Run

inductive Event where
  | matched (path : Path)
  | skipped (path : Path)
  | expanded (glob : String) (matchCount : Nat)
  | unchanged (path : Path)
  | differs (path : Path)
  | written (path : Path)
  | finished (checked written differing : Nat)
  deriving DecidableEq

/-- How much detail must be asked for before an event is shown. -/
inductive Level where
  | info | debug | trace
  deriving DecidableEq

namespace Level

/-- How often more detail must be asked for. -/
def detail : Level → Nat
  | .info => 1
  | .debug => 2
  | .trace => 3

def label : Level → String
  | .info => " INFO"
  | .debug => "DEBUG"
  | .trace => "TRACE"

end Level

namespace Event

def level : Event → Level
  | .matched _ => .trace
  | .skipped _ | .expanded .. | .unchanged _ | .differs _ => .debug
  | .written _ | .finished .. => .info

def text : Event → String
  | .matched path => "matched path=" ++ path.text
  | .skipped path => "skipping match that isn't a file path=" ++ path.text
  | .expanded glob matchCount =>
      "expanded glob pattern=" ++ Text.shownText glob ++ s!" matches={matchCount}"
  | .unchanged path => "already formatted path=" ++ path.text
  | .differs path => "not formatted path=" ++ path.text
  | .written path => "formatted path=" ++ path.text
  | .finished checked changed differing =>
      s!"finished checked={checked} rewritten={changed} differing={differing}"

/-- The event as a line of the log, if the detail asked for includes it. -/
def logLine (detail : Nat) (e : Event) : String :=
  if e.level.detail ≤ detail then e.level.label ++ " " ++ e.text ++ "\n" else ""

end Event

end JsonLayout.Run
