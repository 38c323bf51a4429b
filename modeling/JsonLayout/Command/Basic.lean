import JsonLayout.Command.Texts
import JsonLayout.Run.Basic

/-! # The command

From arguments and a disk to an exit status, what is written to the two output streams, and the
disk afterwards. -/

namespace JsonLayout.Command

open Run

structure Result where
  status : Nat
  output : String
  errors : String
  disk : Disk

/-- A file that is not canonical, as the output shows it. -/
def reportText (report : Path × String) : String :=
  "file " ++ report.1.text ++ " differs:\n" ++ report.2 ++ "\n"

/-- A failure as the error stream shows it. -/
def failureText (f : Failure) : String :=
  "Error: " ++ f.message ++ "\n\nCaused by:\n    " ++ f.causeMessage ++ "\n"

def differingText : String := "Error: some files are not properly formatted, check above\n"

/-- The event at the end of a run without failure. -/
def finishedEvent (s : Summary) : Event := .finished s.checked s.written s.differing.length

/-- The globs to run over. -/
def Options.effectiveGlobs (o : Options) : List String :=
  if o.globs.isEmpty then [defaultGlob] else o.globs

/-- What a run with these options comes to. -/
def runOptions (d : Disk) (o : Options) : Result :=
  let p := run d o.effectiveGlobs (if o.write then .write else .check)
  let log (events : List Event) : String := String.join (events.map (Event.logLine o.detail))
  let output := String.join (p.reports.map reportText)
  match p.failure with
  | some f => ⟨1, output, log p.events ++ failureText f, p.disk⟩
  | none =>
      let errors := log (p.events ++ [finishedEvent p.summary])
      if p.summary.failed then ⟨1, output, errors ++ differingText, p.disk⟩
      else ⟨0, output, errors, p.disk⟩

def invoke (d : Disk) (arguments : List String) : Result :=
  match Request.ofArguments arguments with
  | .error e => ⟨2, "", e.message, d⟩
  | .ok .help => ⟨0, helpText, "", d⟩
  | .ok .version => ⟨0, versionText, "", d⟩
  | .ok (.run o) => runOptions d o

end JsonLayout.Command
