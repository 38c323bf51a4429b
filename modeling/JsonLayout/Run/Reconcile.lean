import JsonLayout.Diff.Unified
import JsonLayout.Disk.Operations
import JsonLayout.Json.Format
import JsonLayout.Run.Event
import JsonLayout.Run.Failure

/-! # One file and its canonical form -/

namespace JsonLayout.Run

inductive Mode where
  /-- Report files that are not canonical. -/
  | check
  /-- Bring files that are not canonical into canonical form. -/
  | write
  deriving DecidableEq, Inhabited

inductive Outcome where
  | unchanged
  | written
  | differs (diff : String)
  deriving DecidableEq

/-- What has been made of a file. -/
structure Reconciled where
  disk : Disk
  events : List Event
  result : Except Failure Outcome

def reconcile (d : Disk) (path : Path) (mode : Mode) : Reconciled :=
  match d.read path with
  | .error e => ⟨d, [], .error (.unreadable path e)⟩
  | .ok content =>
      match Json.formatBytes content with
      | .error e => ⟨d, [], .error (.badJson path e)⟩
      | .ok formatted =>
          if content.data = formatted.toByteArray.data then ⟨d, [.unchanged path], .ok .unchanged⟩
          else match mode with
            | .write =>
                match d.overwrite path formatted.toByteArray with
                | (changed, none) => ⟨changed, [.written path], .ok .written⟩
                | (changed, some e) => ⟨changed, [], .error (.unwritable path e)⟩
            | .check =>
                let text := (String.fromUTF8? content).getD ""
                ⟨d, [.differs path], .ok (.differs (Diff.unified text formatted))⟩

end JsonLayout.Run
