import JsonLayout.Glob.Walk
import JsonLayout.Run.Event
import JsonLayout.Run.Failure

/-! # The files of a glob

Of what a pattern finds, the regular files, in the order of the walk. -/

namespace JsonLayout.Run

/-- The files of a glob, or why they cannot be told, and the events on the way. -/
structure Expansion where
  events : List Event
  files : Except Failure (List Path)

namespace Expansion

/-- Go through what a walk has found; `files` are the files so far. -/
def collect (t : DirectoryTree) (glob : String) (events : List Event) (files : List Path) :
    List Glob.Found → Expansion
  | [] => ⟨events ++ [.expanded glob files.length], .ok files⟩
  | .error e :: _ => ⟨events, .error (.unreadable e.path e.cause)⟩
  | .ok path :: rest =>
      if t.isFile path then collect t glob (events ++ [.matched path]) (files ++ [path]) rest
      else collect t glob (events ++ [.skipped path]) files rest

/-- Expand a glob in a directory tree. -/
def ofGlob (t : DirectoryTree) (glob : String) : Expansion :=
  match Glob.Pattern.compile glob with
  | .error e => ⟨[], .error (.badGlob glob e)⟩
  | .ok pattern => collect t glob [] [] (pattern.find t)

end Expansion

end JsonLayout.Run
