import JsonLayout.Run.Expansion
import JsonLayout.Run.Reconcile

/-! # Runs over globs

A run takes the globs in order and, for each, its files in order, and goes no further after the
first failure. -/

namespace JsonLayout.Run

structure Summary where
  checked : Nat := 0
  written : Nat := 0
  /-- Files found not canonical in check mode. -/
  differing : List Path := []
  deriving DecidableEq, Inhabited

def Summary.failed (s : Summary) : Bool := !s.differing.isEmpty

def Summary.record (s : Summary) (path : Path) : Outcome → Summary
  | .unchanged => { s with checked := s.checked + 1 }
  | .written => { s with checked := s.checked + 1, written := s.written + 1 }
  | .differs _ => { s with checked := s.checked + 1, differing := s.differing ++ [path] }

/-- How far a run has come. -/
structure Progress where
  disk : Disk
  summary : Summary := {}
  /-- Files reported as not canonical, each with its diff. -/
  reports : List (Path × String) := []
  events : List Event := []
  failure : Option Failure := none

namespace Progress

def visit (mode : Mode) (p : Progress) (path : Path) : Progress :=
  if p.failure.isSome then p else
  let r := reconcile p.disk path mode
  match r.result with
  | .error e => { p with disk := r.disk, events := p.events ++ r.events, failure := some e }
  | .ok outcome =>
      { p with
        disk := r.disk
        summary := p.summary.record path outcome
        reports := match outcome with
          | .differs diff => p.reports ++ [(path, diff)]
          | _ => p.reports
        events := p.events ++ r.events }

def expand (mode : Mode) (p : Progress) (glob : String) : Progress :=
  if p.failure.isSome then p else
  let m := Expansion.ofGlob p.disk glob
  match m.files with
  | .error e => { p with events := p.events ++ m.events, failure := some e }
  | .ok files => files.foldl (visit mode) { p with events := p.events ++ m.events }

end Progress

/-- The globs used when none are given. -/
def defaultGlob : String := "**/*.json"

def run (d : Disk) (globs : List String) (mode : Mode) : Progress :=
  globs.foldl (Progress.expand mode) { disk := d }

end JsonLayout.Run
