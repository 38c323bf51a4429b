import JsonLayout.Disk.Resolve
import JsonLayout.Glob.Pattern

/-! # Walking a directory tree along a pattern

What a pattern finds comes in the order of a walk that goes into a directory before it turns to the
next name. A directory that cannot be listed is found too, as an error. -/

namespace JsonLayout.Glob

/-- A directory that could not be listed. -/
structure WalkError where
  path : Path
  cause : DiskError
  deriving DecidableEq

abbrev Found := Except WalkError Path

/-- The path itself, unless it is no directory where one is wanted. -/
def keep (onlyDirectories isDirectory : Bool) (p : Path) : List Found :=
  if onlyDirectories && !isDirectory then [] else [.ok p]

/-- An entry, met under its path, is a directory if it is one itself or links to one. -/
def entryIsDirectory (t : DirectoryTree) (p : Path) : Entry → Bool
  | .directory _ => true
  | .file _ => false
  | .link _ => t.isDirectory p

/-- A plain component leads to its path if there is something; a dot name needs the directory. -/
def leadsTo (t : DirectoryTree) (name : String) (isDirectory : Bool) (next : Path) : Bool :=
  if name = "." || name = ".." then isDirectory else t.holds next

/-- What the components find below a path. Each name of a directory is one more chance for `**` to
go on, after what comes next has had its turn. -/
def walk (t : DirectoryTree) (onlyDirectories : Bool) (components : List Component) (p : Path)
    (isDirectory : Bool) : List Found :=
  match components with
  | [] => []
  | .name s :: rest =>
      let next := p.enter s
      if leadsTo t s isDirectory next then
        if rest.isEmpty then keep onlyDirectories (t.isDirectory next) next
        else walk t onlyDirectories rest next (t.isDirectory next)
      else []
  | .wild ts :: rest =>
      if !isDirectory then [] else
      match t.list p with
      | .error e => [.error ⟨p, e⟩]
      | .ok entries =>
          let dots := if (Component.wild ts).startsWithDot then ["..", "."] else []
          (dots.flatMap fun dot =>
            let next := p.push dot
            if !Token.listAccepts ts dot.toList then []
            else if rest.isEmpty then keep onlyDirectories (t.isDirectory next) next
            else walk t onlyDirectories rest next (t.isDirectory next)) ++
          entries.flatMap fun (name, entry) =>
            let next := p.enter name
            let nextIsDirectory := entryIsDirectory t next entry
            if !Token.listAccepts ts name.toList then []
            else if rest.isEmpty then keep onlyDirectories nextIsDirectory next
            else walk t onlyDirectories rest next nextIsDirectory
  | .anyDirectories :: rest =>
      if !isDirectory then [] else
      match h : t.list p with
      | .error e => [.error ⟨p, e⟩]
      | .ok entries =>
          let after := rest.dropWhile Component.isAnyDirectories
          have shorter : after.length ≤ rest.length := (List.dropWhile_sublist _).length_le
          entries.attach.flatMap fun ⟨(name, entry), hmem⟩ =>
            let next := p.enter name
            have deeper := DirectoryTree.weight_enter_of_list h hmem
            let nextIsDirectory := entryIsDirectory t next entry
            (match hafter : after with
              | [] => if nextIsDirectory then [.ok next] else []
              | c :: more =>
                  have fewer : more.length < after.length := by simp [hafter]
                  if !c.accepts name then []
                  else if more.isEmpty then keep onlyDirectories nextIsDirectory next
                  else walk t onlyDirectories more next nextIsDirectory) ++
            if nextIsDirectory then walk t onlyDirectories (.anyDirectories :: after) next true
            else []
termination_by (components.length, DirectoryTree.maxPathBytes + 1 - p.weight)
decreasing_by
  · exact .left _ _ (by simp)
  · exact .left _ _ (by simp)
  · exact .left _ _ (by simp)
  · exact .left _ _ (by simp only [List.length_cons]; omega)
  · rcases Nat.lt_or_eq_of_le shorter with hlt | heq
    · exact .left _ _ (by simpa [after] using hlt)
    · simp only [after] at heq
      simp only [List.length_cons, heq]
      exact .right _ deeper

/-- What a pattern finds, relative to the working directory unless it is absolute. -/
def Pattern.find (pattern : Pattern) (t : DirectoryTree) : List Found :=
  let start : Path := if pattern.absolute then ⟨"", [""]⟩ else ⟨".", []⟩
  walk t pattern.onlyDirectories pattern.components start (t.isDirectory start)

end JsonLayout.Glob
