import JsonLayout.Disk.Basic

/-! # From paths to locations

A path is followed segment by segment from the root or the working directory. Every segment but
the last must lead to a directory, so also one before a slash at the end; links are followed, the
last one only on request. -/

namespace JsonLayout

/-- Where a path leads. -/
inductive Spot where
  | existing (loc : Location)
  /-- Nothing is there, but its directory exists. -/
  | vacant (loc : Location)
  deriving DecidableEq

namespace DirectoryTree

/-- Longest path, in bytes, that is followed. -/
def maxPathBytes : Nat := 4095

/-- Longest name, in bytes. -/
def maxNameBytes : Nat := 255

/-- How many links are followed on one path. -/
def maxLinks : Nat := 40

/-- Follow the segments from a location, and at most `links` links. -/
def follow (t : DirectoryTree) (lastLink : Bool) (links : Nat) (loc : Location)
    (segments : List String) : Except DiskError Spot :=
  match segments with
  | [] => .ok (.existing loc)
  | s :: rest =>
      match t.entry? loc with
      | some (.directory _) =>
          if s = "" || s = "." then t.follow lastLink links loc rest
          else if s = ".." then t.follow lastLink links loc.tail rest
          else if maxNameBytes < s.utf8ByteSize then .error .nameTooLong
          else match t.entry? (s :: loc) with
            | none => if rest.isEmpty then .ok (.vacant (s :: loc)) else .error .notFound
            | some (.link target) =>
                if rest.isEmpty && !lastLink then .ok (.existing (s :: loc))
                else match links with
                  | 0 => .error .tooManyLinks
                  | links + 1 =>
                      t.follow lastLink links (if target.isAbsolute then [] else loc)
                        (target.segments ++ rest)
            | some _ => t.follow lastLink links (s :: loc) rest
      | _ => .error .notDirectory
termination_by (links, segments.length)

/-- Where a path leads; `lastLink` says whether a link at its end is followed. -/
def resolve (t : DirectoryTree) (lastLink : Bool) (p : Path) : Except DiskError Spot :=
  if p.segments.any (·.toList.contains '\x00') then .error .nulInPath
  else if p.byteLength = 0 then .error .notFound
  else if maxPathBytes < p.byteLength then .error .nameTooLong
  else t.follow lastLink maxLinks (if p.isAbsolute then [] else t.here) p.segments

/-- What there is at a path. -/
def locate (t : DirectoryTree) (lastLink : Bool) (p : Path) : Except DiskError (Location × Entry) :=
  match t.resolve lastLink p with
  | .error e => .error e
  | .ok (.vacant _) => .error .notFound
  | .ok (.existing loc) =>
      match t.entry? loc with
      | some e => .ok (loc, e)
      | none => .error .notFound

/-- There is something at a path, be it a link that leads nowhere. -/
def holds (t : DirectoryTree) (p : Path) : Bool := (t.locate false p).isOk

def isDirectory (t : DirectoryTree) (p : Path) : Bool :=
  match t.locate true p with
  | .ok (_, .directory _) => true
  | _ => false

def isFile (t : DirectoryTree) (p : Path) : Bool :=
  match t.locate true p with
  | .ok (_, .file ..) => true
  | _ => false

/-- Names and entries of a directory, ascending. -/
def list (t : DirectoryTree) (p : Path) : Except DiskError (List (String × Entry)) :=
  match t.locate true p with
  | .error e => .error e
  | .ok (loc, .directory _) =>
      match t.listRefusal loc with
      | some e => .error e
      | none => .ok ((t.namesIn loc).filterMap fun name => (t.entry? (name :: loc)).map (name, ·))
  | .ok _ => .error .notDirectory

theorem byteLength_le_of_locate {t : DirectoryTree} {lastLink : Bool} {p : Path}
    {found : Location × Entry} (h : t.locate lastLink p = .ok found) :
    p.byteLength ≤ maxPathBytes := by
  unfold locate resolve at h
  by_cases hlong : maxPathBytes < p.byteLength
  · simp only [hlong, if_true] at h
    split at h
    · simp at h
    · rename_i heq
      split at heq
      · simp at heq
      · split at heq <;> simp at heq
    · rename_i heq
      split at heq
      · simp at heq
      · split at heq <;> simp at heq
  · omega

/-- What is listed are the names in a directory, each with its entry. -/
theorem exists_locate_of_list {t : DirectoryTree} {p : Path} {found : List (String × Entry)}
    (h : t.list p = .ok found) :
    ∃ loc permissions, t.locate true p = .ok (loc, .directory permissions) ∧
      found = (t.namesIn loc).filterMap fun name => (t.entry? (name :: loc)).map (name, ·) := by
  unfold list at h
  split at h
  · simp at h
  · rename_i loc permissions hlocate
    split at h
    · simp at h
    · exact ⟨loc, permissions, hlocate, (Except.ok.inj h).symm⟩
  · simp at h

theorem byteLength_le_of_list {t : DirectoryTree} {p : Path} {found : List (String × Entry)}
    (h : t.list p = .ok found) : p.byteLength ≤ maxPathBytes := by
  obtain ⟨loc, permissions, hlocate, -⟩ := exists_locate_of_list h
  exact byteLength_le_of_locate hlocate

theorem isName_of_mem_list {t : DirectoryTree} {p : Path} {found : List (String × Entry)}
    (h : t.list p = .ok found) {x : String × Entry} (hx : x ∈ found) : isName x.1 = true := by
  obtain ⟨loc, permissions, -, rfl⟩ := exists_locate_of_list h
  obtain ⟨name, hname, hget⟩ := List.mem_filterMap.1 hx
  obtain ⟨e, -, rfl⟩ := Option.map_eq_some_iff.1 hget
  exact isName_of_mem_namesIn hname

/-- Below a directory that can be listed, paths get longer but stay within the limit. -/
theorem weight_enter_of_list {t : DirectoryTree} {p : Path} {found : List (String × Entry)}
    (h : t.list p = .ok found) {x : String × Entry} (hx : x ∈ found) :
    maxPathBytes + 1 - (p.enter x.1).weight < maxPathBytes + 1 - p.weight := by
  have hname := ne_empty_and_ne_dot_of_isName (isName_of_mem_list h hx)
  have := p.weight_lt_enter hname.1 hname.2
  have := p.weight_le_byteLength
  have := byteLength_le_of_list h
  omega

end DirectoryTree

end JsonLayout
