import JsonLayout.Command.Basic

/-! # The program

The part of the real disk that the globs can reach is copied, the command is carried out on the
copy, and the files that it has changed are written back. Errors of the system while copying become
refusals of the copy, which the command meets only if it gets that far. Permissions are not copied:
the system keeps those of a file that is written. -/

namespace JsonLayout.Main

/-- The text of a location's absolute path. -/
def locationText (loc : Location) : String := "/" ++ "/".intercalate loc.reverse

def locationOf (text : String) : Location :=
  let p := Path.ofString text
  (p.last :: p.before).filter (· ≠ "")

/-- Where a path really leads, if anywhere. -/
def realLocation? (text : String) : IO (Option Location) := do
  try
    let real ← IO.FS.realPath text
    return some (locationOf real.toString)
  catch _ => return none

/-- The refusal that an error of the system amounts to. -/
def refusalOf : IO.Error → DiskError
  | .alreadyExists _ code details | .interrupted _ code details | .noFileOrDirectory _ code details
  | .invalidArgument _ code details | .permissionDenied _ code details
  | .resourceExhausted _ code details | .inappropriateType _ code details
  | .noSuchThing _ code details | .otherError code details | .resourceBusy code details
  | .resourceVanished code details | .unsupportedOperation code details
  | .hardwareFault code details | .unsatisfiedConstraints code details
  | .illegalOperation code details | .protocolError code details | .timeExpired code details =>
      .refused code.toNat details
  | e => .refused 5 (toString e)

/-- The names in a directory, or why it cannot be listed. -/
def names (loc : Location) : IO (Except DiskError (List String)) := do
  try
    let real ← IO.FS.realPath (locationText loc)
    return .ok ((← real.readDir).toList.map (·.fileName))
  catch e => return .error (refusalOf e)

def metadata (loc : Location) : IO IO.FS.Metadata := do
  (← IO.FS.realPath (locationText loc)).metadata

/-- Make the directories that lead to a real location known. -/
def withParents (d : Disk) : Location → Disk
  | [] => d
  | _ :: parent =>
      let above := withParents d parent
      if (above.entry? parent).isSome then above
      else above.put parent (.directory Disk.directoryPermissions)

/-- Copy what is at a real location, and below it as deep as asked for, without the content of
files. A link that leads nowhere becomes one that leads to itself, and so does what is neither a
file nor a directory. -/
partial def copy (d : Disk) (loc : Location) (deep : Bool) : IO Disk := do
  let d := withParents d loc
  match (← metadata loc).type with
  | .file => return d.putFile loc ⟨Disk.filePermissions, .empty⟩
  | .symlink | .other => return d.put loc (.link (Path.ofString (locationText loc)))
  | .dir =>
      let mut d := d.put loc (.directory Disk.directoryPermissions)
      unless deep do return d
      match ← names loc with
      | .error e =>
          let before := d.listRefusal
          return { d with listRefusal := fun other => if other = loc then some e else before other }
      | .ok names =>
          for name in names do
            let inner := name :: loc
            match ← realLocation? (locationText inner) with
            | none => d := d.put inner (.link (Path.ofString (locationText inner)))
            | some real =>
                if real = inner then d ← copy d inner true
                else
                  d := d.put inner (.link (Path.ofString (locationText real)))
                  if (d.entry? real).isNone then d ← copy d real true
          return d

/-- Copy what the components can reach below a real location. -/
partial def reach (d : Disk) (loc : Location) : List Glob.Component → IO Disk
  | .name name :: rest => do
      let inner := if name = "" || name = "." then loc
        else if name = ".." then loc.tail
        else name :: loc
      match ← realLocation? (locationText inner) with
      | none => return d
      | some real =>
          let mut d := d
          if real ≠ inner then
            d := (withParents d inner).put inner (.link (Path.ofString (locationText real)))
          if (d.entry? real).isNone then d ← copy d real false
          reach d real rest
  | [] => return d
  | _ => copy d loc true

/-- Whether two locations are links to one file: then a lock on it that is held through one of them
is in the way of a lock through the other, until it is given back. -/
def sameFile (loc other : Location) : IO Bool := do
  let first ← IO.FS.Handle.mk (locationText loc) .read
  let second ← IO.FS.Handle.mk (locationText other) .read
  unless ← first.tryLock do return false
  let apart ← second.tryLock
  first.unlock
  return !apart && (← second.tryLock)

/-- The first of the files that the location is a link to as well. -/
def linked? (loc : Location) : List (Location × Nat) → IO (Option Nat)
  | [] => return none
  | (other, number) :: files => do
      if ← sameFile loc other then return some number else linked? loc files

/-- Give a file of the copy its content, unless it cannot be read. -/
def fetch (d : Disk) (loc : Location) (number : Nat) : IO Disk := do
  let mut d := d
  let mut refusals : FileRefusals := {}
  try
    let content ← IO.FS.readBinFile (locationText loc)
    d := d.setFile number { d.files number with content }
  catch e => refusals := { refusals with read := some (refusalOf e) }
  try discard (IO.FS.Handle.mk (locationText loc) .readWrite)
  catch e => refusals := { refusals with write := some (refusalOf e) }
  let before := d.refusals
  return { d with refusals := fun n => if n = number then refusals else before n }

/-- Give the files at these paths their content. `links` are the files met before that have several
entries, each as what it has been met as first. -/
def fetchAll (d : Disk) (links : List (Location × Nat)) : List Path → IO Disk
  | [] => return d
  | p :: paths => do
      match d.locate true p with
      | .ok (loc, .file number) =>
          let fetched ← fetch d loc number
          if (fetched.refusals number).read.isSome || (← metadata loc).numLinks ≤ 1 then
            fetchAll fetched links paths
          else match ← linked? loc links with
            | some first => fetchAll (d.put loc (.file first)) links paths
            | none => fetchAll fetched ((loc, number) :: links) paths
      | _ => fetchAll d links paths

/-- The part of the real disk that the globs can reach. -/
def snapshot (globs : List String) : IO Disk := do
  let here := locationOf (← IO.FS.realPath ".").toString
  let mut d := { ← copy Disk.empty here false with here }
  for glob in globs do
    if let .ok pattern := Glob.Pattern.compile glob then
      d ← reach d (if pattern.absolute then [] else here) pattern.components
  fetchAll d [] (globs.flatMap fun glob => (Run.Expansion.ofGlob d glob).files.toOption.getD [])

/-- Write back the files whose content has changed. -/
def store (before after : Disk) : IO Unit := do
  for (loc, entry) in after.entries do
    if let .file number := entry then
      let file := after.files number
      if before.entry? loc != some entry || before.files number != file then
        IO.FS.writeBinFile (locationText loc) file.content

end JsonLayout.Main

open JsonLayout in
def main (arguments : List String) : IO UInt32 := do
  let globs := match Command.Request.ofArguments arguments with
    | .ok (.run options) => options.effectiveGlobs
    | _ => []
  let before ← Main.snapshot globs
  let result := Command.invoke before arguments
  Main.store before result.disk
  (← IO.getStdout).putStr result.output
  (← IO.getStderr).putStr result.errors
  return UInt32.ofNat result.status
