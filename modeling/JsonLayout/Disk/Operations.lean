import JsonLayout.Disk.Resolve

/-! # Reading and changing a disk -/

namespace JsonLayout.Disk

def filePermissions : Nat := 0o644

def directoryPermissions : Nat := 0o755

def read (d : Disk) (p : Path) : Except DiskError ByteArray :=
  match d.locate true p with
  | .error e => .error e
  | .ok (_, .file number) =>
      match (d.refusals number).read with
      | some e => .error e
      | none => .ok (d.files number).content
  | .ok _ => .error .isDirectory

def permissions (d : Disk) (p : Path) : Except DiskError Nat :=
  match d.locate true p with
  | .error e => .error e
  | .ok (_, .file number) => .ok (d.files number).permissions
  | .ok (_, .directory permissions) => .ok permissions
  | .ok (_, .link _) => .error .notFound

/-- Fill a file from its start, as far as the size limit allows. -/
def fill (d : Disk) (number : Nat) (content : ByteArray) : Disk × Option DiskError :=
  let permissions := d.keptPermissions (d.files number).permissions
  match d.sizeLimit with
  | none => (d.setFile number ⟨permissions, content⟩, none)
  | some limit =>
      if content.size ≤ limit then (d.setFile number ⟨permissions, content⟩, none)
      else (d.setFile number ⟨permissions, content.extract 0 limit⟩, some .fileTooLarge)

/-- Replace what a file holds, or create it. A write that is refused leaves the file alone, but one
that fails later may have emptied it, so there is a new disk in any case. -/
def write (d : Disk) (p : Path) (content : ByteArray) : Disk × Option DiskError :=
  match d.resolve true p with
  | .error e => (d, some e)
  | .ok (.vacant loc) => (d.putFile loc ⟨filePermissions, .empty⟩).fill d.freeNumber content
  | .ok (.existing loc) =>
      match d.entry? loc with
      | some (.file number) =>
          match (d.refusals number).write with
          | some e => (d, some e)
          | none => d.fill number content
      | some (.directory _) => (d, some .isDirectory)
      | _ => (d, some .notFound)

/-- Create a directory, unless there is one. -/
def makeDirectory (d : Disk) (p : Path) : Except DiskError Disk :=
  match d.resolve true p with
  | .error e => .error e
  | .ok (.vacant loc) => .ok (d.put loc (.directory directoryPermissions))
  | .ok (.existing loc) =>
      match d.entry? loc with
      | some (.directory _) => .ok d
      | _ => .error .alreadyExists

/-- Create the directories at `before`, nearest first, and then the one below them. -/
def makeDirectoriesAt (d : Disk) (last : String) : List String → Except DiskError Disk
  | [] => if last = "" then .ok d else d.makeDirectory ⟨last, []⟩
  | s :: before => do (← d.makeDirectoriesAt s before).makeDirectory ⟨last, s :: before⟩

/-- Create a directory and all that lead to it. -/
def makeDirectories (d : Disk) (p : Path) : Except DiskError Disk :=
  d.makeDirectoriesAt p.last p.before

def makeLink (d : Disk) (p target : Path) : Except DiskError Disk :=
  match d.resolve false p with
  | .error e => .error e
  | .ok (.vacant loc) => .ok (d.put loc (.link target))
  | .ok (.existing _) => .error .alreadyExists

/-- Remove a file or a link. -/
def remove (d : Disk) (p : Path) : Except DiskError Disk :=
  match d.locate false p with
  | .error e => .error e
  | .ok (_, .directory _) => .error .isDirectory
  | .ok (loc, _) => .ok { d with toDirectoryTree := d.erase loc }

def setPermissions (d : Disk) (p : Path) (permissions : Nat) : Except DiskError Disk :=
  match d.locate true p with
  | .error e => .error e
  | .ok (_, .file number) =>
      match (d.refusals number).setPermissions with
      | some e => .error e
      | none => .ok (d.setFile number { d.files number with permissions })
  | .ok (loc, .directory _) => .ok (d.put loc (.directory permissions))
  | .ok (_, .link _) => .error .notFound

/-- Replace what a file holds, and give it back the permissions that writing has taken from it. -/
def overwrite (d : Disk) (p : Path) (content : ByteArray) : Disk × Option DiskError :=
  match d.permissions p with
  | .error e => (d, some e)
  | .ok permissions =>
      match d.write p content with
      | (written, some e) => (written, some e)
      | (written, none) =>
          match written.setPermissions p permissions with
          | .error e => (written, some e)
          | .ok restored => (restored, none)

/-- Make a directory the working directory. -/
def changeTo (d : Disk) (p : Path) : Except DiskError Disk :=
  match d.locate true p with
  | .error e => .error e
  | .ok (loc, .directory _) => .ok { d with here := loc }
  | .ok _ => .error .notDirectory

end JsonLayout.Disk
