import JsonLayout.Disk.Path

/-! # Disks

A directory tree is a finite list of entries, each at a location; what is at a location is the first
entry listed for it. A disk is a directory tree with files. The entry of a file only says which file
it is, so that a file can have several entries, its hard links.

Permissions are kept, read and set, but are not what decides whether something is allowed: that
depends on who asks, and a privileged process may do everything. A disk says for itself what it
refuses: to list a directory, or to read or write a file or set its permissions. Every directory can
be entered, so that paths lead where they lead for everyone. -/

namespace JsonLayout

/-- Directory names from the innermost out, with the entry's own name first; the root is `[]`. -/
abbrev Location := List String

inductive Entry where
  | file (number : Nat)
  | directory (permissions : Nat)
  | link (target : Path)
  deriving DecidableEq

/-- The first number after that of a file. -/
def Entry.numbersEnd : Entry → Nat
  | .file number => number + 1
  | .directory _ | .link _ => 0

structure File where
  permissions : Nat
  content : ByteArray
  deriving BEq

/-- Why a disk refuses. -/
inductive DiskError where
  | notFound
  | notDirectory
  | isDirectory
  | fileTooLarge
  | nameTooLong
  | tooManyLinks
  | nulInPath
  | alreadyExists
  /-- Any other error of the system, such as a permission that is missing. -/
  | refused (code : Nat) (reason : String)
  deriving DecidableEq

def DiskError.message : DiskError → String
  | .notFound => "No such file or directory (os error 2)"
  | .alreadyExists => "File exists (os error 17)"
  | .notDirectory => "Not a directory (os error 20)"
  | .isDirectory => "Is a directory (os error 21)"
  | .fileTooLarge => "File too large (os error 27)"
  | .nameTooLong => "File name too long (os error 36)"
  | .tooManyLinks => "Too many levels of symbolic links (os error 40)"
  | .nulInPath => "file name contained an unexpected NUL byte"
  | .refused code reason => reason ++ " (os error " ++ toString code ++ ")"

structure DirectoryTree where
  entries : List (Location × Entry)
  /-- The working directory. -/
  here : Location
  /-- Why a directory cannot be listed, if that is refused. -/
  listRefusal : Location → Option DiskError := fun _ => none

/-- Why a file cannot be dealt with, if that is refused. -/
structure FileRefusals where
  read : Option DiskError := none
  write : Option DiskError := none
  setPermissions : Option DiskError := none

structure Disk extends DirectoryTree where
  /-- The files by their numbers. -/
  files : Nat → File
  /-- Files cannot be written beyond this many bytes. -/
  sizeLimit : Option Nat := none
  refusals : Nat → FileRefusals := fun _ => {}
  /-- What writing to a file leaves of its permissions. Some bits may be lost, unless the process is
  privileged. -/
  keptPermissions : Nat → Nat := id

instance : Coe Disk DirectoryTree := ⟨Disk.toDirectoryTree⟩

namespace DirectoryTree

def entry? (t : DirectoryTree) (loc : Location) : Option Entry := t.entries.lookup loc

def put (t : DirectoryTree) (loc : Location) (e : Entry) : DirectoryTree :=
  { t with entries := (loc, e) :: t.entries.filter (·.1 ≠ loc) }

def erase (t : DirectoryTree) (loc : Location) : DirectoryTree :=
  { t with entries := t.entries.filter (·.1 ≠ loc) }

/-- A name that an entry can have in its directory. -/
def isName (s : String) : Bool := s ≠ "" && s ≠ "." && s ≠ ".." && !s.toList.contains '/'

theorem ne_empty_and_ne_dot_of_isName {s : String} (h : isName s = true) : s ≠ "" ∧ s ≠ "." := by
  simp only [isName, Bool.and_eq_true, decide_eq_true_eq] at h
  exact ⟨h.1.1.1, h.1.1.2⟩

/-- Insert into an ascending list of names. Names compare as their bytes do, which for UTF-8 is how
their code points compare. -/
def insertName (name : String) : List String → List String
  | [] => [name]
  | n :: ns =>
      if name < n then name :: n :: ns
      else if name = n then n :: ns
      else n :: insertName name ns

/-- The name, if the location is an entry of the directory. -/
def nameIn? (dir : Location) : Location → Option String
  | name :: parent => if parent = dir && isName name then some name else none
  | [] => none

/-- Names of the entries of a directory, ascending. -/
def namesIn (t : DirectoryTree) (dir : Location) : List String :=
  (t.entries.filterMap fun (loc, _) => nameIn? dir loc).foldr insertName []

theorem mem_insertName {x name : String} {ns : List String} (h : x ∈ insertName name ns) :
    x = name ∨ x ∈ ns := by
  induction ns with
  | nil => simpa [insertName] using h
  | cons n ns ih =>
      unfold insertName at h
      split at h
      · simpa using h
      · split at h
        · exact .inr h
        · rcases List.mem_cons.1 h with h | h
          · exact .inr (by simp [h])
          · rcases ih h with h | h
            · exact .inl h
            · exact .inr (by simp [h])

theorem isName_of_mem_namesIn {t : DirectoryTree} {dir : Location} {x : String}
    (h : x ∈ t.namesIn dir) : isName x = true := by
  have key : ∀ ns : List String, (∀ n ∈ ns, isName n = true) →
      ∀ n ∈ ns.foldr insertName [], isName n = true := by
    intro ns
    induction ns with
    | nil => simp
    | cons m ms ih =>
        intro hall n hn
        rcases mem_insertName hn with rfl | hn
        · exact hall _ (by simp)
        · exact ih (fun k hk => hall k (by simp [hk])) n hn
  refine key _ ?_ x h
  intro n hn
  obtain ⟨⟨loc, e⟩, -, hloc⟩ := List.mem_filterMap.1 hn
  cases loc with
  | nil => simp [nameIn?] at hloc
  | cons name parent =>
      simp only [nameIn?] at hloc
      split at hloc
      · rename_i hc
        simp only [Option.some.injEq] at hloc
        subst hloc
        simp only [Bool.and_eq_true] at hc
        exact hc.2
      · simp at hloc

/-- A number after those of all files that have an entry. -/
def freeNumber (t : DirectoryTree) : Nat :=
  t.entries.foldr (fun x free => max x.2.numbersEnd free) 0

end DirectoryTree

namespace Disk

/-- Only a root directory, which is the working directory. -/
def empty : Disk where
  entries := [([], .directory 0o755)]
  here := []
  files := fun _ => ⟨0o644, .empty⟩

def put (d : Disk) (loc : Location) (e : Entry) : Disk :=
  { d with toDirectoryTree := d.toDirectoryTree.put loc e }

def setFile (d : Disk) (number : Nat) (file : File) : Disk :=
  { d with files := fun n => if n = number then file else d.files n }

/-- Put a file that no other entry is a link to. -/
def putFile (d : Disk) (loc : Location) (file : File) : Disk :=
  (d.put loc (.file d.freeNumber)).setFile d.freeNumber file

end Disk

end JsonLayout
