import JsonLayout.Glob.Walk
import JsonLayout.Proofs.Disk.Leading
import JsonLayout.Proofs.Glob.Parts

/-!
# What a walk finds

A walk along names only, through directories that can all be listed and no links, meets no error,
and whatever it finds lies below where it started.
-/

namespace JsonLayout.Glob

open DirectoryTree (isName)
open JsonLayout.Path (ofNames)

variable {t : DirectoryTree} {f : Found} {c : Component} {components rest : List Component}
  {done names : List String} {name : String}

/-- What the components left find at a path that the ones before have led to. -/
def visit (t : DirectoryTree) (onlyDirectories : Bool) (components : List Component) (p : Path)
    (isDirectory : Bool) : List Found :=
  if components.isEmpty then keep onlyDirectories isDirectory p
  else walk t onlyDirectories components p isDirectory

/-! One step of a walk. -/

theorem walk_name (s : String) (onlyDirectories isDirectory : Bool) (p : Path) :
    walk t onlyDirectories (.name s :: rest) p isDirectory =
      if leadsTo t s isDirectory (p.enter s) then
        visit t onlyDirectories rest (p.enter s) (t.isDirectory (p.enter s))
      else [] := by
  rw [walk]
  rfl

theorem walk_wild {ts : List Token} (hts : (Component.wild ts).startsWithDot = false)
    (onlyDirectories : Bool) {p : Path} {entries : List (String × Entry)}
    (h : t.list p = .ok entries) :
    walk t onlyDirectories (.wild ts :: rest) p true = entries.flatMap fun x =>
      if Token.listAccepts ts x.1.toList then
        visit t onlyDirectories rest (p.enter x.1) (entryIsDirectory t (p.enter x.1) x.2)
      else [] := by
  rw [walk]
  simp only [h, hts, Bool.not_true, Bool.false_eq_true, if_false, List.flatMap_nil, List.nil_append]
  refine congrArg (List.flatMap · entries) (funext fun x => ?_)
  cases Token.listAccepts ts x.1.toList <;> rfl

/-- What `**` and the components after it find under the path of an entry. -/
def visitDirectories (t : DirectoryTree) (onlyDirectories : Bool) (after : List Component)
    (name : String) (next : Path) (isDirectory : Bool) : List Found :=
  (match after with
    | [] => if isDirectory then [.ok next] else []
    | c :: more =>
        if c.accepts name then visit t onlyDirectories more next isDirectory else []) ++
  if isDirectory then walk t onlyDirectories (.anyDirectories :: after) next true else []

theorem walk_anyDirectories (onlyDirectories : Bool) {p : Path} {entries : List (String × Entry)}
    (h : t.list p = .ok entries) :
    walk t onlyDirectories (.anyDirectories :: rest) p true =
      entries.flatMap fun x =>
        visitDirectories t onlyDirectories (rest.dropWhile Component.isAnyDirectories) x.1
          (p.enter x.1) (entryIsDirectory t (p.enter x.1) x.2) := by
  rw [walk]
  simp only [Bool.not_true, Bool.false_eq_true, if_false]
  split
  · rename_i e herror
    cases h.symm.trans herror
  · rename_i listed hlisted
    obtain rfl := Except.ok.inj (hlisted.symm.trans h)
    conv_rhs => rw [← List.attach_map_subtype_val listed, List.flatMap_map]
    refine congrArg (List.flatMap · listed.attach) (funext fun x => ?_)
    unfold visitDirectories
    congr 1
    split
    · rename_i hafter _
      simp only [hafter]
    · rename_i c more _ _ hafter _
      simp only [hafter]
      cases c.accepts x.1.1 <;> rfl

theorem mem_visit_nil {p : Path} {isDirectory : Bool} :
    f ∈ visit t false [] p isDirectory ↔ f = .ok p := by
  simp [visit, keep]

theorem mem_visitDirectories_iff {onlyDirectories isDirectory : Bool} {next : Path} :
    f ∈ visitDirectories t onlyDirectories components name next isDirectory ↔
      (components = [] ∧ isDirectory = true ∧ f = .ok next) ∨
      (∃ c rest, components = c :: rest ∧ c.accepts name = true ∧
        f ∈ visit t onlyDirectories rest next isDirectory) ∨
      (isDirectory = true ∧
        f ∈ visit t onlyDirectories (.anyDirectories :: components) next isDirectory) := by
  cases components <;> cases isDirectory <;> simp [visitDirectories, visit]

/-! Below the working directory. -/

theorem walk_of_not_isDirectory (hname : ∀ s, c ≠ .name s)
    (onlyDirectories : Bool) (p : Path) :
    walk t onlyDirectories (c :: rest) p false = [] := by
  cases c with
  | name s => exact absurd rfl (hname s)
  | wild ts | anyDirectories => rw [walk]; rfl

theorem entryIsDirectory_eq (ht : t.Listable) {e : Entry} (h : t.Leads names e) :
    entryIsDirectory t (ofNames names) e = t.isDirectory (ofNames names) := by
  have hdirectory := ht.isDirectory_iff h.isName
  cases e with
  | directory permissions => exact (hdirectory.mpr ⟨permissions, h⟩).symm
  | file number =>
    refine (Bool.eq_false_iff.mpr fun htrue => ?_).symm
    obtain ⟨permissions, hleads⟩ := hdirectory.mp htrue
    cases hleads.entry_eq.symm.trans h.entry_eq
  | link target => exact absurd h (ht.linkFree names target)

theorem leadsTo_eq_holds {s : String} (hs : isName s = true) (isDirectory : Bool) (next : Path) :
    leadsTo t s isDirectory next = t.holds next := by
  have hdot : s ≠ "." := (DirectoryTree.ne_empty_and_ne_dot_of_isName hs).2
  simp [leadsTo, hdot, DirectoryTree.ne_dots_of_isName hs]

section Step

variable (ht : t.Listable) (hdone : ∀ name ∈ done, isName name = true)

include ht hdone

/-- What a component other than `**` finds is found under one name. -/
theorem exists_name_of_mem_walk (hc : c.NamesOnly) (hdeep : c ≠ .anyDirectories)
    (h : f ∈ walk t false (c :: rest) (ofNames done) (t.isDirectory (ofNames done))) :
    ∃ name e, t.Leads (done ++ [name]) e ∧
      f ∈ visit t false rest (ofNames (done ++ [name])) (t.isDirectory (ofNames (done ++ [name]))) := by
  cases c with
  | anyDirectories => contradiction
  | name s =>
    rw [walk_name, leadsTo_eq_holds hc, ← Path.ofNames_concat] at h
    split_ifs at h with hholds
    · have hnames : ∀ n ∈ done ++ [s], isName n = true := by
        simpa [or_imp, forall_and] using ⟨hdone, hc⟩
      obtain ⟨⟨e, hleads⟩, -⟩ := (DirectoryTree.holds_ofNames_iff ht.linkFree hnames).mp hholds
      exact ⟨s, e, hleads, h⟩
    · contradiction
  | wild ts =>
    cases hdirectory : t.isDirectory (ofNames done) with
    | false =>
      rw [hdirectory, walk_of_not_isDirectory (by simp)] at h
      contradiction
    | true =>
      obtain ⟨entries, hlist⟩ := ht.exists_list hdone hdirectory
      rw [hdirectory, walk_wild hc false hlist] at h
      obtain ⟨⟨name, e⟩, hmem, h⟩ := List.mem_flatMap.mp h
      have hleads := (DirectoryTree.mem_list_iff ht.linkFree hdone hlist).mp hmem
      split_ifs at h
      · rw [← Path.ofNames_concat, entryIsDirectory_eq ht hleads] at h
        exact ⟨name, e, hleads, h⟩
      · contradiction

theorem mem_walk_anyDirectories_iff :
    f ∈ walk t false (.anyDirectories :: rest) (ofNames done) (t.isDirectory (ofNames done)) ↔
      ∃ name e, t.Leads (done ++ [name]) e ∧
        f ∈ visitDirectories t false (rest.dropWhile Component.isAnyDirectories) name
          (ofNames (done ++ [name])) (t.isDirectory (ofNames (done ++ [name]))) := by
  cases hdirectory : t.isDirectory (ofNames done) with
  | false =>
    rw [walk_of_not_isDirectory (by simp)]
    simp only [List.not_mem_nil, false_iff]
    rintro ⟨name, e, hleads, -⟩
    have htrue := (ht.isDirectory_iff hdone).mpr (hleads.exists_directory (by simp))
    simp [hdirectory] at htrue
  | true =>
    obtain ⟨entries, hlist⟩ := ht.exists_list hdone hdirectory
    rw [walk_anyDirectories false hlist, List.mem_flatMap]
    constructor
    · rintro ⟨⟨name, e⟩, hmem, h⟩
      have hleads := (DirectoryTree.mem_list_iff ht.linkFree hdone hlist).mp hmem
      rw [← Path.ofNames_concat, entryIsDirectory_eq ht hleads] at h
      exact ⟨name, e, hleads, h⟩
    · rintro ⟨name, e, hleads, h⟩
      rw [← entryIsDirectory_eq ht hleads, Path.ofNames_concat] at h
      exact ⟨(name, e), (DirectoryTree.mem_list_iff ht.linkFree hdone hlist).mpr hleads, h⟩

end Step

/-- A bound on the steps that are left for these components below these names. -/
def stepsLeft (components : List Component) (done : List String) : Nat :=
  components.length + (DirectoryTree.maxPathBytes + 1 - (ofNames done).weight)

theorem weight_lt_concat (names : List String) (hname : isName name = true) :
    (ofNames names).weight < (ofNames (names ++ [name])).weight := by
  obtain ⟨hempty, hdot⟩ := DirectoryTree.ne_empty_and_ne_dot_of_isName hname
  rw [Path.ofNames_concat]
  exact (ofNames names).weight_lt_enter hempty hdot

theorem weight_le_of_isDirectory {p : Path} (h : t.isDirectory p = true) :
    p.weight ≤ DirectoryTree.maxPathBytes := by
  obtain ⟨loc, permissions, hlocate⟩ := DirectoryTree.isDirectory_iff.mp h
  exact p.weight_le_byteLength.trans (DirectoryTree.byteLength_le_of_locate hlocate)

theorem stepsLeft_lt_of_length (hname : isName name = true)
    (hlength : rest.length < components.length) :
    stepsLeft rest (done ++ [name]) < stepsLeft components done := by
  have hweight := weight_lt_concat done hname
  unfold stepsLeft
  omega

/-- A step along `**` may leave as many components, but it makes the path longer. -/
theorem stepsLeft_lt_of_isDirectory (hname : isName name = true)
    (hlength : rest.length ≤ components.length)
    (hdirectory : t.isDirectory (ofNames (done ++ [name])) = true) :
    stepsLeft rest (done ++ [name]) < stepsLeft components done := by
  have hweight := weight_lt_concat done hname
  have hbound := weight_le_of_isDirectory hdirectory
  unfold stepsLeft
  omega

section Named

variable (ht : t.Listable) (hcomponents : ∀ c ∈ components, c.NamesOnly)
  (hdone : ∀ name ∈ done, isName name = true)

include ht hcomponents hdone

theorem exists_step_of_mem_walk
    (h : f ∈ walk t false components (ofNames done) (t.isDirectory (ofNames done))) :
    ∃ name left, (∀ n ∈ done ++ [name], isName n = true) ∧ (∀ c ∈ left, c.NamesOnly) ∧
      stepsLeft left (done ++ [name]) < stepsLeft components done ∧
      f ∈ visit t false left (ofNames (done ++ [name])) (t.isDirectory (ofNames (done ++ [name]))) := by
  cases components with
  | nil =>
    rw [walk] at h
    contradiction
  | cons c rest =>
    obtain ⟨hc, hrest⟩ := List.forall_mem_cons.mp hcomponents
    by_cases hdeep : c = .anyDirectories
    · subst hdeep
      obtain ⟨name, e, hleads, h⟩ := (mem_walk_anyDirectories_iff ht hdone).mp h
      have hname := hleads.isName name (by simp)
      have hafter := List.dropWhile_sublist Component.isAnyDirectories (l := rest)
      generalize rest.dropWhile Component.isAnyDirectories = after at h hafter
      have hlength := hafter.length_le
      have hnamesOnly : ∀ c ∈ after, c.NamesOnly := fun c hc => hrest c (hafter.subset hc)
      rcases mem_visitDirectories_iff.mp h with
        ⟨rfl, -, rfl⟩ | ⟨c, more, rfl, -, h⟩ | ⟨hdirectory, h⟩
      · exact ⟨name, [], hleads.isName, hnamesOnly, stepsLeft_lt_of_length hname (by simp),
          mem_visit_nil.mpr rfl⟩
      · have hfewer : more.length < (Component.anyDirectories :: rest).length := by
          simp only [List.length_cons] at hlength ⊢
          omega
        exact ⟨name, more, hleads.isName, (List.forall_mem_cons.mp hnamesOnly).2,
          stepsLeft_lt_of_length hname hfewer, h⟩
      · exact ⟨name, _, hleads.isName, List.forall_mem_cons.mpr ⟨hc, hnamesOnly⟩,
          stepsLeft_lt_of_isDirectory hname (Nat.succ_le_succ hlength) hdirectory, h⟩
    · obtain ⟨name, e, hleads, h⟩ := exists_name_of_mem_walk ht hdone hc hdeep h
      exact ⟨name, rest, hleads.isName, hrest,
        stepsLeft_lt_of_length (hleads.isName name (by simp)) (by simp), h⟩

/-- A walk meets no error, and all that it finds is named from where it started. -/
theorem exists_names_of_mem_walk
    (h : f ∈ walk t false components (ofNames done) (t.isDirectory (ofNames done))) :
    ∃ names, f = .ok (ofNames (done ++ names)) ∧ (∀ name ∈ names, isName name = true) ∧
      names ≠ [] := by
  induction hsteps : stepsLeft components done using Nat.strong_induction_on
    generalizing components done with
  | _ steps ih =>
    obtain ⟨name, left, hnext, hleft, hlt, h⟩ := exists_step_of_mem_walk ht hcomponents hdone h
    have hname : isName name = true := hnext name (by simp)
    cases left with
    | nil => exact ⟨[name], mem_visit_nil.mp h, by simpa using hname, by simp⟩
    | cons c rest =>
      obtain ⟨names, hf, hnames, -⟩ := ih _ (hsteps ▸ hlt) hleft hnext h rfl
      exact ⟨name :: names, by simpa using hf, List.forall_mem_cons.mpr ⟨hname, hnames⟩, by simp⟩

theorem exists_names_of_mem_visit
    (h : f ∈ visit t false components (ofNames done) (t.isDirectory (ofNames done))) :
    ∃ names, f = .ok (ofNames (done ++ names)) ∧ ∀ name ∈ names, isName name = true := by
  cases components with
  | nil => exact ⟨[], by simpa using mem_visit_nil.mp h, List.forall_mem_nil _⟩
  | cons c rest =>
    obtain ⟨names, hf, hnames, -⟩ := exists_names_of_mem_walk ht hcomponents hdone h
    exact ⟨names, hf, hnames⟩

end Named

/-! On the way to a file. -/

theorem isDirectory_of_isFile {p : Path} (h : t.isFile p = true) : t.isDirectory p = false := by
  obtain ⟨loc, number, hlocate⟩ := DirectoryTree.isFile_iff.mp h
  simp [DirectoryTree.isDirectory, hlocate]

/-- On the way to a file, every path holds something. -/
theorem holds_of_isFile (ht : t.Listable)
    (hnames : ∀ n ∈ done ++ name :: names, isName n = true)
    (hfile : t.isFile (ofNames (done ++ name :: names)) = true) :
    t.holds (ofNames (done ++ [name])) = true := by
  obtain ⟨⟨number, hleads⟩, husable⟩ :=
    (DirectoryTree.isFile_ofNames_iff ht.linkFree hnames).mp hfile
  rw [List.append_cons] at hleads hnames
  have hfront : ∀ n ∈ done ++ [name], isName n = true := (List.forall_mem_append.mp hnames).1
  refine (DirectoryTree.holds_ofNames_iff ht.linkFree hfront).mpr ⟨hleads.exists_leads, ?_⟩
  by_cases hlast : names = []
  · rwa [hlast] at husable
  · have hdirectory := (ht.isDirectory_iff hfront).mpr (hleads.exists_directory hlast)
    exact ((DirectoryTree.isDirectory_ofNames_iff ht.linkFree hfront).mp hdirectory).2

/-! What a pattern finds. -/

section Pattern

variable {text : String} {pattern : Pattern} (hpattern : Pattern.compile text = .ok pattern)
  (hparts : ∀ part ∈ text.toList.splitOn '/', Ordinary part)

include hpattern hparts

theorem exists_components_of_ordinary :
    ∃ components, pattern = ⟨false, components, false⟩ ∧ components ≠ [] ∧
      (∀ c ∈ components, c.NamesOnly) ∧
      List.Forall₂ CompilesTo (text.toList.splitOn '/') components := by
  have hempty : [] ∉ text.toList.splitOn '/' := fun hmem => (hparts [] hmem).ne_nil rfl
  obtain ⟨components, hcomponents, hcompiles⟩ :=
    Pattern.exists_components_of_compile hpattern hempty
  refine ⟨components, hcomponents, ?_, namesOnly_of_compilesTo hcompiles hparts, hcompiles⟩
  rintro rfl
  exact List.splitOn_ne_nil '/' text.toList (List.forall₂_nil_right_iff.mp hcompiles)

theorem exists_names_of_mem_find (ht : t.Listable) (h : f ∈ pattern.find t) :
    ∃ names, f = .ok (ofNames names) ∧ (∀ name ∈ names, isName name = true) ∧ names ≠ [] := by
  obtain ⟨components, rfl, hne, hnamesOnly, -⟩ := exists_components_of_ordinary hpattern hparts
  have hnil : ∀ name ∈ [], isName name = true := List.forall_mem_nil _
  exact exists_names_of_mem_walk ht hnamesOnly hnil h

end Pattern

end JsonLayout.Glob
