import JsonLayout.Proofs.Disk.Order
import JsonLayout.Proofs.Glob.Walking

/-!
# What is found under each name

Where there are no links and every directory can be listed, what components find below a directory
is what they find under the first of its names, then what they find under the second, and so on.
-/

namespace JsonLayout.Glob

open DirectoryTree (isName)
open JsonLayout.Path (ofNames)

variable {t : DirectoryTree} {f : Found} {c : Component} {components rest : List Component}
  {done names : List String} {name : String}

/-- What the components find below the names. -/
def foundBelow (t : DirectoryTree) (components : List Component) (done : List String) :
    List Found :=
  visit t false components (ofNames done) (t.isDirectory (ofNames done))

/-- The names in the directory that these names lead to, ascending. -/
def namesBelow (t : DirectoryTree) (done : List String) : List String :=
  match t.list (ofNames done) with
  | .ok entries => entries.map Prod.fst
  | .error _ => []

theorem namesBelow_eq {entries : List (String × Entry)}
    (h : t.list (ofNames done) = .ok entries) : namesBelow t done = entries.map Prod.fst := by
  rw [namesBelow, h]

theorem namesBelow_of_not_isDirectory (h : t.isDirectory (ofNames done) = false) :
    namesBelow t done = [] := by
  unfold namesBelow
  split
  · rename_i entries hlist
    rw [DirectoryTree.isDirectory_of_list hlist] at h
    contradiction
  · rfl

theorem pairwise_namesBelow (t : DirectoryTree) (done : List String) :
    (namesBelow t done).Pairwise (· < ·) := by
  unfold namesBelow
  split
  · rename_i entries hlist
    exact List.pairwise_map.mpr (DirectoryTree.pairwise_list hlist)
  · exact .nil

theorem mem_namesBelow_iff (ht : t.Listable) (hdone : ∀ name ∈ done, isName name = true) :
    name ∈ namesBelow t done ↔ ∃ e, t.Leads (done ++ [name]) e := by
  cases hdirectory : t.isDirectory (ofNames done) with
  | false =>
    rw [namesBelow_of_not_isDirectory hdirectory]
    simp only [List.not_mem_nil, false_iff]
    rintro ⟨e, hleads⟩
    have htrue := (ht.isDirectory_iff hdone).mpr (hleads.exists_directory (by simp))
    simp [hdirectory] at htrue
  | true =>
    obtain ⟨entries, hlist⟩ := ht.exists_list hdone hdirectory
    simp [namesBelow_eq hlist, DirectoryTree.mem_list_iff ht.linkFree hdone hlist]

theorem isName_of_mem_namesBelow (ht : t.Listable) (hdone : ∀ name ∈ done, isName name = true)
    (h : name ∈ namesBelow t done) : ∀ n ∈ done ++ [name], isName n = true := by
  obtain ⟨e, hleads⟩ := (mem_namesBelow_iff ht hdone).mp h
  exact hleads.isName

theorem find_eq_foundBelow (h : components ≠ []) :
    Pattern.find ⟨false, components, false⟩ t = foundBelow t components [] := by
  rw [foundBelow, visit, if_neg (mt List.isEmpty_iff.mp h)]
  rfl

/-! Name by name. -/

theorem foundBelow_nil (t : DirectoryTree) (done : List String) :
    foundBelow t [] done = [.ok (ofNames done)] := rfl

theorem foundBelow_name {s : String} (hs : isName s = true) (rest : List Component)
    (done : List String) : foundBelow t (.name s :: rest) done =
      if t.holds (ofNames (done ++ [s])) then foundBelow t rest (done ++ [s]) else [] := by
  have hvisit : foundBelow t (.name s :: rest) done = walk t false (.name s :: rest) _ _ := rfl
  rw [hvisit, walk_name, leadsTo_eq_holds hs, ← Path.ofNames_concat]
  rfl

/-- What the components after `**` find where it takes no more directories. -/
def foundAfter (t : DirectoryTree) (after : List Component) (done : List String) (name : String) :
    List Found :=
  match after with
  | [] => if t.isDirectory (ofNames (done ++ [name])) then [.ok (ofNames (done ++ [name]))] else []
  | c :: more => if c.accepts name then foundBelow t more (done ++ [name]) else []

theorem foundAfter_cons (t : DirectoryTree) (c : Component) (rest : List Component)
    (done : List String) (name : String) : foundAfter t (c :: rest) done name =
      if c.accepts name then foundBelow t rest (done ++ [name]) else [] := rfl

theorem visitDirectories_eq (t : DirectoryTree) (after : List Component) (done : List String)
    (name : String) :
    visitDirectories t false after name (ofNames (done ++ [name]))
        (t.isDirectory (ofNames (done ++ [name]))) =
      foundAfter t after done name ++ foundBelow t (.anyDirectories :: after) (done ++ [name]) := by
  unfold visitDirectories foundAfter foundBelow
  congr 1
  rw [visit, List.isEmpty_cons, if_neg Bool.false_ne_true]
  cases hdirectory : t.isDirectory (ofNames (done ++ [name])) with
  | false => rw [walk_of_not_isDirectory (by simp), if_neg Bool.false_ne_true]
  | true => rw [if_pos rfl]

section Entries

variable (ht : t.Listable) (hdone : ∀ name ∈ done, isName name = true)

include ht hdone

/-- Going through the entries of a directory is going through its names. -/
theorem flatMap_entries {entries : List (String × Entry)} {g : String → Path → Bool → List Found}
    (h : t.list (ofNames done) = .ok entries) :
    (entries.flatMap fun x =>
        g x.1 ((ofNames done).enter x.1) (entryIsDirectory t ((ofNames done).enter x.1) x.2)) =
      (namesBelow t done).flatMap fun name =>
        g name (ofNames (done ++ [name])) (t.isDirectory (ofNames (done ++ [name]))) := by
  rw [namesBelow_eq h, List.flatMap_map]
  refine List.flatMap_congr fun x hx => ?_
  have hleads := (DirectoryTree.mem_list_iff ht.linkFree hdone h).mp hx
  rw [← Path.ofNames_concat, entryIsDirectory_eq ht hleads]

theorem foundBelow_wild {ts : List Token} (hts : (Component.wild ts).startsWithDot = false) :
    foundBelow t (.wild ts :: rest) done = (namesBelow t done).flatMap fun name =>
      if (Component.wild ts).accepts name then foundBelow t rest (done ++ [name]) else [] := by
  have hvisit : foundBelow t (.wild ts :: rest) done = walk t false (.wild ts :: rest) _ _ := rfl
  cases hdirectory : t.isDirectory (ofNames done) with
  | false =>
    rw [hvisit, hdirectory, walk_of_not_isDirectory (by simp),
      namesBelow_of_not_isDirectory hdirectory, List.flatMap_nil]
  | true =>
    obtain ⟨entries, hlist⟩ := ht.exists_list hdone hdirectory
    rw [hvisit, hdirectory, walk_wild hts false hlist]
    exact flatMap_entries ht hdone hlist (g := fun name next isDirectory =>
      if Token.listAccepts ts name.toList then visit t false rest next isDirectory else [])

theorem foundBelow_anyDirectories :
    foundBelow t (.anyDirectories :: rest) done =
      let after := rest.dropWhile Component.isAnyDirectories
      (namesBelow t done).flatMap fun name =>
        foundAfter t after done name ++ foundBelow t (.anyDirectories :: after) (done ++ [name]) := by
  have hvisit : foundBelow t (.anyDirectories :: rest) done =
    walk t false (.anyDirectories :: rest) _ _ := rfl
  cases hdirectory : t.isDirectory (ofNames done) with
  | false =>
    rw [hvisit, hdirectory, walk_of_not_isDirectory (by simp),
      namesBelow_of_not_isDirectory hdirectory]
    rfl
  | true =>
    obtain ⟨entries, hlist⟩ := ht.exists_list hdone hdirectory
    rw [hvisit, hdirectory, walk_anyDirectories false hlist,
      flatMap_entries ht hdone hlist (g := visitDirectories t false _)]
    simp only [visitDirectories_eq]

/-- Where no `**` follows, the components after the first are those that are tried by themselves. -/
theorem foundBelow_anyDirectories_of_head (hhead : rest.head? ≠ some .anyDirectories) :
    foundBelow t (.anyDirectories :: rest) done = (namesBelow t done).flatMap fun name =>
      foundAfter t rest done name ++ foundBelow t (.anyDirectories :: rest) (done ++ [name]) := by
  have hafter : rest.dropWhile Component.isAnyDirectories = rest := by
    cases rest with
    | nil => rfl
    | cons c more =>
      cases c with
      | anyDirectories => contradiction
      | name | wild => rfl
  rw [foundBelow_anyDirectories ht hdone, hafter]

end Entries

/-! Where it is found. -/

/-- A path that leads on from these names. -/
def Below (done : List String) (f : Found) : Prop :=
  ∃ names, f = .ok (ofNames (done ++ names)) ∧ ∀ name ∈ done ++ names, isName name = true

section Below

variable (ht : t.Listable) (hcomponents : ∀ c ∈ components, c.NamesOnly)

include ht hcomponents

theorem below_of_mem_foundBelow (hdone : ∀ name ∈ done, isName name = true)
    (h : f ∈ foundBelow t components done) : Below done f := by
  obtain ⟨names, hf, hnames⟩ := exists_names_of_mem_visit ht hcomponents hdone h
  exact ⟨names, hf, List.forall_mem_append.mpr ⟨hdone, hnames⟩⟩

theorem below_of_mem_foundAfter (hdone : ∀ n ∈ done ++ [name], isName n = true)
    (h : f ∈ foundAfter t components done name) : Below (done ++ [name]) f := by
  unfold foundAfter at h
  split at h
  · split_ifs at h with hdirectory
    · exact ⟨[], by simpa using h, by simpa using hdone⟩
    · contradiction
  · split_ifs at h with haccepts
    · exact below_of_mem_foundBelow ht (List.forall_mem_cons.mp hcomponents).2 hdone h
    · contradiction

end Below

end JsonLayout.Glob
