import JsonLayout.Proofs.Glob.Entries
import JsonLayout.Proofs.Glob.Ways
import Mathlib.Algebra.BigOperators.Group.List.Basic

/-!
# How often a walk finds a file

A walk keeps no record of what it has found: it finds a file once for each way in which the names of
the file match, and so finds it if they match at all.
-/

namespace JsonLayout.Glob

open DirectoryTree (isName)
open JsonLayout.Path (ofNames)

variable {t : DirectoryTree} {c : Component} {components rest : List Component}
  {part : List Char} {parts : List (List Char)} {done names : List String} {name other : String}

theorem count_of_below {found : List Found} (hne : other ≠ name)
    (hnames : ∀ n ∈ done ++ name :: names, isName n = true)
    (hfound : ∀ f ∈ found, Below (done ++ [other]) f) :
    found.count (.ok (ofNames (done ++ name :: names))) = 0 := by
  refine List.count_eq_zero.mpr fun hmem => ?_
  obtain ⟨more, hf, hmore⟩ := hfound _ hmem
  exact hne (Path.eq_of_ofNames_eq hnames hmore (Except.ok.inj hf))

/-- No path is both at the end of the walk and below it. -/
theorem count_ok_done (hnames : ∀ n ∈ done ++ name :: names, isName n = true) :
    ([.ok (ofNames done)] : List Found).count (.ok (ofNames (done ++ name :: names))) = 0 := by
  refine List.count_eq_zero.mpr fun hmem => ?_
  have hdone := (List.forall_mem_append.mp hnames).1
  have hsame := Path.ofNames_injective hnames hdone (Except.ok.inj (List.mem_singleton.mp hmem))
  simp at hsame

section File

variable (ht : t.Listable) (hnames : ∀ n ∈ done ++ name :: names, isName n = true)
  (hfile : t.isFile (ofNames (done ++ name :: names)) = true)

include ht hnames hfile

theorem mem_namesBelow_of_isFile : name ∈ namesBelow t done := by
  obtain ⟨⟨number, hleads⟩, -⟩ := (DirectoryTree.isFile_ofNames_iff ht.linkFree hnames).mp hfile
  rw [List.append_cons] at hleads
  exact (mem_namesBelow_iff ht (List.forall_mem_append.mp hnames).1).mpr hleads.exists_leads

/-- A file is found under its own name only, and a directory holds each name once. -/
theorem count_flatMap_names {g : String → List Found}
    (hg : ∀ other ∈ namesBelow t done, ∀ f ∈ g other, Below (done ++ [other]) f) :
    ((namesBelow t done).flatMap g).count (.ok (ofNames (done ++ name :: names))) =
      (g name).count (.ok (ofNames (done ++ name :: names))) := by
  have hother : ∀ other, other ≠ name → other ∈ namesBelow t done →
      (g other).count (.ok (ofNames (done ++ name :: names))) = 0 :=
    fun other hne hmem => count_of_below hne hnames (hg other hmem)
  have honce : (namesBelow t done).count name = 1 :=
    List.count_eq_one_of_mem (pairwise_namesBelow t done).nodup
      (mem_namesBelow_of_isFile ht hnames hfile)
  rw [List.count_flatMap, List.sum_map_eq_nsmul_single name, honce, one_nsmul, Function.comp_apply]
  exact hother

section Components

variable (hrest : ∀ c ∈ rest, c.NamesOnly)

include hrest

theorem count_foundBelow_one (hc : c.NamesOnly) (hdeep : c ≠ .anyDirectories) :
    (foundBelow t (c :: rest) done).count (.ok (ofNames (done ++ name :: names))) =
      if c.accepts name then
        (foundBelow t rest (done ++ [name])).count (.ok (ofNames (done ++ name :: names)))
      else 0 := by
  have hdone := (List.forall_mem_append.mp hnames).1
  cases c with
  | anyDirectories => contradiction
  | name s =>
    rw [foundBelow_name hc]
    by_cases hs : s = name
    · subst hs
      have haccepts : (Component.name s).accepts s = true := by simp [Component.accepts]
      rw [if_pos (holds_of_isFile ht hnames hfile), if_pos haccepts]
    · have haccepts : (Component.name s).accepts name = false := by
        simpa [Component.accepts] using Ne.symm hs
      rw [haccepts, if_neg Bool.false_ne_true]
      have hs' : ∀ n ∈ done ++ [s], isName n = true :=
        List.forall_mem_append.mpr ⟨hdone, List.forall_mem_singleton.mpr hc⟩
      refine count_of_below hs hnames fun f hf => ?_
      split_ifs at hf
      · exact below_of_mem_foundBelow ht hrest hs' hf
      · contradiction
  | wild ts =>
    rw [foundBelow_wild ht hdone hc, count_flatMap_names ht hnames hfile fun other hother f hf => ?_]
    · split_ifs <;> rfl
    · split_ifs at hf
      · exact below_of_mem_foundBelow ht hrest (isName_of_mem_namesBelow ht hdone hother) hf
      · contradiction

/-- Where `**` takes no directory, the components after it find what they find by themselves. -/
theorem count_foundAfter (hhead : rest.head? ≠ some .anyDirectories) :
    (foundAfter t rest done name).count (.ok (ofNames (done ++ name :: names))) =
      (foundBelow t rest done).count (.ok (ofNames (done ++ name :: names))) := by
  cases rest with
  | nil =>
    rw [foundBelow_nil, count_ok_done hnames]
    unfold foundAfter
    split_ifs with hdirectory
    · refine List.count_eq_zero.mpr fun hmem => ?_
      rw [Except.ok.inj (List.mem_singleton.mp hmem)] at hfile
      simp [isDirectory_of_isFile hfile] at hdirectory
    · rfl
  | cons c more =>
    obtain ⟨hc, hmore⟩ := List.forall_mem_cons.mp hrest
    rw [count_foundBelow_one ht hnames hfile hmore hc fun h => hhead (congrArg some h),
      foundAfter_cons]
    split_ifs <;> rfl

theorem count_foundBelow_directories (hhead : rest.head? ≠ some .anyDirectories) :
    (foundBelow t (.anyDirectories :: rest) done).count (.ok (ofNames (done ++ name :: names))) =
      (foundBelow t rest done).count (.ok (ofNames (done ++ name :: names))) +
        (foundBelow t (.anyDirectories :: rest) (done ++ [name])).count
          (.ok (ofNames (done ++ name :: names))) := by
  have hdone := (List.forall_mem_append.mp hnames).1
  have hall : ∀ c ∈ Component.anyDirectories :: rest, c.NamesOnly :=
    List.forall_mem_cons.mpr ⟨(rfl : Component.anyDirectories.startsWithDot = false), hrest⟩
  rw [foundBelow_anyDirectories_of_head ht hdone hhead,
    count_flatMap_names ht hnames hfile fun other hother f hf => ?_, List.count_append,
    count_foundAfter ht hnames hfile hrest hhead]
  have hfront := isName_of_mem_namesBelow ht hdone hother
  rcases List.mem_append.mp hf with hf | hf
  · exact below_of_mem_foundAfter ht hrest hfront hf
  · exact below_of_mem_foundBelow ht hall hfront hf

end Components

end File

theorem foundBelow_again (ht : t.Listable) (hdone : ∀ name ∈ done, isName name = true) :
    foundBelow t (.anyDirectories :: .anyDirectories :: rest) done =
      foundBelow t (.anyDirectories :: rest) done := by
  rw [foundBelow_anyDirectories ht hdone, foundBelow_anyDirectories ht hdone,
    List.dropWhile_cons_of_pos rfl]

/-- The first name, given what is found below it. -/
theorem count_foundBelow_cons (ht : t.Listable)
    (hcompiles : List.Forall₂ CompilesTo parts components)
    (hcomponents : ∀ c ∈ components, c.NamesOnly)
    (hnames : ∀ n ∈ done ++ name :: names, isName n = true)
    (hfile : t.isFile (ofNames (done ++ name :: names)) = true)
    (hbelow : ∀ {parts components}, List.Forall₂ CompilesTo parts components →
      (∀ c ∈ components, c.NamesOnly) →
      ((foundBelow t components (done ++ [name])).count (.ok (ofNames (done ++ name :: names))) :
        ℕ∞) = (ways parts names).encard) :
    ((foundBelow t components done).count (.ok (ofNames (done ++ name :: names))) : ℕ∞) =
      (ways parts (name :: names)).encard := by
  -- the names stay: only a `**` that takes no directory leaves fewer components for all of them
  induction hcompiles with
  | nil => simp [foundBelow_nil, count_ok_done hnames, ways_nil_cons]
  | @cons part c parts components hfirst hcompiles ih =>
    obtain ⟨hc, hrest⟩ := List.forall_mem_cons.mp hcomponents
    by_cases hpart : part = recursive
    · subst hpart
      obtain rfl := hfirst.eq_anyDirectories_iff.mpr rfl
      have hhead := head?_eq_anyDirectories_iff hcompiles
      by_cases hagain : parts.head? = some recursive
      · obtain ⟨parts, rfl⟩ := List.head?_eq_some_iff.mp hagain
        obtain ⟨components, rfl⟩ := List.head?_eq_some_iff.mp (hhead.mpr hagain)
        rw [foundBelow_again ht (List.forall_mem_append.mp hnames).1, encard_ways_again]
        exact ih hrest
      · rw [count_foundBelow_directories ht hnames hfile hrest (mt hhead.mp hagain), Nat.cast_add,
          ih hrest, hbelow (.cons hfirst hcompiles) hcomponents, encard_ways_directories hagain]
    · have hdeep : c ≠ .anyDirectories := mt hfirst.eq_anyDirectories_iff.mp hpart
      rw [count_foundBelow_one ht hnames hfile hrest hc hdeep, ways_one hpart]
      by_cases haccepts : c.accepts name = true
      · have hname := (hfirst.accepts_iff.mp haccepts).2
        simp [haccepts, hname, hbelow hcompiles hrest, ways]
      · have hname : ¬ NameMatches part name.toList :=
          fun h => haccepts (hfirst.accepts_iff.mpr ⟨hpart, h⟩)
        simp [haccepts, hname]

/-- A walk finds a file as often as there are ways in which its names match. -/
theorem count_foundBelow (ht : t.Listable) (hcompiles : List.Forall₂ CompilesTo parts components)
    (hcomponents : ∀ c ∈ components, c.NamesOnly)
    (hnames : ∀ name ∈ done ++ names, isName name = true)
    (hfile : t.isFile (ofNames (done ++ names)) = true) :
    ((foundBelow t components done).count (.ok (ofNames (done ++ names))) : ℕ∞) =
      (ways parts names).encard := by
  induction names generalizing done parts components with
  | nil =>
    cases hcompiles with
    | nil => simp [foundBelow_nil, ways_nil_nil]
    | cons =>
      rw [ways_cons_nil, Set.encard_empty, Nat.cast_eq_zero]
      refine List.count_eq_zero.mpr fun hmem => ?_
      have hdone := (List.forall_mem_append.mp hnames).1
      obtain ⟨more, hf, hmore, hne⟩ := exists_names_of_mem_walk ht hcomponents hdone hmem
      have hall := List.forall_mem_append.mpr ⟨hdone, hmore⟩
      have hsame := Path.ofNames_injective hnames hall (Except.ok.inj hf)
      rw [List.append_cancel_left_eq] at hsame
      exact hne hsame.symm
  | cons name names ih =>
    refine count_foundBelow_cons ht hcompiles hcomponents hnames hfile
      fun hcompiles hcomponents => ?_
    rw [List.append_cons] at hnames hfile ⊢
    exact ih hcompiles hcomponents hnames hfile

section Pattern

variable {text : String} {pattern : Pattern} (hpattern : Pattern.compile text = .ok pattern)
  (hparts : ∀ part ∈ text.toList.splitOn '/', Ordinary part) (ht : t.Listable)
  (hnames : ∀ name ∈ names, isName name = true) (hfile : t.isFile (ofNames names) = true)

include hpattern hparts ht hnames hfile

/-- A pattern finds a file as often as there are ways in which its names match the parts. -/
theorem count_find : ((pattern.find t).count (.ok (ofNames names)) : ℕ∞) =
    (ways (text.toList.splitOn '/') names).encard := by
  obtain ⟨components, rfl, hne, hnamesOnly, hcompiles⟩ :=
    exists_components_of_ordinary hpattern hparts
  have hall : ∀ name ∈ [] ++ names, isName name = true := hnames
  rw [find_eq_foundBelow hne]
  exact count_foundBelow ht hcompiles hnamesOnly hall hfile

/-- So it finds a file if there is a way, that is if the names match. -/
theorem mem_find_iff : .ok (ofNames names) ∈ pattern.find t ↔
    PathMatches (text.toList.splitOn '/') names := by
  rw [pathMatches_iff_nonempty_ways, ← Set.encard_ne_zero,
    ← count_find hpattern hparts ht hnames hfile, Nat.cast_ne_zero, ← Nat.pos_iff_ne_zero,
    List.count_pos_iff]

end Pattern

end JsonLayout.Glob
