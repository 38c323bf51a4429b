import JsonLayout.Disk.Resolve
import Mathlib.Data.List.Induction

/-!
# Where names lead

From the working directory, names lead down from directory to directory. Where there are no links,
a path of names is followed to where the names lead, and to nothing else.
-/

namespace JsonLayout

open DirectoryTree (isName)

variable {name : String} {names : List String}

namespace Path

/-- The working directory, and what is reached from it by entering the names. -/
def ofNames (names : List String) : Path := names.foldl enter ⟨".", []⟩

theorem ofNames_concat (names : List String) (name : String) :
    ofNames (names ++ [name]) = (ofNames names).enter name := by
  rw [ofNames, List.foldl_append]
  rfl

theorem segments_injective {p q : Path} (h : p.segments = q.segments) : p = q := by
  obtain ⟨hlast, hbefore⟩ := List.cons.inj (List.reverse_inj.mp h)
  cases p
  cases q
  exact congrArg₂ mk hlast hbefore

theorem segments_enter {p : Path} (h : ∀ name ∈ p.segments, isName name = true) (name : String) :
    (p.enter name).segments = p.segments ++ [name] := by
  have hmem : p.last ∈ p.segments := by simp [segments]
  obtain ⟨hempty, hdot⟩ := DirectoryTree.ne_empty_and_ne_dot_of_isName (h _ hmem)
  have hhere : ¬ p.isHere = true := fun hhere => (eq_dot_of_isHere hhere hmem).elim hempty hdot
  rw [enter, if_neg hhere, push, if_neg (by simpa [endsOpen] using hempty)]
  simp [segments]

theorem segments_ofNames (hnames : ∀ name ∈ names, isName name = true) (hne : names ≠ []) :
    (ofNames names).segments = names := by
  induction names using List.reverseRecOn with
  | nil => contradiction
  | append_singleton names name ih =>
    rw [ofNames_concat]
    by_cases hfirst : names = []
    · subst hfirst
      rfl
    have hfront : ∀ n ∈ names, isName n = true := fun n hn => hnames n (by simp [hn])
    have hsegments := ih hfront hfirst
    rw [segments_enter (hsegments.symm ▸ hfront), hsegments]

theorem ofNames_segments {p : Path} (hnames : ∀ name ∈ p.segments, isName name = true) :
    ofNames p.segments = p :=
  segments_injective (segments_ofNames hnames (by simp [segments]))

theorem ofNames_injective {names' : List String} (hnames : ∀ name ∈ names, isName name = true)
    (hnames' : ∀ name ∈ names', isName name = true) (h : ofNames names = ofNames names') :
    names = names' := by
  have hdot : ∀ {l : List String}, (∀ name ∈ l, isName name = true) → l ≠ ["."] := by
    rintro l hl rfl
    exact absurd (hl "." (by simp)) (by decide)
  have hsegments := congrArg segments h
  by_cases hne : names = [] <;> by_cases hne' : names' = []
  · rw [hne, hne']
  · rw [hne, segments_ofNames hnames' hne'] at hsegments
    exact absurd hsegments.symm (hdot hnames')
  · rw [hne', segments_ofNames hnames hne] at hsegments
    exact absurd hsegments (hdot hnames)
  · rwa [segments_ofNames hnames hne, segments_ofNames hnames' hne'] at hsegments

/-- Paths that part ways after the same names are not the same. -/
theorem eq_of_ofNames_eq {done more : List String} {name other : String}
    (hnames : ∀ n ∈ done ++ name :: names, isName n = true)
    (hmore : ∀ n ∈ done ++ [other] ++ more, isName n = true)
    (h : ofNames (done ++ name :: names) = ofNames (done ++ [other] ++ more)) : other = name := by
  have hsame := ofNames_injective hnames hmore h
  rw [List.append_assoc, List.append_cancel_left_eq] at hsame
  exact (List.cons.inj hsame).1.symm

theorem isAbsolute_ofNames (hnames : ∀ name ∈ names, isName name = true) :
    (ofNames names).isAbsolute = false := by
  by_cases hne : names = []
  · subst hne
    rfl
  refine decide_eq_false fun habsolute => ?_
  have hmem : "" ∈ (ofNames names).segments := by
    simp [segments, List.mem_of_getLast? habsolute]
  rw [segments_ofNames hnames hne] at hmem
  exact absurd (hnames "" hmem) (by decide)

theorem byteLength_ofNames_ne_zero (hnames : ∀ name ∈ names, isName name = true) :
    (ofNames names).byteLength ≠ 0 := by
  by_cases hne : names = []
  · subst hne
    decide
  intro hzero
  have hlast : (ofNames names).last ∈ (ofNames names).segments := by simp [segments]
  rw [segments_ofNames hnames hne] at hlast
  have hbytes : (ofNames names).last.utf8ByteSize = 0 := by
    unfold byteLength at hzero
    omega
  exact (DirectoryTree.ne_empty_and_ne_dot_of_isName (hnames _ hlast)).1
    (String.utf8ByteSize_eq_zero_iff.mp hbytes)

end Path

namespace DirectoryTree

variable {t : DirectoryTree} {e : Entry} {lastLink : Bool} {loc : Location} {done rest : List String}

/-- From the working directory, the names lead to the entry. -/
inductive Leads (t : DirectoryTree) : List String → Entry → Prop
  | here {permissions : Nat} (h : t.entry? t.here = some (.directory permissions)) :
      Leads t [] (.directory permissions)
  | into {names : List String} {name : String} {permissions : Nat} {e : Entry}
      (hdirectory : Leads t names (.directory permissions)) (hname : isName name = true)
      (h : t.entry? (name :: (names.reverse ++ t.here)) = some e) : Leads t (names ++ [name]) e

/-- The names lead to no link. -/
def LinkFree (t : DirectoryTree) : Prop := ∀ names target, ¬ t.Leads names (.link target)

/-- A path of these names is not refused for what it is. -/
structure Usable (names : List String) : Prop where
  nul : ∀ name ∈ names, '\x00' ∉ name.toList
  nameBytes : ∀ name ∈ names, name.utf8ByteSize ≤ maxNameBytes
  pathBytes : (Path.ofNames names).byteLength ≤ maxPathBytes

instance : DecidablePred Usable := fun names =>
  decidable_of_iff ((∀ name ∈ names, '\x00' ∉ name.toList) ∧
      (∀ name ∈ names, name.utf8ByteSize ≤ maxNameBytes) ∧
      (Path.ofNames names).byteLength ≤ maxPathBytes)
    ⟨fun ⟨hnul, hnames, hpath⟩ => ⟨hnul, hnames, hpath⟩, fun h => ⟨h.1, h.2, h.3⟩⟩

namespace Leads

theorem entry_eq (h : t.Leads names e) : t.entry? (names.reverse ++ t.here) = some e := by
  cases h with
  | here h => exact h
  | into _ _ h => simpa using h

theorem isName (h : t.Leads names e) : ∀ name ∈ names, isName name = true := by
  induction h with
  | here => simp
  | into _ hname _ ih => simpa [or_imp, forall_and] using ⟨ih, hname⟩

theorem concat_inv (h : t.Leads (names ++ [name]) e) :
    ∃ permissions, t.Leads names (.directory permissions) := by
  generalize hall : names ++ [name] = all at h
  cases h with
  | here => simp at hall
  | into hdirectory =>
    obtain rfl := (List.append_inj' hall rfl).1
    exact ⟨_, hdirectory⟩

/-- On the way, all are directories. -/
theorem exists_directory (h : t.Leads (done ++ rest) e) (hrest : rest ≠ []) :
    ∃ permissions, t.Leads done (.directory permissions) := by
  induction rest using List.reverseRecOn generalizing e with
  | nil => contradiction
  | append_singleton rest last ih =>
    obtain ⟨permissions, hfront⟩ := concat_inv ((List.append_assoc ..).symm ▸ h)
    by_cases hne : rest = []
    · exact ⟨permissions, by simpa [hne] using hfront⟩
    · exact ih hfront hne

theorem exists_leads (h : t.Leads (done ++ rest) e) : ∃ e', t.Leads done e' := by
  by_cases hrest : rest = []
  · exact ⟨e, by simpa [hrest] using h⟩
  · obtain ⟨permissions, hdone⟩ := h.exists_directory hrest
    exact ⟨_, hdone⟩

end Leads

/-! Following a path of names. -/

theorem ne_dots_of_isName (h : isName name = true) : name ≠ ".." := by
  rintro rfl
  exact absurd h (by decide)

/-- A name that is not too long leads on, unless nothing has it. -/
theorem follow_name {permissions links : Nat} (h : t.entry? loc = some (.directory permissions))
    (hname : isName name = true) (hlink : ∀ target, t.entry? (name :: loc) ≠ some (.link target)) :
    t.follow lastLink links loc (name :: rest) =
      if maxNameBytes < name.utf8ByteSize then .error .nameTooLong
      else if (t.entry? (name :: loc)).isSome then t.follow lastLink links (name :: loc) rest
      else if rest.isEmpty then .ok (.vacant (name :: loc)) else .error .notFound := by
  obtain ⟨hempty, hdot⟩ := ne_empty_and_ne_dot_of_isName hname
  rw [follow]
  simp only [h, hempty, hdot, ne_dots_of_isName hname, decide_false, Bool.or_self,
    Bool.false_eq_true, if_false]
  congr 1
  cases hentry : t.entry? (name :: loc) with
  | none => rfl
  | some e =>
    cases e with
    | link target => exact absurd hentry (hlink target)
    | file | directory => rfl

theorem follow_eq_existing_iff (hlinks : t.LinkFree) {links : Nat}
    (hdone : t.Leads done e) (hrest : ∀ name ∈ rest, isName name = true) :
    t.follow lastLink links (done.reverse ++ t.here) rest = .ok (.existing loc) ↔
      loc = (done ++ rest).reverse ++ t.here ∧ (∃ e, t.Leads (done ++ rest) e) ∧
        ∀ name ∈ rest, name.utf8ByteSize ≤ maxNameBytes := by
  induction rest generalizing done e with
  | nil =>
    rw [follow]
    simpa [eq_comm] using fun _ => ⟨e, hdone⟩
  | cons name rest ih =>
    obtain ⟨hname, hrest⟩ := List.forall_mem_cons.mp hrest
    cases e with
    | link target => exact absurd hdone (hlinks done target)
    | file number =>
      rw [follow, hdone.entry_eq]
      simp only [reduceCtorEq, false_iff]
      rintro ⟨-, ⟨e, h⟩, -⟩
      obtain ⟨permissions, hdirectory⟩ := h.exists_directory (List.cons_ne_nil name rest)
      simpa using hdone.entry_eq.symm.trans hdirectory.entry_eq
    | directory permissions =>
      rw [follow_name hdone.entry_eq hname fun target hentry =>
        hlinks _ target (hdone.into hname hentry), List.append_cons]
      simp only [List.forall_mem_cons]
      split_ifs with hlong hsome hlast
      · simp [Nat.not_le.mpr hlong]
      · obtain ⟨e', hentry⟩ := Option.isSome_iff_exists.mp hsome
        have hnext := ih (hdone.into hname hentry) hrest
        simpa [Nat.not_lt.mp hlong] using hnext
      all_goals
        have hnone : ¬ ∃ e, t.Leads (done ++ [name] ++ rest) e := by
          rintro ⟨e, h⟩
          obtain ⟨e', hfirst⟩ := h.exists_leads
          exact hsome (Option.isSome_iff_exists.mpr ⟨e', by simpa using hfirst.entry_eq⟩)
        simp [hnone, -List.append_assoc]

theorem usable_nil : Usable [] := by decide

theorem leads_nil_iff : t.Leads [] e ↔
    t.entry? t.here = some e ∧ ∃ permissions, e = .directory permissions := by
  constructor
  · intro h
    refine ⟨h.entry_eq, ?_⟩
    generalize hnames : ([] : List String) = names at h
    cases h with
    | here => exact ⟨_, rfl⟩
    | into => simp at hnames
  · rintro ⟨hentry, permissions, rfl⟩
    exact .here hentry

theorem follow_dot_eq_existing_iff {links : Nat} :
    t.follow lastLink links t.here ["."] = .ok (.existing loc) ↔
      loc = t.here ∧ ∃ e, t.Leads [] e := by
  rw [follow]
  simp only [leads_nil_iff]
  cases hentry : t.entry? t.here with
  | none => simp
  | some e =>
    cases e with
    | directory permissions =>
      have hdone : t.follow lastLink links t.here [] = .ok (.existing t.here) := by rw [follow]
      simpa [hdone] using eq_comm
    | file | link => simp

theorem follow_here_eq_existing_iff (hlinks : t.LinkFree) {links : Nat}
    (hnames : ∀ name ∈ names, isName name = true) (hne : names ≠ []) :
    t.follow lastLink links t.here names = .ok (.existing loc) ↔
      loc = names.reverse ++ t.here ∧ (∃ e, t.Leads names e) ∧
        ∀ name ∈ names, name.utf8ByteSize ≤ maxNameBytes := by
  by_cases hroot : ∃ e, t.Leads [] e
  · obtain ⟨e, hroot⟩ := hroot
    exact follow_eq_existing_iff hlinks hroot hnames
  have hnowhere : ¬ ∃ e, t.Leads names e := by
    rintro ⟨e, h⟩
    have hsplit : t.Leads ([] ++ names) e := h
    exact hroot hsplit.exists_leads
  obtain ⟨name, rest, rfl⟩ := List.exists_cons_of_ne_nil hne
  simp only [hnowhere, false_and, and_false, iff_false]
  rw [follow]
  split
  · rename_i permissions hentry
    exact absurd ⟨_, .here hentry⟩ hroot
  · simp

theorem resolve_ofNames_eq_existing_iff (hlinks : t.LinkFree)
    (hnames : ∀ name ∈ names, isName name = true) :
    t.resolve lastLink (.ofNames names) = .ok (.existing loc) ↔
      loc = names.reverse ++ t.here ∧ (∃ e, t.Leads names e) ∧ Usable names := by
  unfold resolve
  rw [if_neg (Path.byteLength_ofNames_ne_zero hnames), Path.isAbsolute_ofNames hnames,
    if_neg Bool.false_ne_true]
  by_cases hne : names = []
  · subst hne
    have hnul : (Path.ofNames []).segments.any (·.toList.contains '\x00') = false := by decide
    have hlong : ¬ maxPathBytes < (Path.ofNames []).byteLength := by decide
    rw [hnul, if_neg Bool.false_ne_true, if_neg hlong]
    simp only [usable_nil, and_true]
    exact follow_dot_eq_existing_iff
  rw [Path.segments_ofNames hnames hne]
  split_ifs with hnul hlong
  · obtain ⟨name, hname, hmem⟩ := List.any_eq_true.mp hnul
    have hunusable : ¬ Usable names := fun h => h.nul name hname (by simpa using hmem)
    simp [hunusable]
  · have hunusable : ¬ Usable names := fun h => Nat.not_le.mpr hlong h.pathBytes
    simp [hunusable]
  · have hnul : ∀ name ∈ names, '\x00' ∉ name.toList := fun name hname hmem =>
      hnul (List.any_eq_true.mpr ⟨name, hname, by simpa using hmem⟩)
    rw [follow_here_eq_existing_iff hlinks hnames hne]
    exact and_congr_right fun _ => and_congr_right fun _ =>
      ⟨fun h => ⟨hnul, h, Nat.not_lt.mp hlong⟩, Usable.nameBytes⟩

/-- A path of names leads to an entry if the names do, and if the path is usable at all. -/
theorem locate_ofNames_eq_ok_iff (hlinks : t.LinkFree)
    (hnames : ∀ name ∈ names, isName name = true) :
    t.locate lastLink (.ofNames names) = .ok (loc, e) ↔
      loc = names.reverse ++ t.here ∧ t.Leads names e ∧ Usable names := by
  have hresolve : ∀ {loc}, t.resolve lastLink (.ofNames names) = .ok (.existing loc) ↔ _ :=
    resolve_ofNames_eq_existing_iff hlinks hnames
  unfold locate
  constructor
  · intro h
    split at h
    · contradiction
    · contradiction
    · rename_i found hfound
      obtain ⟨rfl, ⟨e', hleads⟩, husable⟩ := hresolve.mp hfound
      rw [hleads.entry_eq] at h
      cases h
      exact ⟨rfl, hleads, husable⟩
  · rintro ⟨rfl, hleads, husable⟩
    rw [hresolve.mpr ⟨rfl, ⟨e, hleads⟩, husable⟩]
    simp only [hleads.entry_eq]

theorem isFile_iff {p : Path} :
    t.isFile p = true ↔ ∃ loc number, t.locate true p = .ok (loc, .file number) := by
  unfold isFile
  split <;> simp_all

theorem isDirectory_iff {p : Path} : t.isDirectory p = true ↔
    ∃ loc permissions, t.locate true p = .ok (loc, .directory permissions) := by
  unfold isDirectory
  split <;> simp_all

theorem holds_iff {p : Path} : t.holds p = true ↔ ∃ loc e, t.locate false p = .ok (loc, e) := by
  unfold holds
  rcases t.locate false p with cause | ⟨loc, e⟩ <;> simp [Except.isOk, Except.toBool]

section Names

variable (hlinks : t.LinkFree) (hnames : ∀ name ∈ names, isName name = true)

include hlinks hnames

theorem isFile_ofNames_iff : t.isFile (.ofNames names) = true ↔
    (∃ number, t.Leads names (.file number)) ∧ Usable names := by
  simp [isFile_iff, locate_ofNames_eq_ok_iff hlinks hnames]

theorem isDirectory_ofNames_iff : t.isDirectory (.ofNames names) = true ↔
    (∃ permissions, t.Leads names (.directory permissions)) ∧ Usable names := by
  simp [isDirectory_iff, locate_ofNames_eq_ok_iff hlinks hnames]

theorem holds_ofNames_iff : t.holds (.ofNames names) = true ↔
    (∃ e, t.Leads names e) ∧ Usable names := by
  simp [holds_iff, locate_ofNames_eq_ok_iff hlinks hnames]

end Names

/-! Listing a directory. -/

theorem mem_insertName_iff {n : String} : n ∈ insertName name names ↔ n = name ∨ n ∈ names := by
  refine ⟨mem_insertName, fun h => ?_⟩
  induction names with
  | nil => simpa [insertName] using h
  | cons m names ih =>
    unfold insertName
    split_ifs with hlt heq
    · simpa using h
    · simpa [heq] using h
    · rcases h with h | h
      · exact List.mem_cons_of_mem m (ih (.inl h))
      · rcases List.mem_cons.mp h with rfl | h
        · exact List.mem_cons_self
        · exact List.mem_cons_of_mem m (ih (.inr h))

theorem mem_foldr_insertName {n : String} : n ∈ names.foldr insertName [] ↔ n ∈ names := by
  induction names with
  | nil => simp
  | cons name names ih => rw [List.foldr_cons, mem_insertName_iff, ih, List.mem_cons]

theorem mem_entries_of_eq (h : t.entry? loc = some e) : (loc, e) ∈ t.entries := by
  obtain ⟨before, after, hentries, -⟩ := List.lookup_eq_some_iff.mp h
  simp [hentries]

theorem exists_entry?_iff : (∃ e, t.entry? loc = some e) ↔ ∃ e, (loc, e) ∈ t.entries := by
  constructor
  · rintro ⟨e, h⟩
    exact ⟨e, mem_entries_of_eq h⟩
  · rintro ⟨e, hmem⟩
    unfold entry?
    rw [← Option.isSome_iff_exists, List.lookup_isSome_iff]
    exact ⟨(loc, e), hmem, beq_self_eq_true loc⟩

theorem mem_namesIn_iff : name ∈ t.namesIn loc ↔
    isName name = true ∧ ∃ e, t.entry? (name :: loc) = some e := by
  unfold namesIn
  rw [mem_foldr_insertName, exists_entry?_iff, List.mem_filterMap]
  constructor
  · rintro ⟨⟨found, e⟩, hmem, hname⟩
    cases found with
    | nil => simp [nameIn?] at hname
    | cons n parent =>
      simp only [nameIn?] at hname
      split_ifs at hname with h
      cases hname
      simp only [Bool.and_eq_true, decide_eq_true_eq] at h
      obtain ⟨rfl, hn⟩ := h
      exact ⟨hn, e, hmem⟩
  · rintro ⟨hname, e, hmem⟩
    exact ⟨_, hmem, by simp [nameIn?, hname]⟩

/-- What is listed under the path of a directory is what the names one longer lead to. -/
theorem mem_list_iff (hlinks : t.LinkFree) (hnames : ∀ name ∈ names, isName name = true)
    {entries : List (String × Entry)} (h : t.list (.ofNames names) = .ok entries) :
    (name, e) ∈ entries ↔ t.Leads (names ++ [name]) e := by
  obtain ⟨loc, permissions, hfound, rfl⟩ := exists_locate_of_list h
  obtain ⟨rfl, hleads, -⟩ := (locate_ofNames_eq_ok_iff hlinks hnames).mp hfound
  simp only [List.mem_filterMap, mem_namesIn_iff, Option.map_eq_some_iff, Prod.mk.injEq]
  constructor
  · rintro ⟨_, ⟨hname, -⟩, _, hentry, rfl, rfl⟩
    exact hleads.into hname hentry
  · intro h
    have hentry := h.entry_eq
    have hname := h.isName name (by simp)
    rw [List.reverse_append] at hentry
    exact ⟨name, ⟨hname, e, hentry⟩, e, hentry, rfl, rfl⟩

theorem isDirectory_of_list {p : Path} {entries : List (String × Entry)}
    (h : t.list p = .ok entries) : t.isDirectory p = true := by
  obtain ⟨loc, permissions, hfound, -⟩ := exists_locate_of_list h
  exact isDirectory_iff.mpr ⟨loc, permissions, hfound⟩

theorem exists_list_eq {p : Path} (h : t.isDirectory p = true)
    (hallowed : ∀ loc, t.listRefusal loc = none) : ∃ entries, t.list p = .ok entries := by
  obtain ⟨loc, permissions, hfound⟩ := isDirectory_iff.mp h
  simp [list, hfound, hallowed loc]

/-- Below the working directory there are files, and directories that can all be listed. -/
structure Listable (t : DirectoryTree) : Prop where
  linkFree : t.LinkFree
  listed : ∀ names permissions, t.Leads names (.directory permissions) →
    ∃ entries, t.list (.ofNames names) = .ok entries

theorem LinkFree.listable (h : t.LinkFree) (husable : ∀ names permissions,
    t.Leads names (.directory permissions) → Usable names)
    (hallowed : ∀ loc, t.listRefusal loc = none) : t.Listable := by
  refine ⟨h, fun names permissions hleads => exists_list_eq ?_ hallowed⟩
  exact (isDirectory_ofNames_iff h hleads.isName).mpr
    ⟨⟨permissions, hleads⟩, husable names permissions hleads⟩

theorem Listable.isDirectory_iff (h : t.Listable) (hnames : ∀ name ∈ names, isName name = true) :
    t.isDirectory (.ofNames names) = true ↔
      ∃ permissions, t.Leads names (.directory permissions) := by
  constructor
  · intro hdirectory
    exact ((isDirectory_ofNames_iff h.linkFree hnames).mp hdirectory).1
  · rintro ⟨permissions, hleads⟩
    obtain ⟨entries, hlist⟩ := h.listed names permissions hleads
    exact isDirectory_of_list hlist

theorem Listable.exists_list (h : t.Listable) (hnames : ∀ name ∈ names, isName name = true)
    (hdirectory : t.isDirectory (.ofNames names) = true) :
    ∃ entries, t.list (.ofNames names) = .ok entries := by
  obtain ⟨permissions, hleads⟩ := (h.isDirectory_iff hnames).mp hdirectory
  exact h.listed names permissions hleads

/-- The entry is no link, and can be listed if it is a directory and the root the working one. -/
def isPlainEntry : Location × Entry → Bool
  | (_, .file _) => true
  | (loc, .directory _) => decide (Usable loc.reverse)
  | (_, .link _) => false

theorem listable_of_entries (hhere : t.here = []) (hallowed : ∀ loc, t.listRefusal loc = none)
    (h : t.entries.all isPlainEntry = true) : t.Listable := by
  have hplain : ∀ {names e}, t.Leads names e → isPlainEntry (names.reverse, e) = true :=
    fun hleads => List.all_eq_true.mp h _ (by simpa [hhere] using mem_entries_of_eq hleads.entry_eq)
  have hlinks : t.LinkFree := fun names target hleads => nomatch hplain hleads
  refine hlinks.listable (fun names permissions hleads => ?_) hallowed
  simpa [isPlainEntry] using hplain hleads

end DirectoryTree

end JsonLayout
