import JsonLayout.Disk.Basic
import JsonLayout.Proofs.Glob.Wildcards
import Mathlib.Data.List.Forall2

/-!
# What a pattern stands for

The meaning of the parts of a pattern, which are what stands between its slashes, and the components
that the pattern is compiled to, part by part.
-/

namespace JsonLayout.Glob

open DirectoryTree (isName)

variable {s part : List Char} {parts : List (List Char)} {c : Component}
  {components : List Component} {name : String} {names : List String}

def recursive : List Char := ['*', '*']

/-- The names can be matched against the parts in order. A recursive one takes the names of any
number of directories and leaves at least one name. -/
inductive PathMatches : List (List Char) → List String → Prop
  | nil : PathMatches [] []
  | one {part : List Char} {parts : List (List Char)} {name : String} {names : List String}
      (hpart : part ≠ recursive) (h : NameMatches part name.toList)
      (hrest : PathMatches parts names) : PathMatches (part :: parts) (name :: names)
  | directories {part : List Char} {parts : List (List Char)} {names above below : List String}
      (hpart : part = recursive) (hnames : names = above ++ below) (hbelow : below ≠ [])
      (h : PathMatches parts below) : PathMatches (part :: parts) names

/-- The part leads neither up nor nowhere, and its wildcards stand for no names with a dot in
front. -/
structure Ordinary (part : List Char) : Prop where
  ne_nil : part ≠ []
  ne_dot : part ≠ ['.']
  ne_dots : part ≠ ['.', '.']
  hidden : part.head? = some '.' → ∀ c ∈ part, c ∉ wildcards

instance : DecidablePred Ordinary := fun part =>
  decidable_of_iff (part ≠ [] ∧ part ≠ ['.'] ∧ part ≠ ['.', '.'] ∧
      (part.head? = some '.' → part.all (· ∉ wildcards) = true))
    ⟨fun ⟨hnil, hdot, hdots, hhidden⟩ => ⟨hnil, hdot, hdots, by simpa using hhidden⟩,
      fun h => ⟨h.1, h.2, h.3, by simpa using h.4⟩⟩

/-! Parts and components. -/

/-- What a part is compiled to. -/
inductive CompilesTo : List Char → Component → Prop
  | anyDirectories : CompilesTo recursive .anyDirectories
  | tokens {part : List Char} {ts : List Token} (hpart : part ≠ recursive)
      (h : Compiles part ts) : CompilesTo part (.ofTokens ts)

/-- The component stands for names only. -/
def Component.NamesOnly : Component → Prop
  | .name s => isName s = true
  | c => c.startsWithDot = false

theorem CompilesTo.accepts_iff (h : CompilesTo part c) :
    c.accepts name = true ↔ part ≠ recursive ∧ NameMatches part name.toList := by
  cases h with
  | anyDirectories => simp [Component.accepts]
  | tokens hpart h => simp [h.accepts_iff, hpart]

theorem CompilesTo.eq_anyDirectories_iff (h : CompilesTo part c) :
    c = .anyDirectories ↔ part = recursive := by
  cases h with
  | anyDirectories => simp
  | tokens hpart h =>
    rcases h.component_cases with ⟨hname, -⟩ | ⟨hwild, -⟩
    · simp [hname, hpart]
    · simp [hwild, hpart]

theorem head?_eq_anyDirectories_iff (h : List.Forall₂ CompilesTo parts components) :
    components.head? = some .anyDirectories ↔ parts.head? = some recursive := by
  cases h with
  | nil => simp
  | cons hfirst => simp [hfirst.eq_anyDirectories_iff]

theorem Compiles.head?_of_startsWithDot {ts : List Token} (h : Compiles s ts)
    (hdot : (Component.wild ts).startsWithDot = true) : s.head? = some '.' := by
  unfold Component.startsWithDot at hdot
  split at hdot
  · rename_i tokens htokens
    cases htokens
    cases h
    rfl
  · contradiction

theorem CompilesTo.namesOnly (h : CompilesTo part c) (hpart : Ordinary part) (hslash : '/' ∉ part) :
    c.NamesOnly := by
  cases h with
  | anyDirectories => rfl
  | tokens _ h =>
    rcases h.component_cases with ⟨hname, -⟩ | ⟨hwild, hs⟩
    · rw [hname]
      have hne : ∀ text : String, part ≠ text.toList → String.ofList part ≠ text := by
        rintro text hne rfl
        simp at hne
      simp [Component.NamesOnly, isName, hslash, hne "" hpart.ne_nil, hne "." hpart.ne_dot,
        hne ".." hpart.ne_dots]
    · rw [hwild]
      refine Bool.eq_false_iff.mpr fun hdot => ?_
      obtain ⟨c, hc, hwildcard⟩ := hs
      exact hpart.hidden (h.head?_of_startsWithDot hdot) c hc hwildcard

/-! From the text of a pattern to its parts. -/

theorem splitFrom_eq {part : List Char} (h : [] ∉ (s.splitOn '/').modifyHead (part.reverse ++ ·)) :
    splitFrom part s = (s.splitOn '/').modifyHead (part.reverse ++ ·) := by
  induction s generalizing part with
  | nil =>
    have hpart : part ≠ [] := by
      rintro rfl
      exact h (by simp)
    simp [splitFrom, hpart]
  | cons c s ih =>
    rw [splitFrom, List.splitOn_cons_eq_if_modifyHead]
    rw [List.splitOn_cons_eq_if_modifyHead] at h
    by_cases hc : c = '/'
    · subst hc
      have hid : (s.splitOn '/').modifyHead (([] : List Char).reverse ++ ·) = s.splitOn '/' :=
        congrFun List.modifyHead_id _
      simp only [beq_self_eq_true, if_true, List.modifyHead_cons, List.mem_cons, not_or] at h ⊢
      rw [ih (hid.symm ▸ h.2), hid, List.append_nil]
    · simp only [beq_iff_eq, hc, if_false, List.modifyHead_modifyHead] at h ⊢
      have hcomp : (fun l => part.reverse ++ l) ∘ List.cons c = ((c :: part).reverse ++ ·) := by
        funext l
        simp
      rw [hcomp] at h ⊢
      exact ih h

theorem splitFrom_nil_eq (h : [] ∉ s.splitOn '/') : splitFrom [] s = s.splitOn '/' := by
  have hid : (s.splitOn '/').modifyHead (([] : List Char).reverse ++ ·) = s.splitOn '/' :=
    congrFun List.modifyHead_id _
  exact (splitFrom_eq (hid.symm ▸ h)).trans hid

theorem exists_of_bind_eq_ok {α β ε : Type} {x : Except ε α} {f : α → Except ε β} {b : β}
    (h : x >>= f = .ok b) : ∃ a, x = .ok a ∧ f a = .ok b := by
  cases x with
  | error e => contradiction
  | ok a => exact ⟨a, rfl, h⟩

theorem forall₂_of_mapM {α β ε : Type} {f : α → Except ε β} {l : List α} {l' : List β}
    (h : l.mapM f = .ok l') : List.Forall₂ (fun a b => f a = .ok b) l l' := by
  induction l generalizing l' with
  | nil =>
    cases h
    exact .nil
  | cons a l ih =>
    rw [List.mapM_cons] at h
    obtain ⟨b, hfirst, h⟩ := exists_of_bind_eq_ok h
    obtain ⟨bs, hrest, h⟩ := exists_of_bind_eq_ok h
    cases h
    exact .cons hfirst (ih hrest)

theorem CompilesTo.of_compile (hslash : '/' ∉ part)
    (h : Component.ofTokens <$> Token.compile part = .ok c) : CompilesTo part c := by
  obtain ⟨ts, hts, rfl⟩ := exists_of_map_eq_ok h
  by_cases hpart : part = recursive
  · subst hpart
    have hrecursive : Token.compile recursive = .ok [.anyDirectories] := by
      simp [Token.compile, recursive, Token.compileFrom]
    rw [hrecursive] at hts
    cases hts
    exact .anyDirectories
  · exact .tokens hpart ((compiles_of_compileFrom hslash hts).resolve_right (hpart ·.1))

theorem not_mem_of_mem_splitOn (h : part ∈ s.splitOn '/') : '/' ∉ part := by
  induction s generalizing part with
  | nil => simp_all
  | cons c s ih =>
    rw [List.splitOn_cons_eq_if_modifyHead] at h
    by_cases hc : c = '/'
    · rw [if_pos (beq_iff_eq.mpr hc)] at h
      rcases List.mem_cons.mp h with rfl | h
      · simp
      · exact ih h
    · rw [if_neg (mt beq_iff_eq.mp hc)] at h
      obtain ⟨first, rest, hsplit⟩ := List.exists_cons_of_ne_nil (List.splitOn_ne_nil '/' s)
      rw [hsplit] at h ih
      rcases List.mem_cons.mp h with rfl | h
      · simpa [Ne.symm hc] using ih List.mem_cons_self
      · exact ih (List.mem_cons_of_mem first h)

theorem head?_ne_of_splitOn (h : [] ∉ s.splitOn '/') : s.head? ≠ some '/' := by
  rintro hhead
  obtain ⟨rest, rfl⟩ := List.head?_eq_some_iff.mp hhead
  exact h (by simp [List.splitOn_cons_eq_if_modifyHead])

theorem getLast?_ne_of_splitOn (h : [] ∉ s.splitOn '/') : s.getLast? ≠ some '/' := by
  rintro hlast
  obtain ⟨front, rfl⟩ := List.getLast?_eq_some_iff.mp hlast
  exact h (by simp [List.splitOn_append_cons_self])

/-- A pattern without empty parts is compiled part by part. -/
theorem Pattern.exists_components_of_compile {text : String} {pattern : Pattern}
    (h : Pattern.compile text = .ok pattern) (hparts : [] ∉ text.toList.splitOn '/') :
    ∃ components, pattern = ⟨false, components, false⟩ ∧
      List.Forall₂ CompilesTo (text.toList.splitOn '/') components := by
  have hne : text.toList ≠ [] := by
    intro hempty
    exact hparts (by simp [hempty])
  unfold Pattern.compile at h
  simp only [head?_ne_of_splitOn hparts, getLast?_ne_of_splitOn hparts, decide_false,
    Bool.false_eq_true, if_false, List.isEmpty_eq_false_iff.mpr hne, splitFrom_nil_eq hparts] at h
  obtain ⟨_, -, h⟩ := exists_of_bind_eq_ok h
  obtain ⟨components, hcomponents, h⟩ := exists_of_bind_eq_ok h
  cases h
  have hboth := (List.forall₂_and_left (p := ('/' ∉ ·)) _ _).mpr
    ⟨fun _ => not_mem_of_mem_splitOn, forall₂_of_mapM hcomponents⟩
  exact ⟨components, rfl, hboth.imp fun _ _ h => .of_compile h.1 h.2⟩

theorem namesOnly_of_compilesTo (h : List.Forall₂ CompilesTo (s.splitOn '/') components)
    (hparts : ∀ part ∈ s.splitOn '/', Ordinary part) : ∀ c ∈ components, c.NamesOnly := by
  have hboth := (List.forall₂_and_left (p := fun part => Ordinary part ∧ '/' ∉ part) _ _).mpr
    ⟨fun part hpart => ⟨hparts part hpart, not_mem_of_mem_splitOn hpart⟩, h⟩
  generalize s.splitOn '/' = parts at hboth
  clear h hparts
  induction hboth with
  | nil => simp
  | cons hfirst _ ih =>
    obtain ⟨⟨hpart, hslash⟩, hfirst⟩ := hfirst
    exact List.forall_mem_cons.mpr ⟨hfirst.namesOnly hpart hslash, ih⟩

end JsonLayout.Glob
