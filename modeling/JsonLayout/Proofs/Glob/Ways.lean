import JsonLayout.Proofs.Glob.Parts
import Mathlib.Data.Set.Card

/-!
# The ways in which names match

Names may match the parts of a pattern in more than one way: of two `**` with a part between them,
either can take the directories that the other leaves. A way is told by how many directories each
`**` takes.
-/

namespace JsonLayout.Glob

variable {part : List Char} {parts before after : List (List Char)} {name : String}
  {names : List String} {taken : List Nat}

/-- The names match the parts in order, and `taken` says how many directories each recursive part
takes. Of those that stand next to each other only the last takes any. -/
inductive MatchesTaking : List (List Char) → List String → List Nat → Prop
  | nil : MatchesTaking [] [] []
  | one {part : List Char} {parts : List (List Char)} {name : String} {names : List String}
      {taken : List Nat} (hpart : part ≠ recursive) (h : NameMatches part name.toList)
      (hrest : MatchesTaking parts names taken) :
      MatchesTaking (part :: parts) (name :: names) taken
  | directories {part : List Char} {parts : List (List Char)} {names above below : List String}
      {taken : List Nat} (hpart : part = recursive) (hnames : names = above ++ below)
      (hbelow : below ≠ []) (hlast : parts.head? = some recursive → above = [])
      (h : MatchesTaking parts below taken) :
      MatchesTaking (part :: parts) names (above.length :: taken)

/-- The ways in which the names match the parts. -/
def ways (parts : List (List Char)) (names : List String) : Set (List Nat) :=
  {taken | MatchesTaking parts names taken}

namespace MatchesTaking

theorem pathMatches (h : MatchesTaking parts names taken) : PathMatches parts names := by
  induction h with
  | nil => exact .nil
  | one hpart hname _ ih => exact .one hpart hname ih
  | directories hpart hnames hbelow _ _ ih => exact .directories hpart hnames hbelow ih

theorem ne_nil (h : MatchesTaking (part :: parts) names taken) : names ≠ [] := by
  cases h with
  | one => simp
  | directories _ hnames hbelow => simp [hnames, hbelow]

theorem one_iff (hpart : part ≠ recursive) :
    MatchesTaking (part :: parts) (name :: names) taken ↔
      NameMatches part name.toList ∧ MatchesTaking parts names taken := by
  constructor
  · intro h
    cases h with
    | one _ hname hrest => exact ⟨hname, hrest⟩
    | directories => contradiction
  · rintro ⟨hname, hrest⟩
    exact .one hpart hname hrest

theorem again_iff : MatchesTaking (recursive :: recursive :: parts) names taken ↔
    ∃ rest, taken = 0 :: rest ∧ MatchesTaking (recursive :: parts) names rest := by
  constructor
  · intro h
    cases h with
    | one => contradiction
    | directories _ hnames _ hlast h =>
      obtain rfl := hlast rfl
      obtain rfl := hnames
      exact ⟨_, rfl, h⟩
  · rintro ⟨rest, rfl, h⟩
    exact .directories rfl (List.nil_append names).symm h.ne_nil (fun _ => rfl) h

/-- The last recursive part of several takes what stands above the names left to the others. -/
theorem directories_iff (hparts : parts.head? ≠ some recursive) :
    MatchesTaking (recursive :: parts) names taken ↔
      ∃ above below rest, names = above ++ below ∧ below ≠ [] ∧ taken = above.length :: rest ∧
        MatchesTaking parts below rest := by
  constructor
  · intro h
    cases h with
    | one => contradiction
    | directories _ hnames hbelow _ h => exact ⟨_, _, _, hnames, hbelow, rfl, h⟩
  · rintro ⟨above, below, rest, hnames, hbelow, rfl, h⟩
    exact .directories rfl hnames hbelow (absurd · hparts) h

/-- A `**` takes no directory here, or it takes this one. -/
theorem directories_cons_iff (hparts : parts.head? ≠ some recursive) :
    MatchesTaking (recursive :: parts) (name :: names) taken ↔
      (∃ rest, taken = 0 :: rest ∧ MatchesTaking parts (name :: names) rest) ∨
      ∃ rest, taken = rest.modifyHead (· + 1) ∧
        MatchesTaking (recursive :: parts) names rest := by
  simp only [directories_iff hparts]
  constructor
  · rintro ⟨above, below, rest, hnames, hbelow, rfl, h⟩
    cases above with
    | nil => exact .inl ⟨rest, rfl, hnames ▸ h⟩
    | cons first above =>
      cases hnames
      exact .inr ⟨above.length :: rest, rfl, above, below, rest, rfl, hbelow, rfl, h⟩
  · rintro (⟨rest, rfl, h⟩ | ⟨_, rfl, above, below, rest, rfl, hbelow, rfl, h⟩)
    · exact ⟨[], name :: names, rest, rfl, by simp, rfl, h⟩
    · exact ⟨name :: above, below, rest, rfl, hbelow, rfl, h⟩

/-- Directories in front are left to the last of the recursive parts. -/
theorem exists_append {parts : List (List Char)} {taken : List Nat}
    (h : MatchesTaking (recursive :: parts) names taken) (above : List String) :
    ∃ more, MatchesTaking (recursive :: parts) (above ++ names) more := by
  by_cases hparts : parts.head? = some recursive
  · obtain ⟨parts, rfl⟩ := List.head?_eq_some_iff.mp hparts
    obtain ⟨rest, -, h⟩ := again_iff.mp h
    obtain ⟨more, hmore⟩ := h.exists_append above
    exact ⟨0 :: more, again_iff.mpr ⟨more, rfl, hmore⟩⟩
  · obtain ⟨first, below, rest, rfl, hbelow, -, h⟩ := (directories_iff hparts).mp h
    exact ⟨_, (directories_iff hparts).mpr
      ⟨above ++ first, below, rest, (List.append_assoc ..).symm, hbelow, rfl, h⟩⟩
termination_by parts.length

end MatchesTaking

/-- Names match if there is a way in which they do. -/
theorem pathMatches_iff_nonempty_ways : PathMatches parts names ↔ (ways parts names).Nonempty := by
  refine ⟨fun h => ?_, fun ⟨taken, h⟩ => h.pathMatches⟩
  induction h with
  | nil => exact ⟨[], .nil⟩
  | one hpart hname _ ih =>
    obtain ⟨taken, htaken⟩ := ih
    exact ⟨taken, .one hpart hname htaken⟩
  | @directories part parts names above below hpart hnames hbelow _ ih =>
    obtain ⟨taken, htaken⟩ := ih
    by_cases hparts : parts.head? = some recursive
    · obtain ⟨parts, rfl⟩ := List.head?_eq_some_iff.mp hparts
      subst hpart hnames
      obtain ⟨more, hmore⟩ := htaken.exists_append above
      exact ⟨0 :: more, MatchesTaking.again_iff.mpr ⟨more, rfl, hmore⟩⟩
    · exact ⟨_, .directories hpart hnames hbelow (absurd · hparts) htaken⟩

/-! How many there are. -/

theorem ways_nil_nil : ways [] [] = {[]} := by
  ext taken
  constructor
  · intro h
    cases h
    rfl
  · rintro rfl
    exact .nil

theorem ways_nil_cons : ways [] (name :: names) = ∅ :=
  Set.eq_empty_of_forall_notMem fun _ h => nomatch h

theorem ways_cons_nil : ways (part :: parts) [] = ∅ :=
  Set.eq_empty_of_forall_notMem fun _ h => h.ne_nil rfl

theorem ways_one (hpart : part ≠ recursive) : ways (part :: parts) (name :: names) =
    {taken ∈ ways parts names | NameMatches part name.toList} := by
  ext taken
  exact (MatchesTaking.one_iff hpart).trans And.comm

theorem ways_again : ways (recursive :: recursive :: parts) names =
    (0 :: ·) '' ways (recursive :: parts) names := by
  ext taken
  exact MatchesTaking.again_iff.trans
    (exists_congr fun rest => and_comm.trans (and_congr_right fun _ => eq_comm))

theorem encard_ways_again : (ways (recursive :: recursive :: parts) names).encard =
    (ways (recursive :: parts) names).encard := by
  rw [ways_again, List.cons_injective.encard_image]

theorem ways_directories (hparts : parts.head? ≠ some recursive) :
    ways (recursive :: parts) (name :: names) =
      (0 :: ·) '' ways parts (name :: names) ∪
        List.modifyHead (· + 1) '' ways (recursive :: parts) names := by
  ext taken
  refine (MatchesTaking.directories_cons_iff hparts).trans (or_congr ?_ ?_) <;>
  exact exists_congr fun rest => and_comm.trans (and_congr_right fun _ => eq_comm)

/-- Every way has the first `**` take nothing or something, and none does both. -/
theorem encard_ways_directories (hparts : parts.head? ≠ some recursive) :
    (ways (recursive :: parts) (name :: names)).encard =
      (ways parts (name :: names)).encard + (ways (recursive :: parts) names).encard := by
  have hmore : Function.Injective (List.modifyHead (α := Nat) (· + 1)) := by
    intro l l' h
    cases l <;> cases l' <;> simp_all
  have hdisjoint : Disjoint ((0 :: ·) '' ways parts (name :: names))
      (List.modifyHead (· + 1) '' ways (recursive :: parts) names) := by
    rw [Set.disjoint_left]
    rintro _ ⟨rest, -, rfl⟩ ⟨rest', -, h⟩
    cases rest' <;> simp at h
  rw [ways_directories hparts, Set.encard_union_eq hdisjoint, List.cons_injective.encard_image,
    hmore.encard_image]

/-! With all recursive parts in one place. -/

/-- The recursive parts, if there are any, stand next to each other. -/
def Together (parts : List (List Char)) : Prop :=
  ∃ before k after, parts = before ++ (List.replicate k recursive ++ after) ∧
    recursive ∉ before ∧ recursive ∉ after

theorem MatchesTaking.of_not_mem (hparts : recursive ∉ parts)
    (h : MatchesTaking parts names taken) : taken = [] ∧ names.length = parts.length := by
  induction h with
  | nil => simp
  | one _ _ _ ih =>
    obtain ⟨htaken, hlength⟩ := ih (List.not_mem_of_not_mem_cons hparts)
    exact ⟨htaken, by simp [hlength]⟩
  | directories hpart => simp [hpart] at hparts

theorem subsingleton_ways_replicate (hafter : recursive ∉ after) (k : Nat) :
    (ways (List.replicate k recursive ++ after) names).Subsingleton := by
  match k with
  | 0 =>
    intro taken h taken' h'
    exact (MatchesTaking.of_not_mem hafter h).1.trans (MatchesTaking.of_not_mem hafter h').1.symm
  | 1 =>
    -- how many directories are taken is what the other parts leave
    have hhead : after.head? ≠ some recursive := fun h => hafter (List.mem_of_mem_head? h)
    have hall : ∀ taken ∈ ways (recursive :: after) names,
        taken = [names.length - after.length] := by
      intro taken h
      obtain ⟨above, below, rest, hnames, -, rfl, hrest⟩ :=
        (MatchesTaking.directories_iff hhead).mp h
      obtain ⟨rfl, hlength⟩ := hrest.of_not_mem hafter
      simp [hnames, hlength]
    intro taken h taken' h'
    rw [hall taken h, hall taken' h']
  | k + 2 =>
    have hbefore := subsingleton_ways_replicate hafter (k + 1)
    simp only [List.replicate_succ, List.cons_append, ways_again] at hbefore ⊢
    exact hbefore.image _

/-- Names match in one way at most if nothing stands between two `**`. -/
theorem subsingleton_ways (h : Together parts) : (ways parts names).Subsingleton := by
  obtain ⟨before, k, after, rfl, hbefore, hafter⟩ := h
  induction before generalizing names with
  | nil => exact subsingleton_ways_replicate hafter k
  | cons part before ih =>
    obtain ⟨hpart, hbefore⟩ := List.ne_and_not_mem_of_not_mem_cons hbefore
    cases names with
    | nil => exact ways_cons_nil ▸ Set.subsingleton_empty
    | cons name names =>
      rw [List.cons_append, ways_one (Ne.symm hpart)]
      exact (ih hbefore).anti (Set.sep_subset _ _)

end JsonLayout.Glob
