import JsonLayout.Glob.Pattern
import Mathlib.Data.List.TakeWhile

/-!
# What one component stands for

The meaning of the text of one component, and that what it is compiled to means the same.
-/

namespace JsonLayout.Glob

variable {c : Char} {s inside pattern after name : List Char} {ts : List Token}

/-! The meaning of the text. -/

/-- The character is in a class of this text. A dash between two characters stands for all from one
to the other. -/
inductive InClass : List Char → Char → Prop
  | range {a b c : Char} {rest : List Char} (h : a ≤ c ∧ c ≤ b) : InClass (a :: '-' :: b :: rest) c
  | afterRange {a b c : Char} {rest : List Char} (h : InClass rest c) :
      InClass (a :: '-' :: b :: rest) c
  | single {a : Char} {rest : List Char} (hrest : ∀ b tail, rest ≠ '-' :: b :: tail) :
      InClass (a :: rest) a
  | afterSingle {a c : Char} {rest : List Char} (hrest : ∀ b tail, rest ≠ '-' :: b :: tail)
      (h : InClass rest c) : InClass (a :: rest) c

/-- A class holds something, and only its first character may be a bracket that closes. -/
def ClassText (s : List Char) : Prop := s ≠ [] ∧ ']' ∉ s.tail

def wildcards : List Char := ['?', '*', '[']

/-- The name is one that the component stands for. -/
inductive NameMatches : List Char → List Char → Prop
  | nil : NameMatches [] []
  | anyChar {c : Char} {pattern name : List Char} (h : NameMatches pattern name) :
      NameMatches ('?' :: pattern) (c :: name)
  | anySequence {pattern name taken rest : List Char} (hname : name = taken ++ rest)
      (h : NameMatches pattern rest) : NameMatches ('*' :: pattern) name
  | oneOf {c : Char} {pattern name inside rest : List Char}
      (hpattern : pattern = inside ++ ']' :: rest) (hclass : ClassText inside)
      (hfirst : inside.head? ≠ some '!') (hc : InClass inside c) (h : NameMatches rest name) :
      NameMatches ('[' :: pattern) (c :: name)
  | noneOf {c : Char} {pattern name inside rest : List Char}
      (hpattern : pattern = '!' :: inside ++ ']' :: rest) (hclass : ClassText inside)
      (hc : ¬ InClass inside c) (h : NameMatches rest name) : NameMatches ('[' :: pattern) (c :: name)
  | char {c : Char} {pattern name : List Char} (hc : c ∉ wildcards) (h : NameMatches pattern name) :
      NameMatches (c :: pattern) (c :: name)

/-! Classes. -/

theorem inClass_iff : InClass s c ↔ (ClassItem.listOf s).any (·.contains c) = true := by
  fun_induction ClassItem.listOf s with
  | case1 a b rest ih =>
    rw [List.any_cons, Bool.or_eq_true, ← ih]
    simp only [ClassItem.contains, Bool.and_eq_true, decide_eq_true_eq]
    constructor
    · intro h
      cases h with
      | range h => exact .inl h
      | afterRange h => exact .inr h
      | single hrest => exact absurd rfl (hrest b rest)
      | afterSingle hrest => exact absurd rfl (hrest b rest)
    · rintro (h | h)
      · exact .range h
      · exact .afterRange h
  | case2 a rest hrest ih =>
    have hrest : ∀ b tail, rest ≠ '-' :: b :: tail := hrest
    rw [List.any_cons, Bool.or_eq_true, ← ih]
    simp only [ClassItem.contains, decide_eq_true_eq]
    constructor
    · intro h
      cases h with
      | range => exact absurd rfl (hrest _ _)
      | afterRange => exact absurd rfl (hrest _ _)
      | single => exact .inl rfl
      | afterSingle _ h => exact .inr h
    · rintro (rfl | h)
      · exact .single hrest
      · exact .afterSingle hrest h
  | case3 => exact ⟨(nomatch ·), (nomatch ·)⟩

theorem exists_of_classBody? (h : Token.classBody? s = some (inside, after)) :
    s = inside ++ ']' :: after ∧ ClassText inside := by
  cases s with
  | nil => cases h
  | cons c rest =>
    simp only [Token.classBody?] at h
    split at h
    · contradiction
    · rename_i close tail hdrop
      have hsplit := List.takeWhile_append_dropWhile (p := (· ≠ ']')) (l := rest)
      have htail : rest.dropWhile (· ≠ ']') = close :: tail := by
        have hleft : (rest.takeWhile (· ≠ ']') ++ rest.dropWhile (· ≠ ']')).drop
          (rest.takeWhile (· ≠ ']')).length = rest.dropWhile (· ≠ ']') := List.drop_left
        rw [← hleft, hsplit, hdrop]
      have hclose := List.head_dropWhile_not (· ≠ ']') (htail ▸ List.cons_ne_nil close tail)
      simp only [htail, List.head_cons, decide_eq_false_iff_not, not_not] at hclose hsplit
      subst hclose
      simp only [Option.some.injEq, Prod.mk.injEq] at h
      obtain ⟨rfl, rfl⟩ := h
      refine ⟨congrArg (c :: ·) hsplit.symm, by simp, fun hmem => ?_⟩
      simpa using List.mem_takeWhile_imp hmem

theorem ClassText.classBody? (h : ClassText inside) (after : List Char) :
    Token.classBody? (inside ++ ']' :: after) = some (inside, after) := by
  obtain ⟨c, rest, rfl⟩ := List.exists_cons_of_ne_nil h.1
  have hopen : ∀ d ∈ rest, decide (d ≠ ']') = true := fun d hd =>
    decide_eq_true fun hclose => h.2 (hclose ▸ hd)
  have htake : (rest ++ ']' :: after).takeWhile (· ≠ ']') = rest := by
    rw [List.takeWhile_append_of_pos hopen]
    simp
  simp only [List.cons_append, Token.classBody?, htake, List.drop_left]

theorem ClassText.append_inj {inside' pattern' : List Char} (h : ClassText inside)
    (h' : ClassText inside') (heq : inside ++ ']' :: pattern = inside' ++ ']' :: pattern') :
    inside = inside' ∧ pattern = pattern' := by
  have hbody := h.classBody? pattern
  rw [heq, h'.classBody? pattern'] at hbody
  cases hbody
  exact ⟨rfl, rfl⟩

/-! What the text is compiled to. -/

theorem exists_of_map_eq_ok {α β ε : Type} {f : α → β} {x : Except ε α} {b : β}
    (h : f <$> x = .ok b) : ∃ a, x = .ok a ∧ f a = b := by
  cases x with
  | error e => contradiction
  | ok a => exact ⟨a, rfl, Except.ok.inj h⟩

inductive Compiles : List Char → List Token → Prop
  | nil : Compiles [] []
  | anyChar {s : List Char} {ts : List Token} (h : Compiles s ts) :
      Compiles ('?' :: s) (.anyChar :: ts)
  | anySequence {s : List Char} {ts : List Token} (h : Compiles s ts) :
      Compiles ('*' :: s) (.anySequence :: ts)
  | oneOf {inside s : List Char} {ts : List Token} (hclass : ClassText inside)
      (hfirst : inside.head? ≠ some '!') (h : Compiles s ts) :
      Compiles ('[' :: (inside ++ ']' :: s)) (.oneOf (ClassItem.listOf inside) :: ts)
  | noneOf {inside s : List Char} {ts : List Token} (hclass : ClassText inside)
      (h : Compiles s ts) :
      Compiles ('[' :: '!' :: (inside ++ ']' :: s)) (.noneOf (ClassItem.listOf inside) :: ts)
  | char {c : Char} {s : List Char} {ts : List Token} (hc : c ∉ wildcards) (h : Compiles s ts) :
      Compiles (c :: s) (.char c :: ts)

/-- Inside of a component, two stars are not recursive. -/
theorem Compiles.of_previous (hslash : c ≠ '/') (h : Compiles s ts ∨
    s = ['*', '*'] ∧ ts = [.anyDirectories] ∧ (some c).all (· = '/') = true) : Compiles s ts :=
  h.resolve_right fun h => hslash (by simpa using h.2.2)

theorem compiles_of_compileFrom {position : Nat} {previous : Option Char} (hslash : '/' ∉ s)
    (h : Token.compileFrom position previous s = .ok ts) :
    Compiles s ts ∨
      s = ['*', '*'] ∧ ts = [.anyDirectories] ∧ previous.all (· = '/') = true := by
  fun_induction Token.compileFrom position previous s generalizing ts with
  | case1 =>
    cases h
    exact .inl .nil
  | case2 position previous rest ih =>
    obtain ⟨ts, hts, rfl⟩ := exists_of_map_eq_ok h
    exact .inl (.anyChar (.of_previous (by decide) (ih (by simp_all) hts)))
  | case4 position previous hprevious =>
    cases h
    exact .inr ⟨rfl, rfl, hprevious⟩
  | case5 => simp at hslash
  | case8 position previous rest _ _ ih =>
    obtain ⟨ts, hts, rfl⟩ := exists_of_map_eq_ok h
    exact .inl (.anySequence (.of_previous (by decide) (ih (by simp_all) hts)))
  | case9 position previous rest inside after hbody ih =>
    obtain ⟨rfl, hclass⟩ := exists_of_classBody? hbody
    obtain ⟨ts, hts, rfl⟩ := exists_of_map_eq_ok h
    exact .inl (.noneOf hclass (.of_previous (by decide) (ih (by simp_all) hts)))
  | case11 position previous rest hfirst inside after hbody ih =>
    obtain ⟨rfl, hclass⟩ := exists_of_classBody? hbody
    obtain ⟨ts, hts, rfl⟩ := exists_of_map_eq_ok h
    have hhead : inside.head? ≠ some '!' := by
      obtain ⟨d, tail, rfl⟩ := List.exists_cons_of_ne_nil hclass.1
      simpa using fun hd => hfirst _ (congrArg (· :: _) hd)
    exact .inl (.oneOf hclass hhead (.of_previous (by decide) (ih (by simp_all) hts)))
  | case13 position previous d rest hquestion _ _ hstar _ hbracket ih =>
    obtain ⟨ts, hts, rfl⟩ := exists_of_map_eq_ok h
    have hplain : d ∉ wildcards := by
      simpa [wildcards] using ⟨hquestion, hstar, hbracket⟩
    exact .inl (.char hplain (.of_previous (by rintro rfl; simp at hslash) (ih (by simp_all) hts)))
  | case3 | case6 | case7 | case10 | case12 => contradiction

theorem mem_ends {α : Type} {l e : List α} : e ∈ ends l ↔ ∃ taken, l = taken ++ e := by
  induction l with
  | nil => simp [ends]
  | cons a l ih =>
    rw [ends, List.mem_cons, ih]
    constructor
    · rintro (rfl | ⟨taken, rfl⟩)
      · exact ⟨[], rfl⟩
      · exact ⟨a :: taken, rfl⟩
    · rintro ⟨taken, htaken⟩
      cases taken with
      | nil => exact .inl htaken.symm
      | cons b taken =>
        cases htaken
        exact .inr ⟨taken, rfl⟩

/-! One step into the text, and one into the tokens. -/

theorem nameMatches_anyChar_iff : NameMatches ('?' :: pattern) name ↔
    ∃ c rest, name = c :: rest ∧ NameMatches pattern rest := by
  constructor
  · intro h
    cases h with
    | anyChar h => exact ⟨_, _, rfl, h⟩
    | char hc => simp [wildcards] at hc
  · rintro ⟨c, rest, rfl, h⟩
    exact .anyChar h

theorem nameMatches_anySequence_iff : NameMatches ('*' :: pattern) name ↔
    ∃ taken rest, name = taken ++ rest ∧ NameMatches pattern rest := by
  constructor
  · intro h
    cases h with
    | anySequence hname h => exact ⟨_, _, hname, h⟩
    | char hc => simp [wildcards] at hc
  · rintro ⟨taken, rest, hname, h⟩
    exact .anySequence hname h

theorem nameMatches_oneOf_iff (hclass : ClassText inside) (hfirst : inside.head? ≠ some '!') :
    NameMatches ('[' :: (inside ++ ']' :: pattern)) name ↔
      ∃ c rest, name = c :: rest ∧ InClass inside c ∧ NameMatches pattern rest := by
  constructor
  · intro h
    cases h with
    | oneOf hpattern hclass' _ hc h =>
      obtain ⟨rfl, rfl⟩ := hclass.append_inj hclass' hpattern
      exact ⟨_, _, rfl, hc, h⟩
    | noneOf hpattern =>
      obtain ⟨d, tail, rfl⟩ := List.exists_cons_of_ne_nil hclass.1
      exact absurd (congrArg some (List.cons.inj hpattern).1) hfirst
    | char hc => simp [wildcards] at hc
  · rintro ⟨c, rest, rfl, hc, h⟩
    exact .oneOf rfl hclass hfirst hc h

theorem nameMatches_noneOf_iff (hclass : ClassText inside) :
    NameMatches ('[' :: '!' :: (inside ++ ']' :: pattern)) name ↔
      ∃ c rest, name = c :: rest ∧ ¬ InClass inside c ∧ NameMatches pattern rest := by
  constructor
  · intro h
    cases h with
    | @oneOf _ _ _ inside' _ hpattern hclass' hfirst' =>
      obtain ⟨d, tail, rfl⟩ := List.exists_cons_of_ne_nil hclass'.1
      exact absurd (congrArg some (List.cons.inj hpattern).1.symm) hfirst'
    | noneOf hpattern hclass' hc h =>
      obtain ⟨rfl, rfl⟩ := hclass.append_inj hclass' (List.cons.inj hpattern).2
      exact ⟨_, _, rfl, hc, h⟩
    | char hc => simp [wildcards] at hc
  · rintro ⟨c, rest, rfl, hc, h⟩
    exact .noneOf rfl hclass hc h

theorem nameMatches_char_iff (hc : c ∉ wildcards) : NameMatches (c :: pattern) name ↔
    ∃ d rest, name = d :: rest ∧ d = c ∧ NameMatches pattern rest := by
  constructor
  · intro h
    cases h with
    | char _ h => exact ⟨_, _, rfl, rfl, h⟩
    | anyChar | anySequence | oneOf | noneOf => simp [wildcards] at hc
  · rintro ⟨d, rest, rfl, rfl, h⟩
    exact .char hc h

/-- A text without wildcards stands for itself. -/
theorem NameMatches.refl (h : ∀ c ∈ s, c ∉ wildcards) : NameMatches s s := by
  induction s with
  | nil => exact .nil
  | cons c s ih =>
    obtain ⟨hc, hs⟩ := List.forall_mem_cons.mp h
    exact .char hc (ih hs)

namespace Token

theorem listMatches_one_iff {t : Token} (ht : t.takesMany = false) :
    listMatches (t :: ts) name = true ↔
      ∃ c rest, name = c :: rest ∧ t.takes c = true ∧ listMatches ts rest = true := by
  cases name with
  | nil => simp [listMatches, ht]
  | cons c rest =>
    simp only [listMatches, ht, Bool.false_eq_true, if_false, Bool.and_eq_true]
    constructor
    · intro h
      exact ⟨c, rest, rfl, h⟩
    · rintro ⟨d, tail, hname, h⟩
      cases hname
      exact h

theorem listMatches_anySequence_iff : listMatches (.anySequence :: ts) name = true ↔
    ∃ taken rest, name = taken ++ rest ∧ listMatches ts rest = true := by
  simp only [listMatches, takesMany, if_true, List.any_eq_true]
  constructor
  · rintro ⟨rest, hrest, h⟩
    obtain ⟨taken, rfl⟩ := mem_ends.mp hrest
    exact ⟨taken, rest, rfl, h⟩
  · rintro ⟨taken, rest, rfl, h⟩
    exact ⟨rest, mem_ends.mpr ⟨taken, rfl⟩, h⟩

end Token

/-- A component means what its tokens stand for. -/
theorem Compiles.nameMatches_iff (h : Compiles s ts) :
    NameMatches s name ↔ Token.listMatches ts name = true := by
  induction h generalizing name with
  | nil =>
    rw [Token.listMatches, List.isEmpty_iff]
    constructor
    · rintro ⟨⟩
      rfl
    · rintro rfl
      exact .nil
  | anyChar _ ih =>
    rw [nameMatches_anyChar_iff, Token.listMatches_one_iff rfl]
    simp [ih, Token.takes]
  | anySequence _ ih =>
    rw [nameMatches_anySequence_iff, Token.listMatches_anySequence_iff]
    simp [ih]
  | oneOf hclass hfirst _ ih =>
    rw [nameMatches_oneOf_iff hclass hfirst, Token.listMatches_one_iff rfl]
    simp [ih, Token.takes, inClass_iff]
  | noneOf hclass _ ih =>
    rw [nameMatches_noneOf_iff hclass, Token.listMatches_one_iff rfl]
    simp [ih, Token.takes, inClass_iff]
  | char hc _ ih =>
    rw [nameMatches_char_iff hc, Token.listMatches_one_iff rfl]
    simp [ih, Token.takes]

/-! Kinds of components. -/

theorem Compiles.anyDirectories_not_mem (h : Compiles s ts) : .anyDirectories ∉ ts := by
  induction h with
  | nil => simp
  | _ => simp_all

theorem Compiles.literal?_eq_some_iff {literal : List Char} (h : Compiles s ts) :
    Token.literal? ts = some literal ↔ literal = s ∧ ∀ c ∈ s, c ∉ wildcards := by
  induction h generalizing literal with
  | nil => simp [Token.literal?, eq_comm]
  | @char c s ts hc _ ih =>
    rw [Token.literal?, Option.map_eq_map, Option.map_eq_some_iff]
    simp only [ih, List.forall_mem_cons]
    constructor
    · rintro ⟨_, ⟨rfl, hs⟩, rfl⟩
      exact ⟨rfl, hc, hs⟩
    · rintro ⟨rfl, -, hs⟩
      exact ⟨s, ⟨rfl, hs⟩, rfl⟩
  | anyChar | anySequence | oneOf | noneOf => simp [Token.literal?, wildcards]

theorem Token.listMatches_of_literal? {literal : List Char} (h : literal? ts = some literal) :
    listMatches ts name = true ↔ name = literal := by
  induction ts generalizing name literal with
  | nil =>
    cases h
    rw [listMatches, List.isEmpty_iff]
  | cons t ts ih =>
    cases t with
    | char c =>
      rw [literal?, Option.map_eq_map, Option.map_eq_some_iff] at h
      obtain ⟨rest, hrest, rfl⟩ := h
      rw [listMatches_one_iff rfl]
      simp [ih hrest, takes]
    | _ => contradiction

theorem Compiles.component_cases (h : Compiles s ts) :
    Component.ofTokens ts = .name (String.ofList s) ∧ (∀ c ∈ s, c ∉ wildcards) ∨
      Component.ofTokens ts = .wild ts ∧ ∃ c ∈ s, c ∈ wildcards := by
  rw [Component.ofTokens, if_neg (by simpa using h.anyDirectories_not_mem)]
  cases hliteral : Token.literal? ts with
  | some literal =>
    obtain ⟨rfl, hs⟩ := h.literal?_eq_some_iff.mp hliteral
    exact .inl ⟨rfl, hs⟩
  | none =>
    refine .inr ⟨rfl, ?_⟩
    by_contra hs
    simp only [not_exists, not_and] at hs
    rw [h.literal?_eq_some_iff.mpr ⟨rfl, hs⟩] at hliteral
    contradiction

/-- A name is accepted by the component that a text is compiled to if the text means it. -/
theorem Compiles.accepts_iff {name : String} (h : Compiles s ts) :
    (Component.ofTokens ts).accepts name = true ↔ NameMatches s name.toList := by
  rw [h.nameMatches_iff]
  rcases h.component_cases with ⟨hname, hs⟩ | ⟨hwild, -⟩
  · rw [hname, Token.listMatches_of_literal? (h.literal?_eq_some_iff.mpr ⟨rfl, hs⟩),
      Component.accepts, decide_eq_true_iff, ← String.toList_inj, String.toList_ofList]
  · rw [hwild, Component.accepts, Token.listAccepts_eq]

end JsonLayout.Glob
