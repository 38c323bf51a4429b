import JsonLayout.Proofs.Json.Agreement
import JsonLayout.Proofs.Json.RoundTrip
import Mathlib.Data.List.Chain

/-!
# A text cut into its tokens

A text that can be formatted is its tokens with gaps around them, and there is one way only to cut
it: a string ends at its own last quote, and a number or a literal where some other character comes,
since two scalars never touch.
-/

namespace JsonLayout.Json

open Text (isBlank)

/-- The text is these tokens, each with the gap that follows it. Scalars that touch would be one
token, or none. -/
inductive Pieces : List (List Char × List Char) → List Char → Prop
  | nil : Pieces [] []
  | cons {token gap s : List Char} {rest : List (List Char × List Char)} (htoken : Token token)
      (hgap : ∀ c ∈ gap, isBlank c = true) (h : Pieces rest s)
      (apart : gap = [] → Scalar token → ∀ next ∈ rest.head?, ¬ Scalar next.1) :
      Pieces ((token, gap) :: rest) (token ++ gap ++ s)

/-- The text is cut into the gap before its first token, and its tokens with the gaps after them. -/
inductive Tokenized (lead : List Char) (pieces : List (List Char × List Char)) :
    List Char → Prop
  | intro {s : List Char} (hlead : ∀ c ∈ lead, isBlank c = true) (h : Pieces pieces s) :
      Tokenized lead pieces (lead ++ s)

/-! How far a token goes. -/

/-- The characters that numbers and literals are made of. -/
def WordChar (c : Char) : Prop := NumberChar c ∨ c ∈ ['n', 'u', 'l', 't', 'r', 'f', 'a', 's', 'e']

theorem WordChar.isBlank_eq_false {c : Char} (h : WordChar c) : isBlank c = false := by
  rcases h with h | h
  · exact h.isBlank_eq_false
  · simp only [List.mem_cons, List.not_mem_nil, or_false] at h
    rcases h with rfl | rfl | rfl | rfl | rfl | rfl | rfl | rfl | rfl <;> rfl

theorem WordChar.not_mem {c : Char} (h : WordChar c) :
    c ∉ ['"', '[', ']', '{', '}', ':', ','] := by
  rcases h with (h | h) | h
  · simp only [List.mem_cons, List.not_mem_nil, or_false, not_or]
    refine ⟨?_, ?_, ?_, ?_, ?_, ?_, ?_⟩ <;> exact h.ne_of_not (by unfold Digit; decide)
  all_goals
    simp only [List.mem_cons, List.not_mem_nil, or_false] at h
    rcases h with rfl | rfl | rfl | rfl | rfl | rfl | rfl | rfl | rfl <;> decide

/-- Numbers and literals. -/
def Word (s : List Char) : Prop := s ≠ [] ∧ ∀ c ∈ s, WordChar c

theorem Scalar.word_or_quoted {s : List Char} (h : Scalar s) : Word s ∨ Quoted s := by
  cases h with
  | number h => exact .inl ⟨h.ne_nil, fun c hc => .inl (h.numberChar c hc)⟩
  | string h => exact .inr h
  | null | «true» | «false» => exact .inl ⟨by simp, by simp [WordChar]⟩

variable {s s' r r' token token' : List Char}

/-- Where a run of such characters ends is told by the character after it. -/
theorem eq_of_append_eq {p : Char → Prop} (hs : ∀ c ∈ s, p c) (hr : ∀ c ∈ r.head?, ¬ p c)
    (hs' : ∀ c ∈ s', p c) (hr' : ∀ c ∈ r'.head?, ¬ p c) (h : s ++ r = s' ++ r') :
    s = s' ∧ r = r' := by
  have hnil : ∀ {u t : List Char}, (∀ c ∈ u, p c) → (∀ c ∈ (u ++ t).head?, ¬ p c) → u = [] := by
    intro u t hu ht
    cases u with
    | nil => rfl
    | cons c u => exact absurd (hu c (by simp)) (ht c rfl)
  rcases List.append_eq_append_iff.mp h with ⟨u, rfl, rfl⟩ | ⟨u, rfl, rfl⟩
  · obtain rfl : u = [] := hnil (fun c hc => hs' c (by simp [hc])) hr
    simp
  · obtain rfl : u = [] := hnil (fun c hc => hs c (by simp [hc])) hr'
    simp

theorem Letter.inside_of_prefix {p l : List Char} (h : Letter l) (hp : p <+: l) :
    Zone.inside.after p ≠ .outside := by
  cases h with
  | plain _ quote backslash =>
    simp only [List.prefix_cons_iff, List.prefix_nil] at hp
    rcases hp with rfl | ⟨t, rfl, rfl⟩ <;> simp [Zone.after, Zone.next, quote, backslash]
  | escape =>
    simp only [List.prefix_cons_iff, List.prefix_nil] at hp
    rcases hp with rfl | ⟨t, rfl, rfl | ⟨t, rfl, rfl⟩⟩ <;> simp [Zone.after, Zone.next]
  | codePoint ha hb hc hd =>
    rcases List.prefix_cons_iff.mp hp with rfl | ⟨t, rfl, hletter⟩
    · simp [Zone.after]
    rcases List.prefix_cons_iff.mp hletter with rfl | ⟨t, rfl, hdigits⟩
    · simp [Zone.after, Zone.next]
    have hkeeps : Zone.inside.Keeps t := .inside_of_forall fun x hx => by
      have hmem := hdigits.subset hx
      simp only [List.mem_cons, List.not_mem_nil, or_false] at hmem
      rcases hmem with rfl | rfl | rfl | rfl <;>
        exact HexDigit.ne_quote_and_ne_backslash (by assumption)
    have hafter : Zone.inside.after ('\\' :: 'u' :: t) = Zone.inside.after t := rfl
    rw [hafter, hkeeps.2]
    simp

/-- No quote inside of a string closes it. -/
theorem Letters.inside_of_prefix {p : List Char} (h : Letters s) (hp : p <+: s) :
    Zone.inside.after p ≠ .outside := by
  induction h generalizing p with
  | nil =>
    obtain rfl := List.prefix_nil.mp hp
    simp [Zone.after]
  | @snoc s l before last ih =>
    obtain ⟨q, hq⟩ := hp
    rcases List.append_eq_append_iff.mp hq with ⟨u, rfl, -⟩ | ⟨u, rfl, hu⟩
    · exact ih (List.prefix_append p u)
    · rw [Zone.after_append, before.keeps.2]
      exact last.inside_of_prefix ⟨q, hu.symm⟩

/-- A string goes to its own last quote and not to a later one. -/
theorem Quoted.eq_nil_of_append (h : Quoted s) (hlong : Quoted (s ++ r)) : r = [] := by
  cases h with
  | @quotes l letters =>
    generalize htext : '"' :: l ++ ['"'] ++ r = text at hlong
    cases hlong with
    | @quotes l' letters' =>
      rcases List.eq_nil_or_concat r with rfl | ⟨u, d, rfl⟩
      · rfl
      · have hinner : l ++ ['"'] ++ u = l' := by
          have hcut : l ++ ['"'] ++ u ++ [d] = l' ++ ['"'] := by simpa using htext
          exact (List.append_inj' hcut rfl).1
        have hclosed : Zone.inside.after (l ++ ['"']) = .outside := by
          rw [Zone.after_append, letters.keeps.2]
          rfl
        exact absurd hclosed (letters'.inside_of_prefix ⟨u, hinner⟩)

/-- What a token is can be told from its first character. -/
theorem Token.kind_of_head? {c : Char} (h : Token s) (hc : s.head? = some c) :
    (WordChar c → Word s ∧ Scalar s) ∧ (c = '"' → Quoted s) ∧
      (c ∈ ['[', ']', '{', '}', ':', ','] → s = [c]) := by
  cases h with
  | scalar h =>
    rcases h.word_or_quoted with hword | hquoted
    · have hchar : WordChar c := hword.2 c (List.mem_of_mem_head? hc)
      refine ⟨fun _ => ⟨hword, h⟩, fun hquote => ?_, fun hmark => ?_⟩
      · exact absurd (by simp [hquote]) hchar.not_mem
      · exact absurd (List.mem_cons_of_mem _ hmark) hchar.not_mem
    · have hquote : c = '"' := by
        cases hquoted with
        | quotes => exact (Option.some.inj hc).symm
      subst hquote
      refine ⟨fun hchar => absurd (by simp) hchar.not_mem, fun _ => hquoted, fun hmark => ?_⟩
      simp at hmark
  | @mark d hmark =>
    obtain rfl : d = c := Option.some.inj hc
    refine ⟨fun hchar => absurd (List.mem_cons_of_mem _ hmark) hchar.not_mem, fun hquote => ?_,
      fun _ => rfl⟩
    subst hquote
    simp at hmark

theorem Token.exists_head? (h : Token s) : ∃ c, s.head? = some c ∧ isBlank c = false ∧
    (WordChar c ∨ c = '"' ∨ c ∈ ['[', ']', '{', '}', ':', ',']) := by
  cases h with
  | scalar h =>
    rcases h.word_or_quoted with ⟨hne, hword⟩ | hquoted
    · obtain ⟨c, s, rfl⟩ := List.exists_cons_of_ne_nil hne
      have hchar : WordChar c := hword c (by simp)
      exact ⟨c, rfl, hchar.isBlank_eq_false, .inl hchar⟩
    · cases hquoted with
      | quotes => exact ⟨'"', rfl, rfl, .inr (.inl rfl)⟩
  | @mark c hmark =>
    refine ⟨c, rfl, ?_, .inr (.inr hmark)⟩
    simp only [List.mem_cons, List.not_mem_nil, or_false] at hmark
    rcases hmark with rfl | rfl | rfl | rfl | rfl | rfl <;> rfl

/-- Two tokens at the front of a text are the same if scalars end where they have to. -/
theorem Token.eq_of_append_eq (h : Token token) (h' : Token token')
    (hr : Scalar token → ∀ c ∈ r.head?, ¬ WordChar c)
    (hr' : Scalar token' → ∀ c ∈ r'.head?, ¬ WordChar c) (heq : token ++ r = token' ++ r') :
    token = token' ∧ r = r' := by
  obtain ⟨c, hc, -, hkind⟩ := h.exists_head?
  have hc' : token'.head? = some c := by
    obtain ⟨d, hd, -⟩ := h'.exists_head?
    have hheads : (token ++ r).head? = (token' ++ r').head? := by rw [heq]
    rw [List.head?_append, List.head?_append, hc, hd] at hheads
    rw [hd, ← Option.some.inj hheads]
  obtain ⟨hword, hquoted, hmark⟩ := h.kind_of_head? hc
  obtain ⟨hword', hquoted', hmark'⟩ := h'.kind_of_head? hc'
  rcases hkind with hkind | hkind | hkind
  · obtain ⟨⟨-, hchars⟩, hscalar⟩ := hword hkind
    obtain ⟨⟨-, hchars'⟩, hscalar'⟩ := hword' hkind
    exact Json.eq_of_append_eq hchars (hr hscalar) hchars' (hr' hscalar') heq
  · rcases List.append_eq_append_iff.mp heq with ⟨u, rfl, rfl⟩ | ⟨u, rfl, rfl⟩
    · obtain rfl := (hquoted hkind).eq_nil_of_append (hquoted' hkind)
      simp
    · obtain rfl := (hquoted' hkind).eq_nil_of_append (hquoted hkind)
      simp
  · rw [hmark hkind, hmark' hkind] at heq ⊢
    exact ⟨rfl, (List.cons.inj heq).2⟩

namespace Pieces

variable {pieces pieces' : List (List Char × List Char)}

theorem not_blank (h : Pieces pieces s) : ∀ c ∈ s.head?, ¬ isBlank c = true := by
  cases h with
  | nil => simp
  | cons htoken =>
    obtain ⟨c, hc, hblank, -⟩ := htoken.exists_head?
    simp [List.head?_append, hc, hblank]

theorem not_wordChar (h : Pieces pieces s) (hfirst : ∀ piece ∈ pieces.head?, ¬ Scalar piece.1) :
    ∀ c ∈ s.head?, ¬ WordChar c := by
  cases h with
  | nil => simp
  | @cons token gap s rest htoken =>
    obtain ⟨c, hc, -, -⟩ := htoken.exists_head?
    intro d hd hchar
    obtain rfl : c = d := by simpa [List.head?_append, hc] using hd
    exact hfirst (token, gap) rfl ((htoken.kind_of_head? hc).1 hchar).2

/-- After a scalar comes a gap, or a token that is no scalar. -/
theorem not_wordChar_of_apart {gap : List Char} (hgap : ∀ c ∈ gap, isBlank c = true)
    (h : Pieces pieces s) (hfirst : gap = [] → ∀ piece ∈ pieces.head?, ¬ Scalar piece.1) :
    ∀ c ∈ (gap ++ s).head?, ¬ WordChar c := by
  cases gap with
  | nil => exact h.not_wordChar (hfirst rfl)
  | cons g gap =>
    intro c hc hchar
    obtain rfl : g = c := Option.some.inj hc
    have hblank := hgap g (by simp)
    rw [hchar.isBlank_eq_false] at hblank
    contradiction

/-- A text is cut into tokens and gaps in one way only. -/
theorem unique (h : Pieces pieces s) (h' : Pieces pieces' s) : pieces = pieces' := by
  induction h generalizing pieces' with
  | nil =>
    generalize htext : ([] : List Char) = text at h'
    cases h' with
    | nil => rfl
    | cons htoken =>
      obtain ⟨c, hc, -⟩ := htoken.exists_head?
      simp_all
  | @cons token gap s rest htoken hgap h apart ih =>
    generalize htext : token ++ gap ++ s = text at h'
    cases h' with
    | nil =>
      obtain ⟨c, hc, -⟩ := htoken.exists_head?
      simp_all
    | @cons token' gap' s' rest' htoken' hgap' hrest' apart' =>
      rw [List.append_assoc, List.append_assoc] at htext
      obtain ⟨rfl, hafter⟩ := htoken.eq_of_append_eq htoken'
        (fun hscalar => not_wordChar_of_apart hgap h fun hnil => apart hnil hscalar)
        (fun hscalar => not_wordChar_of_apart hgap' hrest' fun hnil => apart' hnil hscalar) htext
      obtain ⟨rfl, rfl⟩ :=
        eq_of_append_eq hgap h.not_blank hgap' hrest'.not_blank hafter
      rw [ih hrest']

end Pieces

theorem Tokenized.unique {lead lead' : List Char} {pieces pieces' : List (List Char × List Char)}
    (h : Tokenized lead pieces s) (h' : Tokenized lead' pieces' s) :
    lead = lead' ∧ pieces = pieces' := by
  cases h with
  | @intro t hlead h =>
    generalize htext : lead ++ t = text at h'
    cases h' with
    | intro hlead' h' =>
      obtain ⟨rfl, rfl⟩ := eq_of_append_eq hlead h.not_blank hlead' h'.not_blank htext
      exact ⟨rfl, h.unique h'⟩

theorem Pieces.text {pieces : List (List Char × List Char)} (h : Pieces pieces s) :
    (pieces.flatMap fun (token, gap) => token ++ gap) = s := by
  induction h with
  | nil => rfl
  | cons _ _ _ _ ih => rw [List.flatMap_cons, ih]

theorem Tokenized.text {lead : List Char} {pieces : List (List Char × List Char)}
    (h : Tokenized lead pieces s) : (lead ++ pieces.flatMap fun (token, gap) => token ++ gap) = s := by
  cases h with
  | intro _ h => rw [h.text]

/-! Texts of the grammar can be cut. -/

/-- No scalar comes right after another one. -/
def Apart (tokens : List (List Char)) : Prop :=
  tokens.IsChain fun token next => ¬ (Scalar token ∧ Scalar next)

theorem not_scalar_mark {c : Char} (hc : c ∈ ['[', ']', '{', '}', ':', ',']) : ¬ Scalar [c] := by
  intro h
  rcases h.word_or_quoted with hword | hquoted
  · exact (hword.2 c (by simp)).not_mem (List.mem_cons_of_mem _ hc)
  · generalize hs : [c] = s at hquoted
    cases hquoted with
    | quotes => simp at hs

namespace Apart

theorem nil : Apart [] := List.IsChain.nil

theorem single (token : List Char) : Apart [token] := List.IsChain.singleton token

/-- Tokens may come before a mark and after it. -/
theorem mark {tokens tokens' : List (List Char)} {c : Char} (h : Apart tokens)
    (hc : c ∈ ['[', ']', '{', '}', ':', ',']) (h' : Apart tokens') :
    Apart (tokens ++ [c] :: tokens') := by
  have hmark := not_scalar_mark hc
  refine List.isChain_append.mpr ⟨h, List.isChain_cons.mpr ⟨?_, h'⟩, ?_⟩
  · exact fun _ _ hboth => hmark hboth.1
  · intro _ _ next hnext hboth
    obtain rfl : [c] = next := Option.some.inj hnext
    exact hmark hboth.2

end Apart

theorem Spelled.apart {phrase : Phrase} (h : Spelled phrase s) : Apart phrase.tokens := by
  induction h with
  | scalar => exact .single _
  | emptyArray => exact .mark (.single ['[']) (by simp) .nil
  | array h ih =>
    rw [Phrase.tokens_array h.items_ne_nil]
    exact .mark (.mark .nil (c := '[') (by simp) ih) (by simp) .nil
  | emptyObject => exact .mark (.single ['{']) (by simp) .nil
  | object h ih =>
    rw [Phrase.tokens_object h.members_ne_nil]
    exact .mark (.mark .nil (c := '{') (by simp) ih) (by simp) .nil
  | element _ _ _ ih => exact ih
  | firstItem _ ih => simpa [Phrase.tokens, commaItems] using ih
  | nextItem h _ ih iht =>
    rw [Phrase.tokens_nextItem h.items_ne_nil]
    exact .mark ih (by simp) iht
  | member _ _ _ _ ih => exact .mark (.single _) (by simp) ih
  | firstMember _ ih => simpa [Phrase.tokens, commaMembers] using ih
  | nextMember h _ ih iht =>
    rw [Phrase.tokens_nextMember h.members_ne_nil]
    exact .mark ih (by simp) iht

theorem Ws.isBlank {w : List Char} (h : Ws w) : ∀ c ∈ w, isBlank c = true :=
  fun c hc => isBlank_of_isSpace (ws_iff.mp h c hc)

theorem LaidOut.exists_tokenized {tokens : List (List Char)} (h : LaidOut tokens s)
    (hapart : Apart tokens) :
    ∃ lead pieces, Tokenized lead pieces s ∧ pieces.map Prod.fst = tokens := by
  induction h with
  | @nil w hw =>
    have hempty : Tokenized w [] (w ++ []) := .intro hw.isBlank .nil
    exact ⟨w, [], by simpa using hempty, rfl⟩
  | @cons w token s tokens hw htoken _ ih =>
    obtain ⟨hfirst, hrest⟩ := List.isChain_cons.mp hapart
    obtain ⟨gap, pieces, hcut, rfl⟩ := ih hrest
    cases hcut with
    | intro hgap h =>
      refine ⟨w, (token, gap) :: pieces, ?_, rfl⟩
      rw [List.append_assoc, ← List.append_assoc token]
      refine .intro hw.isBlank (.cons htoken hgap h fun _ hscalar piece hpiece hnext => ?_)
      exact hfirst piece.1 (by simp [Option.mem_def.mp hpiece]) ⟨hscalar, hnext⟩

/-- Blanks at the end belong to the last gap. -/
theorem Pieces.append_blanks {pieces : List (List Char × List Char)} {w : List Char}
    (h : Pieces pieces s) (hne : pieces ≠ []) (hw : ∀ c ∈ w, isBlank c = true) :
    ∃ pieces', Pieces pieces' (s ++ w) ∧ pieces'.map Prod.fst = pieces.map Prod.fst := by
  induction h with
  | nil => contradiction
  | @cons token gap s rest htoken hgap h apart ih =>
    cases rest with
    | nil =>
      cases h
      have hlast : Pieces [(token, gap ++ w)] (token ++ (gap ++ w) ++ []) :=
        .cons htoken (List.forall_mem_append.mpr ⟨hgap, hw⟩) .nil (by simp)
      exact ⟨[(token, gap ++ w)], by simpa using hlast, rfl⟩
    | cons next rest =>
      obtain ⟨pieces', hpieces, hsame⟩ := ih (by simp)
      have hall : Pieces ((token, gap) :: pieces') (token ++ gap ++ (s ++ w)) := by
        refine .cons htoken hgap hpieces fun hnil hscalar piece hpiece => ?_
        have hfirst : piece.1 = next.1 := by
          obtain ⟨rest', rfl⟩ := List.head?_eq_some_iff.mp hpiece
          exact (List.cons.inj hsame).1
        rw [hfirst]
        exact apart hnil hscalar next rfl
      exact ⟨_, by simpa using hall, by simp [hsame]⟩

theorem Tree.tokens_ne_nil (tree : Tree) : tree.tokens ≠ [] := by
  match tree with
  | .scalar _ | .array [] | .array (_ :: _) | .object [] | .object (_ :: _) => simp [Tree.tokens]

/-- A text that is read once it is trimmed can be cut, into the tokens of its tree. -/
theorem exists_tokenized_of_parse {tree : Tree} (h : Tree.parse (Text.trim s) = .ok tree) :
    ∃ lead pieces, Tokenized lead pieces s ∧ pieces.map Prod.fst = tree.tokens := by
  have hspelled := (Tree.spelled_of_parse h).1
  obtain ⟨w, w', hs, hw, hw', -⟩ := Text.exists_trim s
  obtain ⟨lead, pieces, hcut, htokens⟩ := hspelled.laidOut.exists_tokenized hspelled.apart
  generalize Text.trim s = text at hs hcut
  subst hs
  cases hcut with
  | @intro t hlead hrest =>
    have hne : pieces ≠ [] := by
      rintro rfl
      exact tree.tokens_ne_nil htokens.symm
    obtain ⟨pieces', hpieces, hsame⟩ := hrest.append_blanks hne hw'
    refine ⟨w ++ lead, pieces', ?_, hsame.trans htokens⟩
    have hcut : Tokenized (w ++ lead) pieces' (w ++ lead ++ (t ++ w')) :=
      .intro (List.forall_mem_append.mpr ⟨hw, hlead⟩) hpieces
    simpa using hcut

end JsonLayout.Json
