import JsonLayout.Proofs.Diff.Ends
import JsonLayout.Proofs.Json.RoundTrip
import JsonLayout.Proofs.Text.Joining

/-!
# The lines of a layout

A layout is one line, or its first line is an opening bracket, its last line a closing one, and all
lines between them are indented. There are no carriage returns in it.
-/

namespace JsonLayout.Json

open Text (Unbroken)

/-- There is a space after each line feed, and there is no carriage return. -/
structure Indented (s : List Char) : Prop where
  noReturn : '\r' ∉ s
  space : ∀ pre rest, s = pre ++ '\n' :: rest → rest.head? = some ' '

namespace Indented

variable {s t : List Char}

theorem of_unbroken (h : Unbroken s) : Indented s where
  noReturn hmem := (h _ hmem).2 rfl
  space pre rest hs := absurd rfl (h '\n' (by simp [hs])).1

theorem append (hs : Indented s) (ht : Indented t) : Indented (s ++ t) where
  noReturn hmem := (List.mem_append.1 hmem).elim hs.noReturn ht.noReturn
  space pre rest h := by
    rcases List.append_eq_append_iff.1 h with ⟨u, rfl, hu⟩ | ⟨u, hpre, hu⟩
    · exact ht.space u rest hu
    · cases u with
      | nil => exact ht.space [] rest hu.symm
      | cons c u =>
        obtain ⟨rfl, hrest⟩ := List.cons.inj hu
        have hspace := hs.space pre u hpre
        have hhead : (u ++ t).head? = u.head?.or t.head? := List.head?_append
        rw [hspace] at hhead
        rw [hrest]
        exact hhead

theorem newLine (depth : Nat) : Indented (newLine (depth + 1)).toList := by
  have hspaces : Unbroken (List.replicate (2 * depth + 2) ' ') := by
    simp +contextual [Unbroken, List.mem_replicate]
  have htext : (Json.newLine (depth + 1)).toList = '\n' :: List.replicate (2 * depth + 2) ' ' := by
    simp [Json.newLine, Nat.mul_add]
  rw [htext]
  refine ⟨?_, fun pre rest h => ?_⟩
  · simp [List.mem_replicate]
  · cases pre with
    | nil =>
      obtain ⟨-, rfl⟩ := List.cons.inj h
      rfl
    | cons c pre =>
      have hmem : '\n' ∈ List.replicate (2 * depth + 2) ' ' := by
        rw [(List.cons.inj h).2]
        simp
      exact absurd rfl (hspaces _ hmem).1

end Indented

theorem HexDigit.toNat_le {c : Char} (h : HexDigit c) : 0x20 ≤ c.toNat := by
  have hlow : ∀ {d : Char}, d ≤ c → 0x20 ≤ d.toNat → 0x20 ≤ c.toNat := fun hd hnat =>
    Nat.le_trans hnat hd
  rcases h with h | h | h <;> exact hlow h.1 (by decide)

theorem Letter.unbroken {l : List Char} (h : Letter l) : Unbroken l := by
  have hprintable : ∀ c : Char, 0x20 ≤ c.toNat → c ≠ '\n' ∧ c ≠ '\r' := by
    intro c hc
    constructor <;> rintro rfl <;> exact absurd hc (by decide)
  cases h with
  | plain printable => simpa [Unbroken] using hprintable _ printable
  | escape h =>
    simp only [List.mem_cons, List.not_mem_nil, or_false] at h
    rcases h with rfl | rfl | rfl | rfl | rfl | rfl | rfl | rfl <;> simp [Unbroken]
  | codePoint ha hb hc hd =>
    simpa [Unbroken] using ⟨hprintable _ ha.toNat_le, hprintable _ hb.toNat_le,
      hprintable _ hc.toNat_le, hprintable _ hd.toNat_le⟩

theorem Letters.unbroken {s : List Char} (h : Letters s) : Unbroken s := by
  induction h with
  | nil => simp [Unbroken]
  | snoc _ last ih => exact Text.unbroken_append.2 ⟨ih, last.unbroken⟩

theorem Quoted.unbroken {s : List Char} (h : Quoted s) : Unbroken s := by
  obtain ⟨letters⟩ := h
  simp [Text.unbroken_append, Text.unbroken_cons, Text.unbroken_nil, letters.unbroken]

theorem Scalar.unbroken {s : List Char} (h : Scalar s) : Unbroken s := by
  cases h with
  | null | «true» | «false» => simp [Unbroken]
  | number h =>
    intro c hc
    have hnot := (h.numberChar c hc).not_mem
    simp at hnot
    exact ⟨hnot.2.2.2.1, hnot.2.2.2.2⟩
  | string h => exact h.unbroken

/-- Inside of a container, writing the tree appends indented text. -/
def Tree.IsIndented (tree : Tree) : Prop :=
  ∀ out depth, ∃ s, (tree.write out (depth + 1)).toList = out.toList ++ s ∧ Indented s

theorem indented_mark (c : Char) (hc : c ≠ '\n' ∧ c ≠ '\r' := by decide) : Indented [c] :=
  .of_unbroken (Text.unbroken_cons.2 ⟨hc, Text.unbroken_nil⟩)

theorem writeItems_indented {items : List Tree} (h : ∀ item ∈ items, item.IsIndented) (out : String)
    (depth : Nat) : ∃ s, (writeItems out depth items).toList = out.toList ++ s ∧ Indented s := by
  induction items generalizing out with
  | nil => exact ⟨[], by simp [writeItems], .of_unbroken Text.unbroken_nil⟩
  | cons item items ih =>
    obtain ⟨hitem, hitems⟩ := List.forall_mem_cons.1 h
    obtain ⟨s, hs, hindented⟩ := hitem (out ++ "," ++ newLine (depth + 1)) depth
    obtain ⟨t, ht, hrest⟩ := ih hitems (item.write (out ++ "," ++ newLine (depth + 1)) (depth + 1))
    refine ⟨[','] ++ (newLine (depth + 1)).toList ++ s ++ t, by simp [writeItems, ht, hs], ?_⟩
    exact (((indented_mark ',').append (.newLine depth)).append hindented).append hrest

theorem writeMembers_indented {members : List (String × Tree)}
    (hkeys : ∀ m ∈ members, Quoted m.1.toList) (h : ∀ m ∈ members, m.2.IsIndented) (out : String)
    (depth : Nat) : ∃ s, (writeMembers out depth members).toList = out.toList ++ s ∧ Indented s := by
  induction members generalizing out with
  | nil => exact ⟨[], by simp [writeMembers], .of_unbroken Text.unbroken_nil⟩
  | cons m members ih =>
    obtain ⟨hkey, hkeys⟩ := List.forall_mem_cons.1 hkeys
    obtain ⟨hvalue, hvalues⟩ := List.forall_mem_cons.1 h
    obtain ⟨s, hs, hindented⟩ := hvalue (out ++ "," ++ newLine (depth + 1) ++ m.1 ++ ": ") depth
    obtain ⟨t, ht, hrest⟩ := ih hkeys hvalues
      (m.2.write (out ++ "," ++ newLine (depth + 1) ++ m.1 ++ ": ") (depth + 1))
    have hbefore : Indented ([','] ++ (newLine (depth + 1)).toList ++ m.1.toList ++ [':', ' ']) :=
      (((indented_mark ',').append (.newLine depth)).append (.of_unbroken hkey.unbroken)).append
        (.of_unbroken (by simp [Unbroken]))
    refine ⟨[','] ++ (newLine (depth + 1)).toList ++ m.1.toList ++ [':', ' '] ++ s ++ t, ?_,
      (hbefore.append hindented).append hrest⟩
    simp [writeMembers, ht, hs]

/-- Between the brackets of a container that is not empty stand a new line and indented text. -/
def Tree.IsFramed (tree : Tree) (first last : Char) : Prop :=
  ∀ out depth, ∃ s, (tree.write out depth).toList =
    out.toList ++ (first :: s ++ (newLine depth).toList ++ [last]) ∧
      Indented s ∧ s.head? = some '\n'

theorem head?_newLine_append (depth : Nat) (s : List Char) :
    ((newLine depth).toList ++ s).head? = some '\n' := by simp [newLine]

theorem isFramed_array {item : Tree} {items : List Tree}
    (h : ∀ tree ∈ item :: items, tree.IsIndented) :
    (Tree.array (item :: items)).IsFramed '[' ']' := by
  intro out depth
  obtain ⟨hitem, hitems⟩ := List.forall_mem_cons.1 h
  obtain ⟨s, hs, hfirst⟩ := hitem (out ++ "[" ++ newLine (depth + 1)) depth
  obtain ⟨t, ht, hrest⟩ := writeItems_indented hitems
    (item.write (out ++ "[" ++ newLine (depth + 1)) (depth + 1)) depth
  refine ⟨(newLine (depth + 1)).toList ++ s ++ t, by simp [Tree.write, ht, hs],
    ((Indented.newLine depth).append hfirst).append hrest, ?_⟩
  rw [List.append_assoc, head?_newLine_append]

theorem isFramed_object {m : String × Tree} {members : List (String × Tree)}
    (hkeys : ∀ m' ∈ m :: members, Quoted m'.1.toList) (h : ∀ m' ∈ m :: members, m'.2.IsIndented) :
    (Tree.object (m :: members)).IsFramed '{' '}' := by
  intro out depth
  obtain ⟨hkey, hkeys⟩ := List.forall_mem_cons.1 hkeys
  obtain ⟨hvalue, hvalues⟩ := List.forall_mem_cons.1 h
  obtain ⟨s, hs, hfirst⟩ := hvalue (out ++ "\x7b" ++ newLine (depth + 1) ++ m.1 ++ ": ") depth
  obtain ⟨t, ht, hrest⟩ := writeMembers_indented hkeys hvalues
    (m.2.write (out ++ "\x7b" ++ newLine (depth + 1) ++ m.1 ++ ": ") (depth + 1)) depth
  have hbefore : Indented ((newLine (depth + 1)).toList ++ m.1.toList ++ [':', ' ']) :=
    ((Indented.newLine depth).append (.of_unbroken hkey.unbroken)).append
      (.of_unbroken (by simp [Unbroken]))
  refine ⟨(newLine (depth + 1)).toList ++ m.1.toList ++ [':', ' '] ++ s ++ t,
    by simp [Tree.write, ht, hs], (hbefore.append hfirst).append hrest, ?_⟩
  simp only [List.append_assoc, head?_newLine_append]

theorem Tree.IsFramed.isIndented {tree : Tree} {first last : Char} (h : tree.IsFramed first last)
    (hfirst : first ≠ '\n' ∧ first ≠ '\r') (hlast : last ≠ '\n' ∧ last ≠ '\r') :
    tree.IsIndented := by
  intro out depth
  obtain ⟨s, hs, hindented, -⟩ := h out (depth + 1)
  exact ⟨_, hs, (((indented_mark first hfirst).append hindented).append (.newLine depth)).append
    (indented_mark last hlast)⟩

theorem Tree.WellSpelled.isIndented {tree : Tree} (h : tree.WellSpelled) : tree.IsIndented := by
  induction h with
  | scalar h => exact fun out depth => ⟨_, by simp [Tree.write], .of_unbroken h.unbroken⟩
  | @array items _ ih =>
    cases items with
    | nil =>
      exact fun out depth => ⟨['[', ']'], by simp [Tree.write], .of_unbroken (by simp [Unbroken])⟩
    | cons item items => exact (isFramed_array ih).isIndented (by decide) (by decide)
  | @object members keys _ ih =>
    cases members with
    | nil =>
      exact fun out depth => ⟨['{', '}'], by simp [Tree.write], .of_unbroken (by simp [Unbroken])⟩
    | cons m members => exact (isFramed_object keys ih).isIndented (by decide) (by decide)

/-- A layout is one line, or a bracket, indented lines and a bracket. -/
theorem Tree.WellSpelled.layout_eq {tree : Tree} (h : tree.WellSpelled) :
    (∃ s, tree.layout.toList = s ++ ['\n'] ∧ Unbroken s) ∨
      ∃ first last s, tree.layout.toList = [first, '\n'] ++ (s ++ ['\n']) ++ [last, '\n'] ∧
        (first = '[' ∧ last = ']' ∨ first = '{' ∧ last = '}') ∧ Indented ('\n' :: s) := by
  have hframed : ∀ {tree : Tree} {first last : Char}, tree.IsFramed first last → ∃ s,
      tree.layout.toList = [first, '\n'] ++ (s ++ ['\n']) ++ [last, '\n'] ∧ Indented ('\n' :: s) := by
    intro tree first last h
    obtain ⟨s, hs, hindented, hhead⟩ := h "" 0
    obtain ⟨s, rfl⟩ := List.head?_eq_some_iff.1 hhead
    exact ⟨s, by simp [Tree.layout, hs, newLine], hindented⟩
  cases h with
  | scalar h => exact .inl ⟨_, by simp [Tree.layout, Tree.write], h.unbroken⟩
  | @array items hitems =>
    cases items with
    | nil => exact .inl ⟨['[', ']'], by simp [Tree.layout, Tree.write], by simp [Unbroken]⟩
    | cons item items =>
      obtain ⟨s, hs, hindented⟩ :=
        hframed (isFramed_array fun tree ht => (hitems tree ht).isIndented)
      exact .inr ⟨_, _, s, hs, .inl ⟨rfl, rfl⟩, hindented⟩
  | @object members keys values =>
    cases members with
    | nil => exact .inl ⟨['{', '}'], by simp [Tree.layout, Tree.write], by simp [Unbroken]⟩
    | cons m members =>
      obtain ⟨s, hs, hindented⟩ :=
        hframed (isFramed_object keys fun m hm => (values m hm).isIndented)
      exact .inr ⟨_, _, s, hs, .inr ⟨rfl, rfl⟩, hindented⟩

/-- Whole lines that all start with a space. -/
structure Rows (s : List Char) : Prop where
  noReturn : '\r' ∉ s
  start : ∀ c ∈ s.head?, c = ' '
  space : ∀ pre rest, s = pre ++ '\n' :: rest → ∀ c ∈ rest.head?, c = ' '
  ended : ∀ c ∈ s.getLast?, c = '\n'

theorem Indented.rows {s : List Char} (h : Indented ('\n' :: s)) : Rows (s ++ ['\n']) where
  noReturn hmem := h.noReturn (by simpa using hmem)
  start := by simp [h.space [] s rfl]
  space pre rest hs := by
    rcases List.append_eq_append_iff.1 hs with ⟨u, -, hu⟩ | ⟨u, rfl, hu⟩
    · have hlength := congrArg List.length hu
      simp only [List.length_append, List.length_cons, List.length_nil] at hlength
      obtain rfl : rest = [] := List.eq_nil_of_length_eq_zero (by omega)
      simp
    · cases u with
      | nil =>
        obtain ⟨-, rfl⟩ := List.cons.inj hu
        simp
      | cons c u =>
        obtain ⟨rfl, rfl⟩ := List.cons.inj hu
        have hhead := h.space ('\n' :: pre) u rfl
        obtain ⟨u, rfl⟩ := List.head?_eq_some_iff.1 hhead
        simp
  ended := by simp

theorem Rows.cutInto {s : List Char} {ls : List String} (h : Rows s) (hcut : Text.CutInto s ls) :
    ∀ l ∈ ls, Text.Whole Text.lineEnds l ∧ l.toList.head? = some ' ' := by
  induction hcut with
  | nil => simp
  | @last body hbody hne =>
    have hmem := List.getLast_mem hne
    have hended := h.ended _ (List.getLast?_eq_some_getLast hne)
    exact absurd hended (hbody _ hmem).1
  | @line body ending rest ls hbody hending hcut ih =>
    obtain rfl : ending = ['\n'] := by
      rcases hending with rfl | rfl | ⟨rfl, -⟩
      · rfl
      · exact absurd (by simp) h.noReturn
      · exact absurd (by simp) h.noReturn
    obtain ⟨body, rfl⟩ : ∃ body', body = ' ' :: body' := by
      cases body with
      | nil => simpa using h.start
      | cons c body => exact ⟨body, by rw [h.start c rfl]⟩
    have hrest : Rows rest :=
      { noReturn := fun hmem => h.noReturn (by simp [hmem])
        start := h.space (' ' :: body) rest (by simp)
        space := fun pre post hpost => h.space (' ' :: body ++ ['\n'] ++ pre) post (by simp [hpost])
        ended := fun c hc => h.ended c (by
          rw [List.getLast?_append, Option.mem_def.1 hc]
          rfl) }
    refine List.forall_mem_cons.2 ⟨⟨⟨_, _, hbody, by simp, by simp, String.toList_ofList⟩, ?_⟩,
      ih hrest⟩
    simp

/-- The first line of a layout is found nowhere else in it, and its last line neither. -/
theorem Tree.WellSpelled.endsOnce_layout {tree : Tree} (h : tree.WellSpelled) :
    Diff.EndsOnce (Text.lines tree.layout) := by
  rcases h.layout_eq with ⟨s, hs, hunbroken⟩ | ⟨first, last, s, hs, hbrackets, hindented⟩
  · have hlines : Text.lines tree.layout = [tree.layout] := by
      rw [Text.lines, hs, Text.linesFrom_body _ _ hunbroken]
      simp [Text.linesFrom, ← hs]
    rw [hlines]
    exact .singleton _
  · obtain ⟨ls, hcut⟩ : ∃ ls, Text.CutInto (s ++ ['\n']) ls := by
      have hcut := Text.lines_cutInto (String.ofList (s ++ ['\n']))
      rw [String.toList_ofList] at hcut
      exact ⟨_, hcut⟩
    have hrows := hindented.rows.cutInto hcut
    have hmiddle : (String.join ls).toList = s ++ ['\n'] := by rw [hcut.join, String.toList_ofList]
    have hjoin : tree.layout =
        String.join (String.ofList [first, '\n'] :: ls ++ [String.ofList [last, '\n']]) := by
      rw [← String.toList_inj, hs, ← hmiddle]
      simp
    have hfirst : first ≠ '\n' ∧ first ≠ '\r' ∧ first ≠ ' ' ∧ first ≠ last := by
      rcases hbrackets with ⟨rfl, rfl⟩ | ⟨rfl, rfl⟩ <;> decide
    have hlast : last ≠ '\n' ∧ last ≠ '\r' ∧ last ≠ ' ' := by
      rcases hbrackets with ⟨rfl, rfl⟩ | ⟨rfl, rfl⟩ <;> decide
    have hnot : ∀ c : Char, c ≠ ' ' → String.ofList [c, '\n'] ∉ ls := fun c hc hmem =>
      hc (by simpa using (hrows _ hmem).2)
    have hwhole : ∀ c : Char, c ≠ '\n' → c ≠ '\r' →
        Text.Whole Text.lineEnds (String.ofList [c, '\n']) := fun c hfeed hreturn =>
      ⟨[c], ['\n'], by simp [Unbroken, hfeed, hreturn], by simp, by simp, String.toList_ofList⟩
    rw [hjoin, Text.lines_join]
    · refine .of_between (hnot _ hfirst.2.2.1) (hnot _ hlast.2.2) fun heq => ?_
      exact hfirst.2.2.2 (by simpa using congrArg String.toList heq)
    · simp only [List.mem_append, List.mem_cons, List.not_mem_nil, or_false]
      rintro l ((rfl | hl) | rfl)
      · exact hwhole _ hfirst.1 hfirst.2.1
      · exact (hrows l hl).1
      · exact hwhole _ hlast.1 hlast.2.1

theorem Tree.WellSpelled.noReturn_layout {tree : Tree} (h : tree.WellSpelled) :
    '\r' ∉ tree.layout.toList := by
  rcases h.layout_eq with ⟨s, hs, hunbroken⟩ | ⟨first, last, s, hs, hbrackets, hindented⟩
  · have hreturn : '\r' ∉ s := fun hmem => (hunbroken _ hmem).2 rfl
    simp [hs, hreturn]
  · have hreturn : '\r' ∉ s := fun hmem => hindented.noReturn (by simp [hmem])
    rcases hbrackets with ⟨rfl, rfl⟩ | ⟨rfl, rfl⟩ <;> simp [hs, hreturn]

variable {s out : String}

theorem endsOnce_of_format (h : format s = .ok out) : Diff.EndsOnce (Text.lines out) := by
  obtain ⟨tree, hparse, rfl⟩ := format_eq_ok_iff.mp h
  exact (Tree.wellSpelled_of_parse hparse).endsOnce_layout

theorem fed_of_format (h : format s = .ok out) : Text.Fed out.toList := by
  obtain ⟨tree, hparse, rfl⟩ := format_eq_ok_iff.mp h
  have hreturn := (Tree.wellSpelled_of_parse hparse).noReturn_layout
  intro pre rest hout
  exact absurd (by simp [hout]) hreturn

theorem lines_ne_nil {s : String} (h : s ≠ "") : Text.lines s ≠ [] := by
  intro hnil
  have hjoin := (Text.lines_cutInto s).join
  rw [hnil, String.ofList_toList] at hjoin
  exact h hjoin.symm

/-- Neither a text that can be formatted nor its canonical form is empty. -/
theorem ne_empty_of_format (h : format s = .ok out) : s ≠ "" ∧ out ≠ "" := by
  constructor
  · rintro rfl
    have hempty : (format "").toOption = none := rfl
    rw [h] at hempty
    contradiction
  · obtain ⟨tree, -, rfl⟩ := format_eq_ok_iff.mp h
    simp [Tree.layout]

end JsonLayout.Json
