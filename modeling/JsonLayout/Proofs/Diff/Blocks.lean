import JsonLayout.Proofs.Diff.Ends
import JsonLayout.Proofs.Diff.Hunk

/-!
# Where blocks stand

A block takes its places from its edits. If these are in place, a block that has lines in a text says
where they start there; the first block says where it stands in both texts, and the last one where
it ends in the new text.
-/

namespace JsonLayout.Diff.Block

open Script (Loose opening closing Placed AloneAt)

/-- The lines of a block, without those of one kind. -/
def without (absent : EditKind) (b : Block) : List String := Line.without absent b.lines

/-- The place of a block in the text that lacks the lines of one kind. -/
def place (absent : EditKind) (b : Block) : Nat := side absent b.old b.new

variable {absent : EditKind} {old new : Nat} {kept removed added : List String}

theorem without_same (habsent : absent ≠ .kept) :
    (Block.same old new kept).without absent = kept := by
  simp [without, lines, Line.ofKept, habsent.symm]

theorem without_change (habsent : absent ≠ .kept) :
    (Block.change old new removed added).without absent = side absent removed added := by
  obtain rfl | rfl := added_or_removed habsent <;> simp [without, lines, Line.ofChange]

theorem oldLines_eq (b : Block) : b.oldLines = b.without .added := by
  cases b <;> simp [without, lines, Line.ofKept, Line.ofChange, oldLines]

theorem newLines_eq (b : Block) : b.newLines = b.without .removed := by
  cases b <;> simp [without, lines, Line.ofKept, Line.ofChange, newLines]

/-- From line `i` of a text on, every block with lines in that text says where they start. -/
def Located (absent : EditKind) : Nat → List Block → Prop
  | _, [] => True
  | i, b :: bs =>
      (b.without absent ≠ [] → b.place absent = i) ∧
        Located absent (i + (b.without absent).length) bs

variable {i : Nat} {e k : Edit} {s u c : Script} {b : Block} {bs rest : List Block}

theorem ofScript_cons (e : Edit) (s : Script) : ofScript (e :: s) = cons e (ofScript s) := rfl

theorem located_cons (habsent : absent ≠ .kept) (he : e.kind ≠ absent → e.place absent = i)
    (h : Located absent (i + (e.without absent).length) bs) : Located absent i (cons e bs) := by
  have hkept : EditKind.kept ≠ absent := habsent.symm
  rcases bs with _ | ⟨_ | _, rest⟩ <;> cases hkind : e.kind <;>
    obtain rfl | rfl := added_or_removed habsent <;>
    simp_all [cons, Located, without_same, without_change, place, Block.old, Block.new, Edit.place,
      Edit.without, Nat.add_assoc]

theorem located_ofScript (habsent : absent ≠ .kept) (h : s.Placed absent i) :
    Located absent i (ofScript s) := by
  induction s generalizing i with
  | nil => trivial
  | cons e s ih => exact located_cons habsent h.1 (ih h.2)

/-- No change comes first. -/
def StartsKept (bs : List Block) : Prop := ∀ b ∈ bs.head?, ∃ old new kept, b = .same old new kept

theorem cons_of_startsKept (he : e.kind ≠ .kept) (h : StartsKept bs) :
    cons e bs = .change e.old e.new (e.without .added) (e.without .removed) :: bs := by
  rcases bs with _ | ⟨_ | _, rest⟩
  · obtain hkind | hkind := added_or_removed he <;> simp [cons, Edit.without, hkind]
  · obtain hkind | hkind := added_or_removed he <;> simp [cons, Edit.without, hkind]
  · simp [StartsKept] at h

/-- An edit that keeps nothing goes into the change after it. The change takes its place from the
edit in a text that the change had no lines of. -/
theorem exists_cons_change (he : e.kind ≠ .kept) (old new : Nat) (removed added : List String)
    (rest : List Block) : ∃ old' new', cons e (.change old new removed added :: rest) =
      .change old' new' (e.without .added ++ removed) (e.without .removed ++ added) :: rest ∧
      ∀ absent ≠ .kept, side absent removed added = [] → side absent old' new' = e.place absent := by
  obtain hkind | hkind := added_or_removed he
  · refine ⟨if removed.isEmpty then e.old else old, e.new, by simp [cons, Edit.without, hkind], ?_⟩
    intro absent habsent hnone
    obtain rfl | rfl := added_or_removed habsent <;> simp_all [Edit.place]
  · refine ⟨e.old, if added.isEmpty then e.new else new, by simp [cons, Edit.without, hkind], ?_⟩
    intro absent habsent hnone
    obtain rfl | rfl := added_or_removed habsent <;> simp_all [Edit.place]

/-- A run of edits that keep nothing is one change, apart from the kept lines after it. In a text
where nothing of the run stands, its place is that of its first edit. -/
theorem exists_ofScript_loose_append (h : Loose (e :: c)) (hs : StartsKept (ofScript s)) :
    ∃ old new, ofScript (e :: c ++ s) =
      .change old new (Script.without .added (e :: c)) (Script.without .removed (e :: c)) ::
        ofScript s ∧
    ∀ absent ≠ .kept, Script.without absent (e :: c) = [] → side absent old new = e.place absent := by
  induction c generalizing e with
  | nil =>
    have he := (Script.loose_cons.1 h).1
    refine ⟨e.old, e.new, ?_, fun _ _ _ => rfl⟩
    simpa [ofScript_cons] using cons_of_startsKept he hs
  | cons q c ih =>
    obtain ⟨he, hc⟩ := Script.loose_cons.1 h
    obtain ⟨old, new, hblock, -⟩ := ih hc
    obtain ⟨old', new', hcons, hplace⟩ := exists_cons_change he old new
      (Script.without .added (q :: c)) (Script.without .removed (q :: c)) (ofScript s)
    refine ⟨old', new', ?_, ?_⟩
    · rw [← hblock] at hcons
      exact hcons
    · intro absent habsent hnone
      refine hplace absent habsent ?_
      rw [Script.without_cons, List.append_eq_nil_iff] at hnone
      obtain rfl | rfl := added_or_removed habsent <;> exact hnone.2

theorem startsKept_ofScript_kept (hk : k.kind = .kept) : StartsKept (ofScript (k :: s)) := by
  rw [ofScript_cons]
  rcases ofScript s with _ | ⟨_ | _, rest⟩ <;> simp [cons, hk, StartsKept]

theorem exists_cons_eq (e : Edit) (b : Block) (bs : List Block) :
    ∃ front, cons e (b :: bs) = front ++ bs := by
  cases b <;> cases hkind : e.kind <;> simp only [cons, hkind]
  · exact ⟨[_], rfl⟩
  · exact ⟨[_, _], rfl⟩
  · exact ⟨[_, _], rfl⟩
  · exact ⟨[_, _], rfl⟩
  · exact ⟨[_], rfl⟩
  · exact ⟨[_], rfl⟩

/-- What comes before kept lines does not change the block after them. -/
theorem exists_ofScript_append_loose (u : Script) (hk : k.kind = .kept) (hc : Loose c) :
    ∃ front old new kept, ofScript (u ++ k :: c) = front ++ .same old new kept :: ofScript c := by
  induction u with
  | nil =>
    refine ⟨[], k.old, k.new, k.lines, ?_⟩
    cases c with
    | nil => simp [ofScript, cons, hk]
    | cons e c =>
      obtain ⟨old, new, hblock, -⟩ :=
        exists_ofScript_loose_append (s := []) hc (by simp [StartsKept, ofScript])
      rw [List.append_nil] at hblock
      rw [List.nil_append, ofScript_cons, hblock]
      simp [cons, hk, ofScript]
  | cons e u ih =>
    obtain ⟨front, old, new, kept, hu⟩ := ih
    rw [List.cons_append, ofScript_cons, hu]
    cases front with
    | nil =>
      by_cases he : e.kind = .kept
      · exact ⟨[], e.old, e.new, e.lines ++ kept, by simp [cons, he]⟩
      · rw [List.nil_append, cons_of_startsKept he (by simp [StartsKept])]
        exact ⟨[_], old, new, kept, rfl⟩
    | cons b front =>
      obtain ⟨front', he⟩ := exists_cons_eq e b (front ++ .same old new kept :: ofScript c)
      exact ⟨front' ++ front, old, new, kept, by rw [List.cons_append, he, List.append_assoc]⟩

/-- After a change come kept lines, then changes and kept lines in turn. -/
inductive AfterChange : List Block → Prop
  | nil : AfterChange []
  | last {old new : Nat} {kept : List String} (hkept : kept ≠ []) :
      AfterChange [.same old new kept]
  | next {old new old' new' : Nat} {kept removed added : List String} {rest : List Block}
      (hkept : kept ≠ []) (hsolid : removed ++ added ≠ []) (h : AfterChange rest) :
      AfterChange (.same old new kept :: .change old' new' removed added :: rest)

theorem AfterChange.startsKept (h : AfterChange bs) : StartsKept bs := by
  cases h <;> simp [StartsKept]

theorem AfterChange.cons_kept (h : AfterChange bs) (he : e.kind = .kept) (hlines : e.lines ≠ []) :
    AfterChange (cons e bs) := by
  cases h with
  | nil => simpa [cons, he] using AfterChange.last hlines
  | last hkept => simpa [cons, he] using AfterChange.last (by simp [hlines])
  | next hkept hsolid h => simpa [cons, he] using AfterChange.next (by simp [hlines]) hsolid h

/-- Kept lines and changes take turns. -/
theorem afterChange_or_change (h : s.Solid) : AfterChange (ofScript s) ∨
    ∃ old new removed added rest, ofScript s = .change old new removed added :: rest ∧
      removed ++ added ≠ [] ∧ AfterChange rest := by
  induction s with
  | nil => exact .inl .nil
  | cons e s ih =>
    obtain ⟨hlines, hs⟩ := Script.solid_cons.1 h
    rw [ofScript_cons]
    rcases ih hs with hafter | ⟨old, new, removed, added, rest, hblocks, hsolid, hrest⟩
    · by_cases he : e.kind = .kept
      · exact .inl (hafter.cons_kept he hlines)
      · rw [cons_of_startsKept he hafter.startsKept]
        refine .inr ⟨_, _, _, _, _, rfl, ?_, hafter⟩
        obtain hkind | hkind := added_or_removed he <;> simpa [Edit.without, hkind] using hlines
    · rw [hblocks]
      by_cases he : e.kind = .kept
      · exact .inl (by simpa [cons, he] using AfterChange.next hlines hsolid hrest)
      · obtain ⟨old', new', hcons, -⟩ := exists_cons_change he old new removed added rest
        rw [hcons]
        refine .inr ⟨_, _, _, _, _, rfl, ?_, hrest⟩
        simp_all

/-- Edits that a text has no lines of are all of the kind it lacks. -/
theorem kind_of_without_eq_nil (hsolid : s.Solid) (hnone : s.without absent = []) :
    ∀ e ∈ s, e.kind = absent := by
  intro e he
  by_contra hkind
  have hempty := List.flatMap_eq_nil_iff.1 hnone e he
  rw [Edit.without, if_neg hkind] at hempty
  exact hsolid e he hempty

/-- The place of a change that a text has no lines of. -/
theorem place_of_alone {j : Nat} (hsolid : s.Solid) (habsent : absent ≠ .kept)
    (halone : AloneAt absent j (e :: c)) (hmem : ∀ q ∈ e :: c, q ∈ s)
    (hplace : ∀ absent ≠ .kept, Script.without absent (e :: c) = [] →
      side absent old new = e.place absent)
    (hnone : Script.without absent (e :: c) = []) : side absent old new = j := by
  have hkind := kind_of_without_eq_nil (fun q hq => hsolid q (hmem q hq)) hnone
  rw [hplace absent habsent hnone]
  exact halone hkind e rfl

/-- A change that comes first says so for both texts, also for one that it has no lines of. -/
theorem place_of_first (hsolid : s.Solid) (habsent : absent ≠ .kept) (hplaced : s.Placed absent 0)
    (hopening : AloneAt absent 0 (opening s))
    (h : ofScript s = .change old new removed added :: rest) : side absent old new = 0 := by
  have hloose := Script.loose_opening s
  obtain ⟨t, hs, ht⟩ : ∃ t, s = opening s ++ t ∧ StartsKept (ofScript t) := by
    rcases Script.eq_opening_or s with hs | ⟨k, t, hk, hs⟩
    · exact ⟨[], by rwa [List.append_nil], by simp [StartsKept, ofScript]⟩
    · exact ⟨k :: t, hs, startsKept_ofScript_kept hk⟩
  cases hfront : opening s with
  | nil =>
    rw [hfront, List.nil_append] at hs
    rw [← hs, h] at ht
    simp [StartsKept] at ht
  | cons e c =>
    rw [hfront] at hloose hs hopening
    obtain ⟨old', new', hblock, hplace⟩ := exists_ofScript_loose_append hloose ht
    rw [← hs, h] at hblock
    injection hblock with hblock
    injection hblock with hold hnew hremoved hadded
    subst hold hnew
    by_cases hnone : Script.without absent (e :: c) = []
    · exact place_of_alone hsolid habsent hopening (fun q hq => hs ▸ List.mem_append_left _ hq)
        hplace hnone
    · have hlocated := located_ofScript habsent hplaced
      rw [h] at hlocated
      refine hlocated.1 ?_
      rw [without_change habsent, hremoved, hadded]
      obtain rfl | rfl := added_or_removed habsent <;> exact hnone

/-- A change that comes last says so for the new text if it has no lines of it. -/
theorem place_of_last {j : Nat} {front : List Block} (hsolid : s.Solid)
    (hclosing : AloneAt .removed j (closing s))
    (h : ofScript s = front ++ [.change old new removed []]) : new = j := by
  have hloose := Script.loose_closing s
  obtain ⟨front', hblocks, hfront⟩ : ∃ front', ofScript s = front' ++ ofScript (closing s) ∧
      ∀ b ∈ front'.getLast?, ∃ old new kept, b = .same old new kept := by
    rcases Script.eq_closing_or s with hs | ⟨t, k, hk, hs⟩
    · exact ⟨[], congrArg ofScript hs, by simp⟩
    · obtain ⟨front', old', new', kept, hblocks⟩ := exists_ofScript_append_loose t hk hloose
      rw [← hs, List.append_cons] at hblocks
      exact ⟨_, hblocks, by simp⟩
  rw [h] at hblocks
  cases hback : closing s with
  | nil =>
    -- kept lines come last then
    rw [hback, ofScript, List.foldr_nil, List.append_nil] at hblocks
    subst hblocks
    simp at hfront
  | cons e c =>
    obtain ⟨u, hs⟩ := Script.exists_append_closing s
    rw [hback] at hs hloose hclosing hblocks
    obtain ⟨old', new', hblock, hplace⟩ :=
      exists_ofScript_loose_append (s := []) hloose (by simp [StartsKept, ofScript])
    rw [List.append_nil] at hblock
    rw [hblock] at hblocks
    have hlast := (List.append_inj' hblocks rfl).2
    injection hlast with hlast
    injection hlast with hold hnew hremoved hadded
    subst hold hnew
    exact place_of_alone hsolid (by decide) hclosing
      (fun q hq => hs ▸ List.mem_append_right _ hq) hplace hadded.symm

end JsonLayout.Diff.Block
