import JsonLayout.Proofs.Diff.Place

/-!
# The ends of a script

What a diff says about the lines of a hunk depends on the places recorded by the first and the last
edits of a script. If the first line of the new text is found nowhere else in it, and its last line
neither, no addition comes to the front or leaves it, and none leaves the end. So a removal or an
addition that stands alone at the front is where it says, and a removal that stands alone at the end.
-/

namespace JsonLayout.Diff

/-- The first line is found nowhere else, and the last line neither. -/
structure EndsOnce (lines : List String) : Prop where
  first : ∀ x rest, lines = x :: rest → x ∉ rest
  last : ∀ rest x, lines = rest ++ [x] → x ∉ rest

namespace EndsOnce

variable {lines u v moved : List String}

theorem singleton (x : String) : EndsOnce [x] where
  first y rest h := by
    obtain ⟨-, rfl⟩ := List.cons.inj h
    simp
  last rest y h := by
    have hlength := congrArg List.length h
    simp only [List.length_append, List.length_cons, List.length_nil] at hlength
    obtain rfl : rest = [] := List.eq_nil_of_length_eq_zero (by omega)
    simp

theorem of_between {x y : String} (hx : x ∉ lines) (hy : y ∉ lines) (hne : x ≠ y) :
    EndsOnce (x :: lines ++ [y]) where
  first z rest h := by
    obtain ⟨rfl, rfl⟩ := List.cons.inj h
    simp [hx, hne]
  last rest z h := by
    obtain ⟨rfl, hz⟩ := List.append_inj' h rfl
    obtain rfl := List.singleton_inj.1 hz
    simp [hy, hne.symm]

theorem not_first_twice (h : EndsOnce lines) (hmoved : moved ≠ []) :
    lines ≠ moved ++ (u ++ (moved ++ v)) := by
  intro hlines
  obtain ⟨x, rest, rfl⟩ := List.exists_cons_of_ne_nil hmoved
  exact h.first x _ hlines (by simp)

theorem not_last_twice (h : EndsOnce lines) (hmoved : moved ≠ []) :
    lines ≠ u ++ (moved ++ (v ++ moved)) := by
  intro hlines
  obtain ⟨rest, x, rfl⟩ : ∃ rest x, moved = rest ++ [x] :=
    ⟨moved.dropLast, moved.getLast hmoved, (List.dropLast_concat_getLast hmoved).symm⟩
  refine h.last (u ++ (rest ++ [x] ++ (v ++ rest))) x ?_ (by simp)
  simpa using hlines

end EndsOnce

namespace Script

/-- Nothing is kept. -/
def Loose (s : Script) : Prop := ∀ e ∈ s, e.kind ≠ .kept

/-- The edits before the first lines that are kept. -/
def opening (s : Script) : Script := s.takeWhile (·.kind ≠ .kept)

/-- The edits after the last lines that are kept. -/
def closing (s : Script) : Script := (opening s.reverse).reverse

section Ends

variable {e q : Edit} {s t : Script}

theorem loose_nil : Loose [] := by simp [Loose]

theorem loose_cons : Loose (e :: s) ↔ e.kind ≠ .kept ∧ Loose s := by simp [Loose]

theorem loose_reverse : Loose s.reverse ↔ Loose s := by simp [Loose]

theorem opening_cons (he : e.kind ≠ .kept) : opening (e :: s) = e :: opening s := by
  simp [opening, he]

theorem opening_cons_kept (he : e.kind = .kept) : opening (e :: s) = [] := by
  simp [opening, he]

theorem opening_append_of_loose (h : Loose s) : opening (s ++ t) = s ++ opening t :=
  List.takeWhile_append_of_pos (by simpa [Loose] using h)

theorem opening_append_of_not_loose (h : ¬ Loose s) : opening (s ++ t) = opening s := by
  induction s with
  | nil => exact absurd loose_nil h
  | cons e s ih =>
    by_cases he : e.kind = .kept
    · rw [List.cons_append, opening_cons_kept he, opening_cons_kept he]
    · rw [List.cons_append, opening_cons he, opening_cons he,
        ih fun hs => h (loose_cons.2 ⟨he, hs⟩)]

theorem opening_of_loose (h : Loose s) : opening s = s := by
  have happend := opening_append_of_loose (t := []) h
  simpa [opening] using happend

/-- Kept lines end the opening wherever they come from. -/
theorem opening_append_kept (hq : q.kind = .kept) : opening (s ++ q :: t) = opening s := by
  by_cases hs : Loose s
  · rw [opening_append_of_loose hs, opening_cons_kept hq, List.append_nil, opening_of_loose hs]
  · exact opening_append_of_not_loose hs

theorem closing_append_of_loose (h : Loose t) : closing (s ++ t) = closing s ++ t := by
  rw [closing, List.reverse_append, opening_append_of_loose (loose_reverse.2 h),
    List.reverse_append, List.reverse_reverse]
  rfl

theorem closing_append_of_not_loose (h : ¬ Loose t) : closing (s ++ t) = closing t := by
  rw [closing, List.reverse_append, opening_append_of_not_loose (mt loose_reverse.1 h)]
  rfl

theorem closing_of_loose (h : Loose s) : closing s = s := by
  rw [closing, opening_of_loose (loose_reverse.2 h), List.reverse_reverse]

theorem closing_append_kept (hq : q.kind = .kept) : closing (s ++ q :: t) = closing t := by
  rw [closing, List.reverse_append, List.reverse_cons, List.append_assoc, List.singleton_append,
    opening_append_kept hq]
  rfl

theorem closing_cons_of_not_loose (h : ¬ Loose s) : closing (e :: s) = closing s :=
  closing_append_of_not_loose (s := [e]) h

theorem loose_opening (s : Script) : Loose (opening s) :=
  fun e he => by simpa using List.all_eq_true.1 (List.all_takeWhile (l := s)) e he

theorem loose_closing (s : Script) : Loose (closing s) :=
  loose_reverse.2 (loose_opening s.reverse)

theorem eq_opening_or (s : Script) :
    s = opening s ∨ ∃ q t, q.kind = .kept ∧ s = opening s ++ q :: t := by
  induction s with
  | nil => exact .inl rfl
  | cons e s ih =>
    by_cases he : e.kind = .kept
    · rw [opening_cons_kept he]
      exact .inr ⟨e, s, he, rfl⟩
    · rw [opening_cons he]
      rcases ih with hs | ⟨q, t, hq, hs⟩
      · exact .inl (congrArg (e :: ·) hs)
      · exact .inr ⟨q, t, hq, congrArg (e :: ·) hs⟩

theorem eq_closing_or (s : Script) :
    s = closing s ∨ ∃ t q, q.kind = .kept ∧ s = t ++ q :: closing s := by
  rcases eq_opening_or s.reverse with hs | ⟨q, t, hq, hs⟩
  · exact .inl (List.reverse_eq_iff.1 hs)
  · refine .inr ⟨t.reverse, q, hq, ?_⟩
    have hs' := List.reverse_eq_iff.1 hs
    rwa [List.reverse_append, List.reverse_cons, List.append_assoc] at hs'

theorem exists_opening_append (s : Script) : ∃ t, s = opening s ++ t := by
  rcases eq_opening_or s with hs | ⟨q, t, -, hs⟩
  · exact ⟨[], by rwa [List.append_nil]⟩
  · exact ⟨_, hs⟩

theorem exists_append_closing (s : Script) : ∃ t, s = t ++ closing s := by
  rcases eq_closing_or s with hs | ⟨t, q, -, hs⟩
  · exact ⟨[], hs⟩
  · exact ⟨t ++ [q], by rwa [List.append_assoc]⟩

end Ends

/-- If a run of edits is all of the kind that a text lacks, its first edit records place `i`. -/
def AloneAt (absent : EditKind) (i : Nat) (run : Script) : Prop :=
  (∀ e ∈ run, e.kind = absent) → ∀ e ∈ run.head?, e.place absent = i

section Alone

variable {absent : EditKind} {i : Nat} {e q t : Edit} {s u : Script}

theorem aloneAt_of_mem (he : e ∈ s) (hkind : e.kind ≠ absent) : AloneAt absent i s :=
  fun h => absurd (h e he) hkind

theorem AloneAt.append (h : AloneAt absent i s) (hs : s ≠ []) : AloneAt absent i (s ++ u) := by
  obtain ⟨q, s, rfl⟩ := List.exists_cons_of_ne_nil hs
  intro hall e he
  exact h (fun e he => hall e (List.mem_append_left _ he)) e he

theorem AloneAt.of_append (h : AloneAt absent i (s ++ u)) (hu : ∀ e ∈ u, e.kind = absent) :
    AloneAt absent i s := by
  intro hall e he
  refine h (fun e he => ?_) e ?_
  · exact (List.mem_append.1 he).elim (hall e) (hu e)
  · rw [List.head?_append, he]
    rfl

theorem AloneAt.join {r : Edit} (h : AloneAt absent i (s ++ q :: t :: u)) (hkind : q.kind = t.kind)
    (hr : r.kind = q.kind) (hplace : r.place absent = q.place absent) :
    AloneAt absent i (s ++ r :: u) := by
  intro hall e he
  have hall' : ∀ e ∈ s ++ q :: t :: u, e.kind = absent := by
    simp only [List.mem_append, List.mem_cons, or_imp, forall_and, forall_eq] at hall ⊢
    exact ⟨hall.1, by rw [← hr, hall.2.1], by rw [← hkind, ← hr, hall.2.1], hall.2.2⟩
  have h := h hall'
  cases s with
  | nil =>
    obtain rfl : r = e := by simpa using he
    rw [hplace]
    exact h q (by simp)
  | cons e' s => exact h e (by simpa using he)

/-- A removal and an addition side by side are not both of the kind that the text lacks. -/
theorem aloneAt_of_ne (hne : q.kind ≠ t.kind) : AloneAt absent i (s ++ q :: t :: u) := by
  intro hall
  have hq := hall q (by simp)
  have ht := hall t (by simp)
  exact absurd (hq.trans ht.symm) hne

theorem AloneAt.opening_swap (h : AloneAt absent i (opening (s ++ q :: t :: u)))
    (hq : q.kind ≠ .kept) (ht : t.kind ≠ .kept) (hne : q.kind ≠ t.kind) :
    AloneAt absent i (opening (s ++ t :: q :: u)) := by
  by_cases hs : Loose s
  · rw [opening_append_of_loose hs, opening_cons ht, opening_cons hq]
    exact aloneAt_of_ne hne.symm
  · rwa [opening_append_of_not_loose hs] at h ⊢

theorem AloneAt.opening_join {r : Edit} (h : AloneAt absent i (opening (s ++ q :: t :: u)))
    (hq : q.kind ≠ .kept) (hkind : q.kind = t.kind) (hr : r.kind = q.kind)
    (hplace : r.place absent = q.place absent) : AloneAt absent i (opening (s ++ r :: u)) := by
  by_cases hs : Loose s
  · rw [opening_append_of_loose hs, opening_cons hq, opening_cons (hkind ▸ hq)] at h
    rw [opening_append_of_loose hs, opening_cons (hr ▸ hq)]
    exact h.join hkind hr hplace
  · rwa [opening_append_of_not_loose hs] at h ⊢

theorem AloneAt.closing_swap (h : AloneAt absent i (closing (s ++ q :: t :: u)))
    (hq : q.kind ≠ .kept) (ht : t.kind ≠ .kept) (hne : q.kind ≠ t.kind) :
    AloneAt absent i (closing (s ++ t :: q :: u)) := by
  by_cases hu : Loose u
  · rw [closing_append_of_loose (loose_cons.2 ⟨ht, loose_cons.2 ⟨hq, hu⟩⟩)]
    exact aloneAt_of_ne hne.symm
  · rw [closing_append_of_not_loose (by simp [loose_cons, hu])] at h ⊢
    rw [closing_cons_of_not_loose (by simp [loose_cons, hu]), closing_cons_of_not_loose hu] at h ⊢
    exact h

theorem AloneAt.closing_join {r : Edit} (h : AloneAt absent i (closing (s ++ q :: t :: u)))
    (hq : q.kind ≠ .kept) (hkind : q.kind = t.kind) (hr : r.kind = q.kind)
    (hplace : r.place absent = q.place absent) : AloneAt absent i (closing (s ++ r :: u)) := by
  by_cases hu : Loose u
  · rw [closing_append_of_loose (loose_cons.2 ⟨hq, loose_cons.2 ⟨hkind ▸ hq, hu⟩⟩)] at h
    rw [closing_append_of_loose (loose_cons.2 ⟨hr ▸ hq, hu⟩)]
    exact h.join hkind hr hplace
  · rw [closing_append_of_not_loose (by simp [loose_cons, hu]),
      closing_cons_of_not_loose (by simp [loose_cons, hu]), closing_cons_of_not_loose hu] at h
    rwa [closing_append_of_not_loose (by simp [loose_cons, hu]), closing_cons_of_not_loose hu]

/-- A run of edits that a text lacks stands at one place from its start to its end. -/
theorem Exact.aloneAt (h : Exact absent i s) :
    AloneAt absent (i + (without absent s).length) s := by
  intro hall e he
  obtain ⟨u, rfl⟩ := List.head?_eq_some_iff.1 he
  rw [without_eq_nil hall]
  exact h.1 trivial

theorem Exact.aloneAt_opening (h : Exact absent i s) : AloneAt absent i (opening s) := by
  obtain ⟨u, hs⟩ := exists_opening_append s
  rw [hs, Exact, placedFrom_append] at h
  intro hall
  have halone := Exact.aloneAt h.1 hall
  rwa [without_eq_nil hall] at halone

theorem Exact.aloneAt_closing (h : Exact absent i s) :
    AloneAt absent (i + (without absent s).length) (closing s) := by
  obtain ⟨u, hs⟩ := exists_append_closing s
  have hplaces := h
  rw [hs, Exact, placedFrom_append] at hplaces
  have halone := Exact.aloneAt hplaces.2
  rwa [Nat.add_assoc, ← List.length_append, ← without_append, ← hs] at halone

end Alone

end Script

namespace Focus

open Script

variable {absent : EditKind}

theorem exists_keepAfter (lines : List String) (old new : Nat) (s : Script) :
    ∃ q rest, keepAfter lines old new s = q :: rest ∧ q.kind = .kept := by
  cases s with
  | nil => exact ⟨_, _, rfl, rfl⟩
  | cons e s =>
    by_cases he : e.kind = .kept
    · exact ⟨⟨e.kind, lines ++ e.lines, _, _⟩, s, by rw [keepAfter, if_pos he], he⟩
    · exact ⟨⟨.kept, lines, old, new⟩, e :: s, by rw [keepAfter, if_neg he], rfl⟩

theorem opening_keepBefore (lines : List String) (old new : Nat) (s t : Script) :
    opening ((keepBefore lines old new s).reverse ++ t) = opening s.reverse := by
  cases s with
  | nil => simp [keepBefore, opening]
  | cons e s =>
    by_cases he : e.kind = .kept
    · simp only [keepBefore, he, if_true, List.reverse_cons, List.append_assoc,
        List.singleton_append]
      rw [opening_append_kept rfl, opening_append_kept he]
    · simp only [keepBefore, he, if_false]
      rw [List.reverse_cons, List.append_assoc, List.singleton_append, opening_append_kept rfl]

theorem closing_keepAfter (lines : List String) (old new : Nat) (s t : Script) :
    closing (t ++ keepAfter lines old new s) = closing s := by
  cases s with
  | nil => rw [keepAfter, closing_append_kept rfl]
  | cons e s =>
    by_cases he : e.kind = .kept
    · simp only [keepAfter, he, if_true]
      rw [closing_append_kept rfl, ← List.nil_append (e :: s), closing_append_kept he]
    · simp only [keepAfter, he, if_false]
      rw [closing_append_kept rfl]

/-- Nothing that is alone in a text comes to the front: an addition that slid there would stand
after a copy of its own end. And what is alone there was so before: an addition that slid away would
stand before a copy of its own start. -/
theorem Step.opening_alone {f g : Focus} {a b : List String} (h : Step f g) (hf : f.Turns a b)
    (hb : EndsOnce b) (habsent : absent ≠ .kept) (halone : AloneAt absent 0 (opening f.toScript)) :
    AloneAt absent 0 (opening g.toScript) := by
  have hnew : f.toScript.without .removed = b := hf.script.new
  have hsolid := hf.script.solid
  have hkind := hf.kind
  unfold toScript at *
  cases h with
  | @slideUp q t before after left moved rest hq ht hmoved hleft hrest =>
    rw [List.reverse_cons, List.append_assoc, List.singleton_append, opening_append_kept hq]
      at halone
    by_cases hall : left = []
    · obtain ⟨k, kept, hkeep, hk⟩ := exists_keepAfter moved (q.old + left.length)
        (t.new + rest.length) after
      simp only [Script.push, hall, List.isEmpty_nil, if_true] at hkeep ⊢
      rw [hkeep]
      by_cases hloose : Loose before.reverse
      · rw [opening_append_of_loose hloose, opening_cons (by simp [ht]), opening_cons_kept hk]
        rw [opening_of_loose hloose] at halone
        by_cases hbefore : before = []
        · refine absurd hnew.symm ?_
          simpa [hbefore, Edit.without, hq, ht, hleft, hrest, hall] using
            hb.not_first_twice hmoved (u := rest)
        · exact halone.append (by simpa using hbefore)
      · rw [opening_append_of_not_loose hloose]
        exact halone
    · have hpush : Script.push { q with lines := left } before =
          { q with lines := left } :: before := by
        simp [Script.push, hall]
      rw [hpush, List.reverse_cons, List.append_assoc, List.singleton_append,
        opening_append_kept (by exact hq)]
      exact halone
  | @slideDown q t before after left moved rest hq ht hmoved hleft hrest =>
    rw [opening_keepBefore]
    by_cases hloose : Loose before.reverse
    · rw [opening_append_of_loose hloose, opening_cons (by simp [ht]), opening_cons_kept hq]
        at halone
      rw [opening_of_loose hloose]
      intro hall e he
      obtain rfl | rfl := added_or_removed habsent
      · exact halone.of_append (by simp [ht]) hall e he
      · refine absurd hnew.symm ?_
        simpa [without_eq_nil hall, Edit.without, hq, ht, hleft, hrest] using
          hb.not_first_twice hmoved (u := rest)
    · rwa [opening_append_of_not_loose hloose] at halone
  | skipUp hq hempty =>
    exact absurd hempty (hsolid _ (by simp))
  | skipDown hq hempty =>
    exact absurd hempty (hsolid _ (by simp))
  | joinUp hq hsame =>
    simp only [List.reverse_cons, List.append_assoc, List.singleton_append] at halone
    exact halone.opening_join hq hsame rfl rfl
  | joinDown hq hsame => exact halone.opening_join hkind hsame.symm rfl rfl
  | swapUp hq hne =>
    simp only [List.reverse_cons, List.append_assoc, List.singleton_append] at halone
    exact halone.opening_swap hq hkind hne
  | swapDown hq hne =>
    simp only [List.reverse_cons, List.append_assoc, List.singleton_append]
    exact halone.opening_swap hkind hq hne.symm

/-- A removal that is alone at the end was so before: an addition that slid away would stand after a
copy of its own end. -/
theorem Step.closing_alone {f g : Focus} {a b : List String} {i : Nat} (h : Step f g)
    (hf : f.Turns a b) (hb : EndsOnce b) (halone : AloneAt .removed i (closing f.toScript)) :
    AloneAt .removed i (closing g.toScript) := by
  have hnew : f.toScript.without .removed = b := hf.script.new
  have hsolid := hf.script.solid
  have hkind := hf.kind
  unfold toScript at *
  cases h with
  | @slideUp q t before after left moved rest hq ht hmoved hleft hrest =>
    rw [List.reverse_cons, List.append_assoc, List.singleton_append, closing_append_kept hq]
      at halone
    rw [List.append_cons, closing_keepAfter]
    by_cases hloose : Loose after
    · rw [closing_of_loose hloose]
      intro hall
      refine absurd hnew.symm ?_
      simpa [without_eq_nil hall, Edit.without, hq, ht, hleft, hrest] using
        hb.not_last_twice hmoved (u := Script.without .removed before.reverse ++ left) (v := rest)
    · rwa [closing_cons_of_not_loose hloose] at halone
  | @slideDown q t before after left moved rest hq ht hmoved hleft hrest =>
    rw [List.append_cons, closing_append_kept hq] at halone
    by_cases hall : left = []
    · simp only [Script.push, hall, List.isEmpty_nil, if_true]
      by_cases hloose : Loose after
      · rw [closing_append_of_loose (loose_cons.2 ⟨by simp [ht], hloose⟩)]
        exact aloneAt_of_mem (List.mem_append_right _ List.mem_cons_self) (by simp [ht])
      · rw [List.append_cons, closing_append_of_not_loose hloose]
        exact halone
    · have hpush : ∀ old new, Script.push ⟨q.kind, left, old, new⟩ after =
          ⟨q.kind, left, old, new⟩ :: after := by
        simp [Script.push, hall]
      rw [hpush, List.append_cons, closing_append_kept (by exact hq)]
      exact halone
  | skipUp hq hempty =>
    exact absurd hempty (hsolid _ (by simp))
  | skipDown hq hempty =>
    exact absurd hempty (hsolid _ (by simp))
  | joinUp hq hsame =>
    simp only [List.reverse_cons, List.append_assoc, List.singleton_append] at halone
    exact halone.closing_join hq hsame rfl rfl
  | joinDown hq hsame => exact halone.closing_join hkind hsame.symm rfl rfl
  | swapUp hq hne =>
    simp only [List.reverse_cons, List.append_assoc, List.singleton_append] at halone
    exact halone.closing_swap hq hkind hne
  | swapDown hq hne =>
    simp only [List.reverse_cons, List.append_assoc, List.singleton_append]
    exact halone.closing_swap hkind hq hne.symm

end Focus

/-- What the diff of two texts records about its script. -/
structure Script.Records (s : Script) (b : List String) : Prop where
  placed : ∀ absent, absent ≠ .kept → s.Placed absent 0
  opening : ∀ absent, absent ≠ .kept → AloneAt absent 0 s.opening
  closing : AloneAt .removed b.length s.closing

theorem Focus.Step.records {f g : Focus} {a b : List String} (h : Step f g) (hf : f.Turns a b)
    (hb : EndsOnce b) (hrecords : f.toScript.Records b) : g.toScript.Records b where
  placed absent habsent := h.placed habsent hf.kind (hrecords.placed absent habsent)
  opening absent habsent := h.opening_alone hf hb habsent (hrecords.opening absent habsent)
  closing := h.closing_alone hf hb hrecords.closing

theorem script_records (a b : List String) : (script 0 0 a b).Records b where
  placed absent habsent := by
    have hexact := script_exact habsent 0 0 a b
    rw [side_self] at hexact
    exact hexact.mono fun _ _ => trivial
  opening absent habsent := by
    have hexact := script_exact habsent 0 0 a b
    rw [side_self] at hexact
    exact hexact.aloneAt_opening
  closing := by
    have hexact : (script 0 0 a b).Exact .removed (side .removed 0 0) :=
      script_exact (by decide) 0 0 a b
    have halone := hexact.aloneAt_closing
    rw [← Script.newLines_eq, (script_turns 0 0 a b).new] at halone
    simpa using halone

/-- What every move preserves holds of a script when it is tidied, if it held before. -/
theorem sweepFrom_induction {kind : EditKind} {motive : Script → Prop} {a b : List String}
    (hkind : kind ≠ .kept)
    (hstep : ∀ f g : Focus, Focus.Step f g → f.Turns a b → motive f.toScript → motive g.toScript)
    {before rest : Script} (h : Script.Turns (before.reverse ++ rest) a b)
    (hmotive : motive (before.reverse ++ rest)) : motive (sweepFrom kind before rest) := by
  fun_induction sweepFrom kind before rest with
  | case1 before => simpa using hmotive
  | case2 before e rest hsame f ih =>
    have hfocus : Focus.Turns ⟨before, e, rest⟩ a b := ⟨by simpa [hsame] using hkind, h⟩
    have hsettled : f.Turns a b ∧ motive f.toScript :=
      Focus.settle_induction (motive := fun g => g.Turns a b ∧ motive g.toScript)
        ⟨hfocus, hmotive⟩ fun g g' hmove hg => ⟨hmove.turns hg.1, hstep g g' hmove hg.1 hg.2⟩
    refine ih ?_ ?_
    · simpa [Focus.toScript] using hsettled.1.script
    · simpa [Focus.toScript] using hsettled.2
  | case3 before e rest hne ih =>
    refine ih ?_ ?_
    · simpa using h
    · simpa using hmotive

theorem compact_records {s : Script} {a b : List String} (hb : EndsOnce b) (h : s.Turns a b)
    (hrecords : s.Records b) : (compact s).Records b := by
  have hstep : ∀ f g : Focus, Focus.Step f g → f.Turns a b → f.toScript.Records b →
      g.toScript.Records b := fun _ _ hmove hf hrecords => hmove.records hf hb hrecords
  have hremoved : (sweepFrom .removed [] s).Records b :=
    sweepFrom_induction (motive := (·.Records b)) (by decide) hstep h hrecords
  have hturns : (sweepFrom .removed [] s).Turns a b := sweepFrom_turns (by decide) h
  exact sweepFrom_induction (motive := (·.Records b)) (by decide) hstep hturns hremoved

theorem between_records {old new : String} (h : EndsOnce (Text.lines new)) :
    (between old new).Records (Text.lines new) :=
  compact_records h (script_turns 0 0 _ _) (script_records _ _)

end JsonLayout.Diff
