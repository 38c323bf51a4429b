import JsonLayout.Proofs.Text.Lines

/-!
# Whole lines joined and cut again

Lines that have something in them and have an end are found again in the text that they make up. This
holds also if lines end after line feeds only, as long as no carriage return comes without one.
-/

namespace JsonLayout.Text

theorem unbroken_nil : Unbroken [] := by simp [Unbroken]

theorem unbroken_cons {c : Char} {s : List Char} :
    Unbroken (c :: s) ↔ (c ≠ '\n' ∧ c ≠ '\r') ∧ Unbroken s := by simp [Unbroken]

theorem unbroken_append {s t : List Char} : Unbroken (s ++ t) ↔ Unbroken s ∧ Unbroken t := by
  constructor
  · exact fun h => ⟨fun c hc => h c (by simp [hc]), fun c hc => h c (by simp [hc])⟩
  · exact fun h c hc => (List.mem_append.1 hc).elim (h.1 c) (h.2 c)

/-- A body without line ends in it, and one of these ends. -/
def Cut (endings : List (List Char)) (line : String) : Prop :=
  ∃ body ending, Unbroken body ∧ ending ∈ endings ∧ line.toList = body ++ ending

/-- The same, with something in the body. -/
def Whole (endings : List (List Char)) (line : String) : Prop :=
  ∃ body ending, Unbroken body ∧ body ≠ [] ∧ ending ∈ endings ∧ line.toList = body ++ ending

abbrev lineEnds : List (List Char) := [['\n'], ['\r', '\n'], ['\r']]

abbrev feedEnds : List (List Char) := [['\n'], ['\r', '\n']]

/-- After every carriage return comes a line feed. -/
def Fed (s : List Char) : Prop := ∀ pre rest, s = pre ++ '\r' :: rest → rest.head? = some '\n'

theorem fed_nil : Fed [] := by simp [Fed]

theorem fed_cons {c : Char} {s : List Char} :
    Fed (c :: s) ↔ (c = '\r' → s.head? = some '\n') ∧ Fed s := by
  constructor
  · intro h
    exact ⟨fun hc => h [] s (by simp [hc]), fun pre rest hs => h (c :: pre) rest (by simp [hs])⟩
  · rintro ⟨hc, hs⟩ pre rest h
    cases pre with
    | nil =>
      obtain ⟨rfl, rfl⟩ := List.cons.inj h
      exact hc rfl
    | cons d pre => exact hs pre rest (List.cons.inj h).2

theorem CutInto.cut {s : List Char} {ls : List String} (h : CutInto s ls) :
    ∀ l ∈ ls, Cut ([] :: lineEnds) l := by
  induction h with
  | nil => simp
  | last hbody => simpa using ⟨_, [], hbody, by simp, by simp⟩
  | @line body ending rest ls hbody hending h ih =>
    refine List.forall_mem_cons.2 ⟨⟨body, ending, hbody, ?_, String.toList_ofList⟩, ih⟩
    rcases hending with rfl | rfl | ⟨rfl, -⟩ <;> simp

theorem CutInto.cut_of_fed {s : List Char} {ls : List String} (h : CutInto s ls) (hfed : Fed s) :
    ∀ l ∈ ls, Cut ([] :: feedEnds) l := by
  induction h with
  | nil => simp
  | last hbody => simpa using ⟨_, [], hbody, by simp, by simp⟩
  | @line body ending rest ls hbody hending h ih =>
    have hrest : Fed rest := fun pre post hpost =>
      hfed (body ++ ending ++ pre) post (by simp [hpost])
    refine List.forall_mem_cons.2 ⟨⟨body, ending, hbody, ?_, String.toList_ofList⟩, ih hrest⟩
    rcases hending with rfl | rfl | ⟨rfl, hlone⟩
    · simp
    · simp
    · exact absurd (hfed body rest (by simp)) hlone

theorem endsLine_of_unbroken {line : String} (h : Unbroken line.toList) : endsLine line = false := by
  cases hlast : line.toList.getLast? with
  | none => simp [endsLine, hlast]
  | some c => simpa [endsLine, hlast] using h c (List.mem_of_getLast? hlast)

theorem endsLine_of_ending {line : String} {body ending : List Char} (hending : ending ∈ lineEnds)
    (hline : line.toList = body ++ ending) : endsLine line = true := by
  simp only [lineEnds, List.mem_cons, List.not_mem_nil, or_false] at hending
  rcases hending with rfl | rfl | rfl <;> simp [endsLine, hline]

theorem linesFrom_body (done : List String) (line : List Char) {body : List Char}
    (hbody : Unbroken body) (rest : List Char) :
    linesFrom done line (body ++ rest) = linesFrom done (body.reverse ++ line) rest := by
  induction body generalizing line with
  | nil => rfl
  | cons c body ih =>
    obtain ⟨hfeed, hreturn⟩ := hbody c (by simp)
    have hbody' : Unbroken body := fun d hd => hbody d (by simp [hd])
    rw [List.cons_append, linesFrom, if_neg (by simp [hfeed, hreturn]), ih _ hbody']
    · simp
    · intro _ hc
      exact absurd hc hreturn

theorem linesFrom_ending (done : List String) (line : List Char) {ending rest : List Char}
    (hending : ending ∈ lineEnds) (hrest : rest.head? ≠ some '\n') :
    linesFrom done line (ending ++ rest) =
      linesFrom (String.ofList (line.reverse ++ ending) :: done) [] rest := by
  simp only [lineEnds, List.mem_cons, List.not_mem_nil, or_false] at hending
  rcases hending with rfl | rfl | rfl
  · simp [linesFrom]
  · simp [linesFrom]
  · cases rest with
    | nil => simp [linesFrom]
    | cons c rest =>
      have hc : c ≠ '\n' := by simpa using hrest
      simp [linesFrom, hc]

theorem Whole.head_ne {endings : List (List Char)} {line : String} (h : Whole endings line)
    (rest : List Char) : (line.toList ++ rest).head? ≠ some '\n' := by
  obtain ⟨body, ending, hbody, hne, -, hline⟩ := h
  obtain ⟨c, body, rfl⟩ := List.exists_cons_of_ne_nil hne
  simpa [hline] using (hbody c (by simp)).1

theorem lines_join {ls : List String} (h : ∀ l ∈ ls, Whole lineEnds l) :
    lines (String.join ls) = ls := by
  suffices hdone : ∀ done, linesFrom done [] (String.join ls).toList = done.reverse ++ ls from
    hdone []
  induction ls with
  | nil => simp [linesFrom]
  | cons l ls ih =>
    intro done
    obtain ⟨hl, hls⟩ := List.forall_mem_cons.1 h
    have hnext : (String.join ls).toList.head? ≠ some '\n' := by
      cases ls with
      | nil => simp
      | cons l' ls => simpa using (hls l' (by simp)).head_ne _
    obtain ⟨body, ending, hbody, hne, hending, hline⟩ := hl
    have hl : l = String.ofList (body ++ ending) := by rw [← hline, String.ofList_toList]
    rw [String.join_cons, String.toList_append, hline, List.append_assoc, linesFrom_body _ _ hbody,
      linesFrom_ending _ _ hending hnext, ih hls]
    simp [hl]

/-- Lines that end after line feeds only; `line` is the open one, last character first. -/
def feedLinesFrom (line : List Char) : List Char → List String
  | [] => if line.isEmpty then [] else [String.ofList line.reverse]
  | c :: rest =>
      if c = '\n' then String.ofList (c :: line).reverse :: feedLinesFrom [] rest
      else feedLinesFrom (c :: line) rest

def feedLines (s : String) : List String := feedLinesFrom [] s.toList

theorem feedLinesFrom_body (line : List Char) {body : List Char} (hbody : ∀ c ∈ body, c ≠ '\n')
    (rest : List Char) :
    feedLinesFrom line (body ++ rest) = feedLinesFrom (body.reverse ++ line) rest := by
  induction body generalizing line with
  | nil => rfl
  | cons c body ih =>
    obtain ⟨hc, hbody'⟩ := List.forall_mem_cons.1 hbody
    rw [List.cons_append, feedLinesFrom, if_neg hc, ih _ hbody']
    simp

theorem feedLinesFrom_line {body ending : List Char} (hbody : Unbroken body)
    (hending : ending ∈ feedEnds) (rest : List Char) : feedLinesFrom [] (body ++ ending ++ rest) =
      String.ofList (body ++ ending) :: feedLinesFrom [] rest := by
  have hfeed : ∀ c ∈ body, c ≠ '\n' := fun c hc => (hbody c hc).1
  rw [List.append_assoc, feedLinesFrom_body [] hfeed]
  simp only [feedEnds, List.mem_cons, List.not_mem_nil, or_false] at hending
  rcases hending with rfl | rfl <;> simp [feedLinesFrom]

theorem feedLines_join {ls : List String} (h : ∀ l ∈ ls, Whole feedEnds l) :
    feedLines (String.join ls) = ls := by
  induction ls with
  | nil => rfl
  | cons l ls ih =>
    obtain ⟨⟨body, ending, hbody, -, hending, hline⟩, hls⟩ := List.forall_mem_cons.1 h
    have hrest : feedLinesFrom [] (String.join ls).toList = ls := ih hls
    rw [feedLines, String.join_cons, String.toList_append, hline, feedLinesFrom_line hbody hending,
      hrest, ← hline, String.ofList_toList]

/-- Without lone carriage returns, both ways to cut a text give the same lines. -/
theorem CutInto.feedLinesFrom_eq {s : List Char} {ls : List String} (h : CutInto s ls)
    (hfed : Fed s) : feedLinesFrom [] s = ls := by
  induction h with
  | nil => rfl
  | last hbody hne =>
    have hopen := feedLinesFrom_body [] (fun c hc => (hbody c hc).1) []
    simpa [feedLinesFrom, hne] using hopen
  | @line body ending rest ls hbody hending h ih =>
    have hrest : Fed rest := fun pre post hpost =>
      hfed (body ++ ending ++ pre) post (by simp [hpost])
    have hfeed : ending ∈ feedEnds := by
      rcases hending with rfl | rfl | ⟨rfl, hlone⟩
      · simp
      · simp
      · exact absurd (hfed body rest (by simp)) hlone
    rw [feedLinesFrom_line hbody hfeed, ih hrest]

theorem feedLines_eq {s : String} (hfed : Fed s.toList) : feedLines s = lines s :=
  (lines_cutInto s).feedLinesFrom_eq hfed

end JsonLayout.Text
