import JsonLayout.Proofs.Json.Positions
import Mathlib.Data.List.Basic

/-!
# The alternatives that errors list

Where the reader stops and lists what could have come next, each of the alternatives could have, in
every spelling for which there is room, and no character starts anything else there. Only a number
at the end of the text may also go on.
-/

namespace JsonLayout.Json

open Text (byteLength)

/-- What an alternative can be spelled as, where `room` more containers may be opened. -/
inductive Wanted.Spelling (room : Nat) : Wanted → List Char → Prop
  | value {tree : Tree} {s : List Char} (h : Spelled (.value tree) s)
      (hnests : tree.NestsWithin room) : Spelling room .value s
  | key {s : List Char} (h : Quoted s) : Spelling room .key s
  | digit {c : Char} (h : Digit c) : Spelling room .digit [c]
  | char (c : Char) : Spelling room (.char c) [c]

/-- How many more containers may be opened after a text. -/
def room (s : List Char) : Nat := maxDepth - (scan s).opened.length

/-- The text ends in a whole number, and with the character in a part of a longer one. -/
def ExtendsNumber (s : List Char) (c : Char) : Prop :=
  ∃ q n m, s = q ++ n ∧ MayStartValue q ∧ Number n ∧ Number (n ++ c :: m)

/-- What can come after a text is what the list says. -/
structure Alternatives (wanted : List Wanted) (s : List Char) : Prop where
  spelling : ∀ w ∈ wanted, ∃ t, w.Spelling (room s) t
  completable : ∀ w ∈ wanted, ∀ t, w.Spelling (room s) t → Completable (s ++ t)
  complete : ∀ c, isSpace c = false → ¬ ExtendsNumber s c → Completable (s ++ [c]) →
    ∃ w ∈ wanted, ∃ t, w.Spelling (room s) (c :: t)

namespace Wanted

theorem Spelling.scalar {room : Nat} {s : List Char} (h : Scalar s) :
    Wanted.Spelling room .value s := by
  obtain ⟨lexeme, rfl⟩ : ∃ lexeme : String, s = lexeme.toList := ⟨String.ofList s, by simp⟩
  exact .value (.scalar h) .scalar

theorem exists_spelling (room : Nat) (w : Wanted) : ∃ s, w.Spelling room s := by
  cases w with
  | value => exact ⟨_, .scalar .null⟩
  | key => exact ⟨_, .key (.quotes .nil)⟩
  | digit => exact ⟨['0'], .digit (digit_iff.mpr rfl)⟩
  | char c => exact ⟨[c], .char c⟩

end Wanted

theorem Context.length_opened (place : Context) : place.opened.length = place.depth := by
  induction place with
  | top => rfl
  | array start before outer ih => rw [opened, List.length_cons, ih, depth]
  | object start before key outer ih => rw [opened, List.length_cons, ih, depth]

theorem Gap.Admits.length_opened {g : Gap} {place : Context} (hg : g.Admits place) :
    g.opened.length = place.depth := by
  cases hg with
  | value => exact place.length_opened
  | firstItem start outer => rw [Gap.opened, List.length_cons, outer.length_opened, Context.depth]

variable {offset : Nat} {c : Char} {s p : List Char} {state next : State} {w : Wanted}
  {wanted : List Wanted}

/-! What is listed can come next. -/

theorem State.run_single (h : state.step offset c = .ok next) :
    state.run offset [c] = .ok next := by
  rw [run_cons h, run]

theorem Gap.Admits.run_value {g : Gap} {place : Context} (hg : g.Admits place)
    (hs : Wanted.value.Spelling (maxDepth - g.opened.length) s) (offset : Nat) :
    ∃ next, (State.gap g).run offset s = .ok next := by
  rw [hg.length_opened] at hs
  cases hs with
  | value h hnests =>
    obtain ⟨next, hrun, -⟩ := h.isRead offset g place hg hnests
    exact ⟨next, hrun⟩

theorem Gap.run_key {start room : Nat} {before : List (String × Tree)} {outer : Context}
    (hs : Wanted.key.Spelling room s) (offset : Nat) :
    ∃ next, (State.gap (.key start before outer)).run offset s = .ok next := by
  cases hs with
  | key h => exact ⟨_, State.run_quoted (fun _ => Gap.step_openKey) h⟩

theorem State.step_literal (place : Context) (word : Literal) (c : Char) (rest : List Char)
    (offset : Nat) : ∃ next, (State.literal place word c rest).step offset c = .ok next := by
  cases rest with
  | nil => exact ⟨_, if_pos rfl⟩
  | cons d rest => exact ⟨_, if_pos rfl⟩

theorem NumberPart.next_minus (hc : Digit c) (offset : Nat) :
    ∃ part, NumberPart.next offset c .minus = .more part := by
  simp only [NumberPart.next, digit_iff.mp hc]
  split
  · exact ⟨_, rfl⟩
  · exact ⟨_, rfl⟩

theorem State.Expects.run (h : state.Expects wanted) (hw : w ∈ wanted)
    (hs : w.Spelling (maxDepth - state.opened.length) s) (offset : Nat) :
    ∃ next, state.run offset s = .ok next := by
  cases h with
  | value place =>
    obtain rfl := List.mem_singleton.mp hw
    exact (Gap.Admits.value place).run_value hs offset
  | firstItem start outer =>
    rcases List.mem_pair.mp hw with rfl | rfl
    · exact (Gap.Admits.firstItem start outer).run_value hs offset
    · cases hs
      exact ⟨_, State.run_single Gap.step_closeEmptyArray⟩
  | itemEnd hends =>
    rcases List.mem_pair.mp hw with rfl | rfl <;> cases hs
    · exact ⟨_, State.run_single (Gap.step_nextItem hends)⟩
    · exact ⟨_, State.run_single (Gap.step_closeArray hends)⟩
  | firstKey start outer =>
    rcases List.mem_pair.mp hw with rfl | rfl
    · exact Gap.run_key hs offset
    · cases hs
      exact ⟨_, State.run_single Gap.step_closeEmptyObject⟩
  | nextKey start outer =>
    obtain rfl := List.mem_singleton.mp hw
    exact Gap.run_key hs offset
  | colon start before key outer =>
    obtain rfl := List.mem_singleton.mp hw
    cases hs
    exact ⟨_, State.run_single Gap.step_colon⟩
  | memberEnd hends =>
    rcases List.mem_pair.mp hw with rfl | rfl <;> cases hs
    · exact ⟨_, State.run_single (Gap.step_nextMember hends)⟩
    · exact ⟨_, State.run_single (Gap.step_closeObject hends)⟩
  | literal place word c rest =>
    obtain rfl := List.mem_singleton.mp hw
    cases hs
    obtain ⟨next, hstep⟩ := State.step_literal place word c rest offset
    exact ⟨next, State.run_single hstep⟩
  | minus place lexeme =>
    obtain rfl := List.mem_singleton.mp hw
    cases hs with
    | digit hc =>
      obtain ⟨part, hnext⟩ := NumberPart.next_minus hc offset
      exact ⟨_, State.run_single (State.step_number hnext)⟩
  | point place lexeme =>
    obtain rfl := List.mem_singleton.mp hw
    cases hs with
    | digit hc =>
      have hnext := NumberPart.digitLeads_point offset _ (digit_iff.mp hc)
      exact ⟨_, State.run_single (State.step_number hnext)⟩

/-! What can come next is listed. -/

theorem NumberPart.After.exists_number {part : NumberPart} (h : part.After s) :
    ∃ m, Number (s ++ m) := by
  have hzero : ∀ {part'}, part.next 0 '0' = .more part' → part'.endError? = none →
      ∃ m, Number (s ++ m) := fun hnext hend => ⟨['0'], (h.next hnext).number hend⟩
  cases part with
  | minus | point | exponent | exponentSign => exact hzero rfl rfl
  | zero | integer | fraction | exponentDigits => exact ⟨[], by simpa using h.number rfl⟩

/-- A character that starts a value is the first of one for which there is room. -/
theorem exists_spelling_of_startValue {place : Context}
    (h : startValue wanted place offset c = .ok state) :
    ∃ s, Wanted.Spelling (maxDepth - place.depth) .value (c :: s) := by
  unfold startValue at h
  split_ifs at h with harray hlt hobject hlt hquote hnull htrue hfalse
  · subst harray
    exact ⟨[']'], .value (.emptyArray Ws.nil) (.array_of_lt hlt (by simp))⟩
  · subst hobject
    exact ⟨['}'], .value (.emptyObject Ws.nil) (.object_of_lt hlt (by simp))⟩
  · subst hquote
    exact ⟨['"'], .scalar (.string (.quotes .nil))⟩
  · subst hnull
    exact ⟨_, .scalar .null⟩
  · subst htrue
    exact ⟨_, .scalar .true⟩
  · subst hfalse
    exact ⟨_, .scalar .false⟩
  · split at h
    · rename_i part hpart
      obtain ⟨m, hm⟩ := (NumberPart.After.start hpart).exists_number
      exact ⟨m, .scalar (.number hm)⟩
    · contradiction

theorem State.After.extendsNumber {place : Context} {lexeme : List Char} {part part' : NumberPart}
    (h : (State.number place lexeme part).After p) (hend : part.endError? = none)
    (hnext : part.next offset c = .more part') : ExtendsNumber p c := by
  obtain ⟨q, hplace, hpart, rfl⟩ := h.exists_number
  obtain ⟨m, hm⟩ := (hpart.next hnext).exists_number
  exact ⟨q, lexeme.reverse, m, rfl, hplace.mayStartValue, hpart.number hend, by simpa using hm⟩

/-- Where a value may have ended, a character that does not go on with it comes in the gap. -/
theorem State.Ends.step_of_not_extends {g : Gap} (h : state.Ends g) (hafter : state.After p)
    (hextends : ¬ ExtendsNumber p c) (hstep : state.step offset c = .ok next) :
    g.step offset c = .ok next := by
  cases h with
  | gap => exact hstep
  | number place lexeme hend =>
    simp only [State.step] at hstep
    split at hstep
    · rename_i part' hnext
      exact absurd (hafter.extendsNumber hend hnext) hextends
    · contradiction
    · exact hstep

theorem State.Expects.of_step (h : state.Expects wanted) (hafter : state.After p)
    (hspace : isSpace c = false) (hextends : ¬ ExtendsNumber p c)
    (hstep : state.step offset c = .ok next) :
    ∃ w ∈ wanted, ∃ s, w.Spelling (maxDepth - state.opened.length) (c :: s) := by
  have hspace : ¬ isSpace c = true := by simp [hspace]
  cases h with
  | value place =>
    simp only [State.step, Gap.step, if_neg hspace] at hstep
    obtain ⟨s, hs⟩ := exists_spelling_of_startValue hstep
    refine ⟨.value, List.mem_singleton_self _, s, ?_⟩
    rwa [State.opened, (Gap.Admits.value place).length_opened]
  | firstItem start outer =>
    simp only [State.step, Gap.step, if_neg hspace] at hstep
    split_ifs at hstep with hclose
    · exact ⟨_, List.mem_cons_of_mem _ (List.mem_singleton_self _), [], hclose ▸ .char c⟩
    · obtain ⟨s, hs⟩ := exists_spelling_of_startValue hstep
      refine ⟨.value, List.mem_cons_self, s, ?_⟩
      rwa [State.opened, (Gap.Admits.firstItem start outer).length_opened]
  | itemEnd hends =>
    have hgap := hends.step_of_not_extends hafter hextends hstep
    simp only [Gap.step, if_neg hspace] at hgap
    split_ifs at hgap with hcomma hclose
    · exact ⟨_, List.mem_cons_self, [], hcomma ▸ .char c⟩
    · exact ⟨_, List.mem_cons_of_mem _ (List.mem_singleton_self _), [], hclose ▸ .char c⟩
  | firstKey start outer =>
    simp only [State.step, Gap.step, if_neg hspace] at hstep
    split_ifs at hstep with hquote hempty hclose
    · subst hquote
      exact ⟨_, List.mem_cons_self, ['"'], .key (.quotes .nil)⟩
    · exact ⟨_, List.mem_cons_of_mem _ (List.mem_singleton_self _), [], hclose ▸ .char c⟩
  | nextKey start outer hbefore =>
    simp only [State.step, Gap.step, if_neg hspace] at hstep
    split_ifs at hstep with hquote hempty hclose
    · subst hquote
      exact ⟨_, List.mem_singleton_self _, ['"'], .key (.quotes .nil)⟩
    · exact absurd (List.isEmpty_iff.mp hempty) hbefore
  | colon start before key outer =>
    simp only [State.step, Gap.step, if_neg hspace] at hstep
    split_ifs at hstep with hcolon
    exact ⟨_, List.mem_singleton_self _, [], hcolon ▸ .char c⟩
  | memberEnd hends =>
    have hgap := hends.step_of_not_extends hafter hextends hstep
    simp only [Gap.step, if_neg hspace] at hgap
    split_ifs at hgap with hcomma hclose
    · exact ⟨_, List.mem_cons_self, [], hcomma ▸ .char c⟩
    · exact ⟨_, List.mem_cons_of_mem _ (List.mem_singleton_self _), [], hclose ▸ .char c⟩
  | literal place word d rest =>
    simp only [State.step] at hstep
    split_ifs at hstep with hnext
    exact ⟨_, List.mem_singleton_self _, [], hnext ▸ .char c⟩
  | minus place lexeme =>
    simp only [State.step, NumberPart.next] at hstep
    split_ifs at hstep with hzero hdigit
    · exact ⟨_, List.mem_singleton_self _, [], .digit (digit_iff.mpr (hzero ▸ rfl))⟩
    · exact ⟨_, List.mem_singleton_self _, [], .digit (digit_iff.mpr hdigit)⟩
  | point place lexeme =>
    simp only [State.step, NumberPart.next] at hstep
    split_ifs at hstep with hdigit
    exact ⟨_, List.mem_singleton_self _, [], .digit (digit_iff.mpr hdigit)⟩

/-! The lists of errors. -/

theorem State.exists_step_of_completable (hrun : (State.gap (.value .top)).run 0 p = .ok state)
    (h : Completable (p ++ [c])) : ∃ next, state.step (byteLength p) c = .ok next := by
  obtain ⟨t, tree, hparse⟩ := h
  unfold Tree.parse at hparse
  rw [List.append_assoc, State.run_append hrun, Nat.zero_add] at hparse
  split at hparse
  · rename_i last hrest
    obtain ⟨next, hstep, -⟩ := State.run_cons_ok hrest
    exact ⟨next, hstep⟩
  · contradiction

theorem State.Expects.alternatives (h : state.Expects wanted)
    (hrun : (State.gap (.value .top)).run 0 p = .ok state) : Alternatives wanted p := by
  have hroom : room p = maxDepth - state.opened.length := by
    rw [room, (State.agrees_of_run hrun).opened]
  refine ⟨fun w _ => w.exists_spelling _, fun w hw s hs => ?_, fun c hspace hextends hc => ?_⟩
  · obtain ⟨next, hnext⟩ := h.run hw (hroom ▸ hs) (0 + byteLength p)
    exact (State.after_of_run ((State.run_append hrun).trans hnext)).completable
  · obtain ⟨next, hstep⟩ := State.exists_step_of_completable hrun hc
    rw [hroom]
    exact h.of_step (State.after_of_run hrun) hspace hextends hstep

/-- What the error says could have come next is what can, after the text before it. -/
def ParseError.ListsAlternatives (s : List Char) : ParseError → Prop
  | .unexpected wanted _ offset c =>
      ∃ p r, s = p ++ c :: r ∧ byteLength p = offset ∧ Alternatives wanted p
  | .unexpectedEnd wanted _ => Alternatives wanted s
  | _ => True

theorem State.Refuses.listsAlternatives {r : List Char} {e : ParseError}
    (hrun : (State.gap (.value .top)).run 0 p = .ok state)
    (h : state.Refuses (byteLength p) c e) : e.ListsAlternatives (p ++ c :: r) := by
  cases h with
  | unexpected hwanted => exact ⟨p, r, rfl, rfl, hwanted.alternatives hrun⟩
  | _ => trivial

theorem State.Lacks.listsAlternatives {e : ParseError}
    (hrun : (State.gap (.value .top)).run 0 p = .ok state) (h : state.Lacks e) :
    e.ListsAlternatives p := by
  cases h with
  | unexpectedEnd hwanted => exact hwanted.alternatives hrun
  | _ => trivial

/-- The alternatives that an error lists are exactly what could have come next. -/
theorem parse_error_lists_alternatives {e : ParseError} (h : Tree.parse s = .error e) :
    e.ListsAlternatives s := by
  rcases Tree.parse_error_cases h with ⟨p, c, r, state, rfl, hrun, hstep⟩ | ⟨state, hrun, hfinish⟩
  · exact (State.refuses_of_step hstep).listsAlternatives hrun
  · exact (State.lacks_of_finish hfinish).listsAlternatives hrun

theorem parse_error_lists_alternatives_lateKey :
    let s := "\x7b\"a\": [1], \x7d".toList
    let e := ParseError.unexpected [.key] (.object 0) 11 '}'
    Tree.parse s = .error e ∧ e.ListsAlternatives s := by
  intro s e
  have h : Tree.parse s = .error e := by
    unfold s e
    rfl
  exact ⟨h, parse_error_lists_alternatives h⟩

end JsonLayout.Json
