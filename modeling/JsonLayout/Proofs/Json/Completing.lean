import JsonLayout.Proofs.Json.Completeness
import JsonLayout.Proofs.Json.Soundness

/-!
# What has been read can be completed

From every state of the reader some text leads to the end of a document: one that ends the scalar
under way, puts a value where one is due and closes what is open. Nothing more is ever opened for
it, so the depth limit is not in the way.
-/

namespace JsonLayout.Json

/-- Some text takes the reader from this state to the end of a document. -/
def State.CanFinish (state : State) : Prop :=
  ∀ offset, ∃ t last tree, state.run offset t = .ok last ∧ last.finish = .ok tree

namespace State.CanFinish

theorem of_run {state : State}
    (h : ∀ offset, ∃ s next, state.run offset s = .ok next ∧ next.CanFinish) :
    state.CanFinish := by
  intro offset
  obtain ⟨s, next, hrun, hnext⟩ := h offset
  obtain ⟨t, last, tree, hrest, hlast⟩ := hnext (offset + Text.byteLength s)
  exact ⟨s ++ t, last, tree, (run_append hrun).trans hrest, hlast⟩

theorem of_step {state : State} (c : Char)
    (h : ∀ offset, ∃ next, state.step offset c = .ok next ∧ next.CanFinish) :
    state.CanFinish := by
  refine of_run fun offset => ?_
  obtain ⟨next, hstep, hnext⟩ := h offset
  exact ⟨[c], next, run_cons hstep, hnext⟩

/-- Once a value has been read, closing what is open around it ends the document. -/
theorem of_ends {place : Context} {tree : Tree} {state : State}
    (h : state.Ends (place.fill tree)) : state.CanFinish := by
  induction place generalizing tree state with
  | top => exact fun _ => ⟨[], state, tree, rfl, h.finish⟩
  | array start before outer ih =>
    exact of_step ']' fun _ => ⟨_, Gap.step_closeArray h, ih (.gap _)⟩
  | object start before key outer ih =>
    exact of_step '}' fun _ => ⟨_, Gap.step_closeObject h, ih (.gap _)⟩

theorem fill {place : Context} {tree : Tree} : (State.gap (place.fill tree)).CanFinish :=
  of_ends (.gap _)

theorem value {place : Context} : (State.gap (.value place)).CanFinish := by
  refine of_run fun offset => ?_
  obtain ⟨state, hrun, hends⟩ : ∃ state, (State.gap (.value place)).run offset "null".toList =
      .ok state ∧ state.Ends (place.fill (.scalar "null")) :=
    (Gap.Admits.value place).run_scalar .null
  exact ⟨_, state, hrun, of_ends hends⟩

section Containers

variable {start : Nat} {outer : Context}

theorem colon {before : List (String × Tree)} {key : String} :
    (State.gap (.colon start before key outer)).CanFinish :=
  of_step ':' fun _ => ⟨_, Gap.step_colon, value⟩

theorem key {before : List (String × Tree)} :
    (State.gap (.key start before outer)).CanFinish :=
  of_run fun _ =>
    ⟨['"', '"'], _, State.run_quoted (fun _ => Gap.step_openKey) (.quotes .nil), colon⟩

end Containers

theorem gap {g : Gap} : (State.gap g).CanFinish := by
  cases g with
  | value place => exact value
  | firstItem start outer => exact of_step ']' fun _ => ⟨_, Gap.step_closeEmptyArray, fill⟩
  | itemEnd start before outer =>
    exact of_step ']' fun _ => ⟨_, Gap.step_closeArray (.gap _), fill⟩
  | key start before outer => exact key
  | colon start before k outer => exact colon
  | memberEnd start before outer =>
    exact of_step '}' fun _ => ⟨_, Gap.step_closeObject (.gap _), fill⟩
  | done tree => exact fun _ => ⟨[], _, tree, rfl, rfl⟩

section Scalars

variable {role : StringRole} {place : Context} {start : Nat} {lexeme : List Char}

theorem plain : (State.string role start lexeme .plain).CanFinish :=
  of_step '"' fun _ => ⟨_, rfl, gap⟩

theorem hex {backslash more : Nat} :
    (State.string role start lexeme (.hex backslash more)).CanFinish := by
  induction more generalizing lexeme with
  | zero => exact of_step '0' fun _ => ⟨_, rfl, plain⟩
  | succ more ih => exact of_step '0' fun _ => ⟨_, rfl, ih⟩

theorem literal {word : Literal} {next : Char} {rest : List Char} :
    (State.literal place word next rest).CanFinish := by
  induction rest generalizing next with
  | nil => exact of_step next fun _ => ⟨_, if_pos rfl, fill⟩
  | cons c rest ih => exact of_step next fun _ => ⟨_, if_pos rfl, ih⟩

theorem number_of_endError? (part : NumberPart) (h : part.endError? = none) :
    (State.number place lexeme part).CanFinish :=
  of_ends (.number place lexeme h)

/-- A digit is enough for a number that may not end yet. -/
theorem number {part : NumberPart} : (State.number place lexeme part).CanFinish := by
  cases part with
  | minus => exact of_step '0' fun offset => ⟨_, rfl, number_of_endError? (.zero offset) rfl⟩
  | point => exact of_step '0' fun _ => ⟨_, rfl, number_of_endError? .fraction rfl⟩
  | exponent start => exact of_step '0' fun _ => ⟨_, rfl, number_of_endError? .exponentDigits rfl⟩
  | exponentSign start =>
    exact of_step '0' fun _ => ⟨_, rfl, number_of_endError? .exponentDigits rfl⟩
  | zero | integer | fraction | exponentDigits => exact number_of_endError? _ rfl

end Scalars

end State.CanFinish

theorem State.canFinish (state : State) : state.CanFinish := by
  cases state with
  | gap g => exact .gap
  | string role start lexeme part =>
    cases part with
    | plain => exact .plain
    | escape backslash => exact .of_step 'n' fun _ => ⟨_, rfl, .plain⟩
    | hex backslash more => exact .hex
  | literal place word next rest => exact .literal
  | number place lexeme part => exact .number

/-- Some accepted text starts with this one. -/
def Completable (s : List Char) : Prop := ∃ t tree, Tree.parse (s ++ t) = .ok tree

theorem State.After.completable {state : State} {s : List Char} (h : state.After s) :
    Completable s := by
  obtain ⟨t, last, tree, hrun, hfinish⟩ := state.canFinish 0
  obtain ⟨hspelled, hnests⟩ := (h.run hrun).finish hfinish
  exact ⟨t, tree, hspelled.parse_eq_ok hnests⟩

/-- Where a value may start, one that is put there does no harm. -/
theorem Context.Before.completable {place : Context} {s lexeme : List Char}
    (h : place.Before s) (hlexeme : Scalar lexeme) : Completable (s ++ lexeme) :=
  (State.After.gap (h.fill_scalar hlexeme)).completable

theorem State.after_of_run {state : State} {s : List Char}
    (h : (State.gap (.value .top)).run 0 s = .ok state) : state.After s := by
  have hstart : (State.gap (.value .top)).After [] := .gap (.value (.top Ws.nil))
  simpa using hstart.run h

end JsonLayout.Json
