import JsonLayout.Json.Layout
import JsonLayout.Proofs.Json.Alternatives
import JsonLayout.Proofs.Json.FirstFault

/-!
# The nesting limit

The containers that the reader stands in are the brackets that a scan finds open, and never more
than the limit. It refuses a bracket for being too deep exactly where another value could start but
the limit is reached. What it returns is written by calls that nest no deeper.
-/

namespace JsonLayout.Json

open Text (byteLength)

/-! The depth of a state. -/

/-- How many containers have been entered and not been left. -/
def Gap.depth : Gap → Nat
  | .value place => place.depth
  | .firstItem _ outer | .itemEnd _ _ outer | .key _ _ outer | .colon _ _ _ outer
  | .memberEnd _ _ outer => outer.depth + 1
  | .done _ => 0

def StringRole.depth : StringRole → Nat
  | .value place => place.depth
  | .key _ _ outer => outer.depth + 1

def State.depth : State → Nat
  | .gap g => g.depth
  | .string role .. => role.depth
  | .literal place .. | .number place .. => place.depth

/-- A container that starts at `start` has just been entered, to this depth. The depth is not handed
on from value to value: it is one more than the height of the stack outside, on which the container
has been put. -/
inductive State.Enters (start : Nat) : State → Nat → Prop
  | array (outer : Context) : Enters start (.gap (.firstItem start outer)) (outer.depth + 1)
  | object (outer : Context) : Enters start (.gap (.key start [] outer)) (outer.depth + 1)

variable {p : List Char} {c : Char} {offset : Nat} {state next : State} {e : ParseError}

theorem Gap.length_opened (g : Gap) : g.opened.length = g.depth := by
  cases g <;> simp [Gap.opened, Gap.depth, Context.length_opened]

theorem StringRole.length_opened (role : StringRole) : role.opened.length = role.depth := by
  cases role <;> simp [StringRole.opened, StringRole.depth, Context.length_opened]

theorem State.length_opened (state : State) : state.opened.length = state.depth := by
  cases state with
  | gap g => exact g.length_opened
  | string role => exact role.length_opened
  | literal place | number place => exact place.length_opened

theorem Context.Before.depth_le {place : Context} (h : place.Before p) :
    place.depth ≤ maxDepth := by
  cases h with
  | top => exact Nat.zero_le _
  | array _ hdepth | object _ hdepth => exact hdepth

theorem Gap.After.depth_le {g : Gap} (h : g.After p) : g.depth ≤ maxDepth := by
  cases h with
  | value h => exact h.depth_le
  | firstItem _ hdepth | itemEnd _ hdepth | key _ hdepth | colon _ hdepth | memberEnd _ hdepth =>
    exact hdepth
  | done => exact Nat.zero_le _

theorem State.After.depth_le (h : state.After p) : state.depth ≤ maxDepth := by
  cases h with
  | gap h => exact h.depth_le
  | string hrole =>
    cases hrole with
    | value h => exact h.depth_le
    | key h => exact h.depth_le
  | literal hplace | number hplace => exact hplace.depth_le

/-- After every text that has been read, the reader is as deep as there are brackets open. -/
theorem State.depth_of_run (hrun : (State.gap (.value .top)).run 0 p = .ok state) :
    state.depth = (scan p).opened.length ∧ state.depth ≤ maxDepth := by
  refine ⟨?_, (after_of_run hrun).depth_le⟩
  rw [(agrees_of_run hrun).opened, state.length_opened]

theorem State.Enters.depth_eq {depth : Nat} (h : next.Enters offset depth) :
    next.depth = depth := by
  cases h <;> rfl

/-! Brackets. -/

theorem isSpace_of_bracket (hc : c = '[' ∨ c = '{') : isSpace c = false := by
  rcases hc with rfl | rfl <;> rfl

theorem startValue_bracket {wanted : List Wanted} {place : Context} (hc : c = '[' ∨ c = '{')
    (hstart : startValue wanted place offset c = .ok next) :
    ∃ depth, next.Enters offset depth := by
  unfold startValue at hstart
  rcases hc with rfl | rfl
  · simp only [if_true] at hstart
    split_ifs at hstart
    cases hstart
    exact ⟨_, .array place⟩
  · simp only [Char.reduceEq, if_true, if_false] at hstart
    split_ifs at hstart
    cases hstart
    exact ⟨_, .object place⟩

/-- Between tokens, a bracket that opens is either refused or enters a container. -/
theorem Gap.step_bracket {g : Gap} (hc : c = '[' ∨ c = '{') (hstep : g.step offset c = .ok next) :
    ∃ depth, next.Enters offset depth := by
  have hspace : ¬ isSpace c = true := by simp [isSpace_of_bracket hc]
  unfold Gap.step at hstep
  rw [if_neg hspace] at hstep
  cases g with
  | value place => exact startValue_bracket hc hstep
  | firstItem start outer =>
    simp only at hstep
    split_ifs at hstep with hclose
    · subst hclose
      simp at hc
    · exact startValue_bracket hc hstep
  | key start before outer =>
    simp only at hstep
    split_ifs at hstep with hquote hempty hclose
    · subst hquote
      simp at hc
    · subst hclose
      simp at hc
  | itemEnd | colon | memberEnd => rcases hc with rfl | rfl <;> simp at hstep
  | done => contradiction

/-- What stands at the beginning of a text that is read is read. -/
theorem State.exists_run_of_append {t : List Char}
    (hrun : state.run offset (p ++ t) = .ok next) :
    ∃ middle, state.run offset p = .ok middle ∧
      middle.run (offset + byteLength p) t = .ok next := by
  cases hp : state.run offset p with
  | ok middle => exact ⟨middle, rfl, (run_append hp).symm.trans hrun⟩
  | error e =>
    obtain ⟨q, c, r, last, rfl, hq, hstep⟩ := exists_step_of_run hp
    rw [List.append_assoc, run_append hq, List.cons_append, run, hstep] at hrun
    contradiction

theorem StringPart.zone_ne_outside (part : StringPart) : part.zone ≠ .outside := by
  cases part <;> simp [StringPart.zone]

theorem not_plain_of_bracket (hc : c = '[' ∨ c = '{') : ¬ Scan.Plain c := by
  rcases hc with rfl | rfl <;> simp [Scan.Plain]

/-- Outside of strings, a character that goes on with no number and no literal comes in a gap. -/
theorem State.Agrees.exists_gap_of_step {k : Scan} (h : state.Agrees k) (hzone : k.zone = .outside)
    (hnumber : ¬ NumberChar c)
    (hliteral : ∀ place word d rest, state = .literal place word d rest → c ≠ d)
    (hstep : state.step k.bytes c = .ok next) :
    ∃ g, state.Ends g ∧ g.step k.bytes c = .ok next := by
  cases state with
  | gap g => exact ⟨g, .gap g, hstep⟩
  | string role start lexeme part => exact absurd (h.1.symm.trans hzone) part.zone_ne_outside
  | literal place word d rest =>
    simp only [State.step, if_neg (hliteral place word d rest rfl)] at hstep
    contradiction
  | number place lexeme part =>
    obtain ⟨-, -, hends⟩ := h
    simp only [State.step] at hstep
    split at hstep
    · rename_i part' hnext
      exact absurd (NumberPart.endsAt_next hnext hends).1 hnumber
    · contradiction
    · rename_i hcomplete
      exact ⟨_, .number place lexeme (NumberPart.endError?_of_complete hcomplete), hstep⟩

theorem State.step_bracket {k : Scan} (hagrees : state.Agrees k) (hzone : k.zone = .outside)
    (hc : c = '[' ∨ c = '{') (hstep : state.step k.bytes c = .ok next) :
    ∃ depth, next.Enters k.bytes depth := by
  have hnumber : ¬ NumberChar c := mt Scan.plain_of_numberChar (not_plain_of_bracket hc)
  have hliteral : ∀ place word d rest, state = .literal place word d rest → c ≠ d := by
    rintro place word d rest rfl rfl
    obtain ⟨-, -, hplain⟩ := hagrees
    exact not_plain_of_bracket hc (hplain c List.mem_cons_self)
  obtain ⟨g, -, hgap⟩ := hagrees.exists_gap_of_step hzone hnumber hliteral hstep
  exact Gap.step_bracket hc hgap

/-- Every bracket that is read outside of a string enters a container, and its depth is the number
of brackets that are then open. -/
theorem State.enters_of_run (hc : c = '[' ∨ c = '{') (hzone : (scan p).zone = .outside)
    (hrun : (State.gap (.value .top)).run 0 (p ++ [c]) = .ok next) :
    ∃ depth, next.Enters (byteLength p) depth ∧ depth = (scan (p ++ [c])).opened.length ∧
      depth ≤ maxDepth := by
  obtain ⟨state, hp, hlast⟩ := exists_run_of_append hrun
  obtain ⟨last, hstep, hnil⟩ := run_cons_ok hlast
  cases hnil
  have hbytes : (scan p).bytes = 0 + byteLength p := by rw [bytes_scan, Nat.zero_add]
  rw [← hbytes] at hstep
  obtain ⟨depth, henters⟩ := step_bracket (agrees_of_run hp) hzone hc hstep
  obtain ⟨hopened, hle⟩ := depth_of_run hrun
  rw [henters.depth_eq] at hopened hle
  rw [hbytes, Nat.zero_add] at henters
  exact ⟨depth, henters, hopened, hle⟩

/-! Where `null` may start. -/

/-- No literal under way goes on with the letter that `null` starts with. -/
def State.PastStart : State → Prop
  | .literal _ _ next rest => 'n' ∉ next :: rest
  | _ => True

theorem startValue_pastStart {wanted : List Wanted} {place : Context}
    (hstart : startValue wanted place offset c = .ok next) : next.PastStart := by
  unfold startValue at hstart
  split_ifs at hstart <;> try cases hstart
  · trivial
  · trivial
  · trivial
  · simp [State.PastStart]
  · simp [State.PastStart]
  · simp [State.PastStart]
  · split at hstart
    · cases hstart
      trivial
    · contradiction

theorem Gap.pastStart_of_step {g : Gap} (hstep : g.step offset c = .ok next) :
    next.PastStart := by
  unfold Gap.step at hstep
  by_cases hspace : isSpace c = true
  · rw [if_pos hspace] at hstep
    cases hstep
    trivial
  rw [if_neg hspace] at hstep
  cases g with
  | value place => exact startValue_pastStart hstep
  | firstItem start outer =>
    simp only at hstep
    split_ifs at hstep with hclose
    · cases hstep
      trivial
    · exact startValue_pastStart hstep
  | itemEnd | key | colon | memberEnd =>
    simp only at hstep
    split_ifs at hstep <;> cases hstep <;> trivial
  | done => contradiction

theorem stringStep_pastStart {role : StringRole} {start : Nat} {lexeme : List Char}
    {part : StringPart} (hstep : stringStep role start lexeme offset c part = .ok next) :
    next.PastStart := by
  cases part with
  | plain | escape =>
    simp only [stringStep] at hstep
    split_ifs at hstep <;> cases hstep <;> trivial
  | hex backslash more =>
    simp only [stringStep] at hstep
    split_ifs at hstep
    cases more <;> cases hstep <;> trivial

namespace State

theorem PastStart.step (h : state.PastStart) (hstep : state.step offset c = .ok next) :
    next.PastStart := by
  cases state with
  | gap g => exact Gap.pastStart_of_step hstep
  | string role start lexeme part => exact stringStep_pastStart hstep
  | literal place word d rest =>
    simp only [State.step] at hstep
    split_ifs at hstep
    cases rest with
    | nil =>
      cases hstep
      trivial
    | cons d' rest =>
      cases hstep
      exact mt (List.mem_cons_of_mem d) h
  | number place lexeme part =>
    simp only [State.step] at hstep
    split at hstep
    · cases hstep
      trivial
    · contradiction
    · exact Gap.pastStart_of_step hstep

theorem PastStart.run {s : List Char} (h : state.PastStart)
    (hrun : state.run offset s = .ok next) : next.PastStart := by
  induction s generalizing offset state with
  | nil =>
    cases hrun
    exact h
  | cons c s ih =>
    obtain ⟨middle, hstep, hrest⟩ := run_cons_ok hrun
    exact ih (h.step hstep) hrest

end State

theorem Gap.admits_of_step {g : Gap} (hstep : g.step offset 'n' = .ok next) :
    ∃ place, g.Admits place := by
  cases g with
  | value place => exact ⟨_, .value place⟩
  | firstItem start outer => exact ⟨_, .firstItem start outer⟩
  | key start before outer => cases before <;> simp [Gap.step, isSpace] at hstep
  | itemEnd | colon | memberEnd | done => simp [Gap.step, isSpace] at hstep

theorem not_numberChar_n : ¬ NumberChar 'n' := by
  unfold NumberChar Digit
  decide

/-- Outside of strings, the letter that `null` starts with is read only where a value may start. -/
theorem State.admits_of_step {k : Scan} (h : state.PastStart) (hagrees : state.Agrees k)
    (hzone : k.zone = .outside) (hstep : state.step k.bytes 'n' = .ok next) :
    ∃ g place, state = .gap g ∧ g.Admits place := by
  have hliteral : ∀ place word d rest, state = .literal place word d rest → 'n' ≠ d := by
    rintro place word d rest rfl rfl
    exact h List.mem_cons_self
  obtain ⟨g, hends, hgap⟩ := hagrees.exists_gap_of_step hzone not_numberChar_n hliteral hstep
  obtain ⟨place, hg⟩ := Gap.admits_of_step hgap
  cases hends with
  | gap => exact ⟨g, place, rfl, hg⟩
  | number outer => cases outer <;> cases hg

theorem State.exists_run_of_completable {t : List Char} (h : Completable (p ++ t)) :
    ∃ state next, (State.gap (.value .top)).run 0 p = .ok state ∧
      state.run (byteLength p) t = .ok next := by
  obtain ⟨r, tree, hparse⟩ := h
  unfold Tree.parse at hparse
  split at hparse
  · rename_i last hrun
    obtain ⟨next, hnext, -⟩ := exists_run_of_append hrun
    obtain ⟨state, hp, ht⟩ := exists_run_of_append hnext
    rw [Nat.zero_add] at ht
    exact ⟨state, next, hp, ht⟩
  · contradiction

/-- Where `null` may start outside of strings, the reader stands in a gap that admits a value. -/
theorem State.admits_of_completable (hzone : (scan p).zone = .outside)
    (h : Completable (p ++ "null".toList)) :
    ∃ g place, (State.gap (.value .top)).run 0 p = .ok (.gap g) ∧ g.Admits place := by
  obtain ⟨state, last, hrun, hnull⟩ := exists_run_of_completable h
  obtain ⟨next, hstep, -⟩ := run_cons_ok hnull
  rw [← bytes_scan] at hstep
  -- Only this tells the first letter of `null` from a later one of a literal under way.
  have hstart : (State.gap (.value .top)).PastStart := trivial
  obtain ⟨g, place, rfl, hg⟩ :=
    admits_of_step (hstart.run hrun) (agrees_of_run hrun) hzone hstep
  exact ⟨g, place, hrun, hg⟩

/-! The limit. -/

theorem Gap.Admits.before {g : Gap} {place : Context} (hg : g.Admits place) (h : g.After p) :
    place.Before p := by
  cases hg with
  | value =>
    cases h with
    | value h => exact h
  | firstItem =>
    cases h with
    | firstItem houter hdepth hw =>
      have hbefore : ItemsBefore (List.reverse []) [] := .none
      simpa using Context.Before.array houter hdepth hbefore (by simp) hw

theorem Gap.Admits.step_tooDeep {g : Gap} {place : Context} (hg : g.Admits place)
    (hc : c = '[' ∨ c = '{') (hdepth : maxDepth ≤ place.depth) :
    (State.gap g).step offset c = .error (.tooDeep offset) := by
  have hlimit : ¬ place.depth < maxDepth := Nat.not_lt.mpr hdepth
  cases hg with
  | value | firstItem =>
    rcases hc with rfl | rfl <;> simp [State.step, Gap.step, isSpace, startValue, hlimit]

/-- The text has at `offset` a bracket that opens outside of strings, where a value may start and
as many brackets are open as may be. -/
def OpensTooDeep (s : List Char) (offset : Nat) : Prop :=
  ∃ p c r, s = p ++ c :: r ∧ byteLength p = offset ∧ (c = '[' ∨ c = '{') ∧
    (scan p).zone = .outside ∧ Completable (p ++ "null".toList) ∧
    (scan p).opened.length = maxDepth

theorem State.Refuses.opensTooDeep {r : List Char}
    (hrun : (State.gap (.value .top)).run 0 p = .ok state)
    (h : state.Refuses (byteLength p) c (.tooDeep offset)) : OpensTooDeep (p ++ c :: r) offset := by
  cases h with
  | @tooDeep g place hg hdepth hc =>
    have hagrees := agrees_of_run hrun
    have hafter := after_of_run hrun
    cases hafter with
    | gap h =>
      have hplace := hg.before h
      refine ⟨p, c, r, rfl, rfl, hc, hagrees.1, hplace.completable .null, ?_⟩
      rw [hagrees.2, hg.length_opened]
      exact Nat.le_antisymm hplace.depth_le hdepth

theorem tooDeep_of_parse {s : List Char} (h : Tree.parse s = .error (.tooDeep offset)) :
    OpensTooDeep s offset := by
  rcases Tree.parse_error_cases h with ⟨p, c, r, state, rfl, hrun, hstep⟩ | ⟨state, hrun, hfinish⟩
  · exact (State.refuses_of_step hstep).opensTooDeep hrun
  · have hlacks := State.lacks_of_finish hfinish
    cases hlacks

theorem OpensTooDeep.parse {s : List Char} (h : OpensTooDeep s offset) :
    Tree.parse s = .error (.tooDeep offset) := by
  obtain ⟨p, c, r, rfl, rfl, hc, hzone, hnull, hopened⟩ := h
  obtain ⟨g, place, hrun, hg⟩ := State.admits_of_completable hzone hnull
  have hdepth : place.depth = maxDepth := by
    rw [← hg.length_opened, ← (State.agrees_of_run hrun).2, hopened]
  exact Tree.parse_of_step hrun (hg.step_tooDeep hc hdepth.ge) r

/-! Writing with calls that nest within a limit. -/

mutual

/-- Append a tree as `Tree.write` does, if no more than `limit` containers are entered at once. -/
def Tree.writeWithin : Nat → String → Nat → Tree → Option String
  | _, out, _, .scalar lexeme => some (out ++ lexeme)
  | 0, _, _, _ => none
  | _ + 1, out, _, .array [] => some (out ++ "[]")
  | limit + 1, out, depth, .array (item :: items) => do
      let first ← item.writeWithin limit (out ++ "[" ++ newLine (depth + 1)) (depth + 1)
      let all ← writeItemsWithin limit first depth items
      some (all ++ newLine depth ++ "]")
  | _ + 1, out, _, .object [] => some (out ++ "\x7b\x7d")
  | limit + 1, out, depth, .object ((key, value) :: members) => do
      let first ← value.writeWithin limit
        (out ++ "\x7b" ++ newLine (depth + 1) ++ key ++ ": ") (depth + 1)
      let all ← writeMembersWithin limit first depth members
      some (all ++ newLine depth ++ "\x7d")

/-- The items after the first one, each of which may enter `limit` containers. -/
def writeItemsWithin (limit : Nat) (out : String) (depth : Nat) : List Tree → Option String
  | [] => some out
  | item :: items => do
      let next ← item.writeWithin limit (out ++ "," ++ newLine (depth + 1)) (depth + 1)
      writeItemsWithin limit next depth items

/-- The members after the first one, each of which may enter `limit` containers. -/
def writeMembersWithin (limit : Nat) (out : String) (depth : Nat) :
    List (String × Tree) → Option String
  | [] => some out
  | (key, value) :: members => do
      let next ← value.writeWithin limit
        (out ++ "," ++ newLine (depth + 1) ++ key ++ ": ") (depth + 1)
      writeMembersWithin limit next depth members

end

/-- The limit is no hindrance to writing the tree. -/
def Tree.IsWrittenWithin (limit : Nat) (tree : Tree) : Prop :=
  ∀ out depth, tree.writeWithin limit out depth = some (tree.write out depth)

theorem writeItemsWithin_eq {limit : Nat} {items : List Tree}
    (hitems : ∀ item ∈ items, item.IsWrittenWithin limit) (out : String) (depth : Nat) :
    writeItemsWithin limit out depth items = some (writeItems out depth items) := by
  induction items generalizing out with
  | nil => rfl
  | cons item items ih =>
    obtain ⟨hitem, hitems⟩ := List.forall_mem_cons.mp hitems
    rw [writeItemsWithin, hitem, Option.bind_eq_bind, Option.bind_some, ih hitems, writeItems]

theorem writeMembersWithin_eq {limit : Nat} {members : List (String × Tree)}
    (hmembers : ∀ m ∈ members, m.2.IsWrittenWithin limit) (out : String) (depth : Nat) :
    writeMembersWithin limit out depth members = some (writeMembers out depth members) := by
  induction members generalizing out with
  | nil => rfl
  | cons m members ih =>
    obtain ⟨hvalue, hmembers⟩ := List.forall_mem_cons.mp hmembers
    rw [writeMembersWithin, hvalue, Option.bind_eq_bind, Option.bind_some, ih hmembers,
      writeMembers]

theorem Tree.NestsWithin.isWrittenWithin {limit : Nat} {tree : Tree} (h : tree.NestsWithin limit) :
    tree.IsWrittenWithin limit := by
  intro out depth
  induction h generalizing out depth with
  | scalar => rw [writeWithin, write]
  | @array limit items _ ih =>
    cases items with
    | nil => rw [writeWithin, write]
    | cons item items =>
      obtain ⟨hitem, hitems⟩ := List.forall_mem_cons.mp ih
      rw [writeWithin, hitem, Option.bind_eq_bind, Option.bind_some, writeItemsWithin_eq hitems,
        write]
      rfl
  | @object limit members _ ih =>
    cases members with
    | nil => rw [writeWithin, write]
    | cons m members =>
      obtain ⟨hvalue, hmembers⟩ := List.forall_mem_cons.mp ih
      rw [writeWithin, hvalue, Option.bind_eq_bind, Option.bind_some,
        writeMembersWithin_eq hmembers, write]
      rfl

/-- The reader refuses a bracket for being too deep exactly where a value may start and 512
brackets are open, whatever comes after it. In every text, as far as it is read, the depth is the
number of brackets open and at most 512, and it is the depth to which a container is entered, as
every bracket that is read does. A tree that is returned nests within 512 containers and is written
without entering more at once. -/
theorem parse_nesting_limit (s : List Char) :
    (∀ i, Tree.parse s = .error (.tooDeep i) ↔
      ∃ p c r, s = p ++ c :: r ∧ byteLength p = i ∧ (c = '[' ∨ c = '{') ∧
        (scan p).zone = .outside ∧ Completable (p ++ "null".toList) ∧
        (scan p).opened.length = 512) ∧
    (∀ p r state, s = p ++ r → (State.gap (.value .top)).run 0 p = .ok state →
      state.depth = (scan p).opened.length ∧ state.depth ≤ 512 ∧
        ∀ start depth, state.Enters start depth → depth = state.depth) ∧
    (∀ p c r state, s = p ++ c :: r → (c = '[' ∨ c = '{') → (scan p).zone = .outside →
      (State.gap (.value .top)).run 0 (p ++ [c]) = .ok state →
      ∃ depth, state.Enters (byteLength p) depth ∧ depth = (scan (p ++ [c])).opened.length ∧
        depth ≤ 512) ∧
    ∀ tree, Tree.parse s = .ok tree →
      tree.NestsWithin 512 ∧ tree.writeWithin 512 "" 0 = some (tree.write "" 0) := by
  refine ⟨fun i => ?_, ?_, ?_, ?_⟩
  · constructor
    · exact tooDeep_of_parse
    · exact OpensTooDeep.parse
  · rintro p r state - hrun
    obtain ⟨hopened, hle⟩ := State.depth_of_run hrun
    exact ⟨hopened, hle, fun start depth henters => henters.depth_eq.symm⟩
  · rintro p c r state - hc hzone hrun
    exact State.enters_of_run hc hzone hrun
  · intro tree htree
    obtain ⟨-, hnests⟩ := Tree.spelled_of_parse htree
    exact ⟨hnests, hnests.isWrittenWithin "" 0⟩

/-- A sibling that has been closed does not count, and containers of both kinds do. -/
theorem parse_nesting_limit_siblings :
    let p := "\x7b\"a\":[],\"b\":".toList ++ List.replicate 511 '['
    (scan p).opened.length = 512 ∧ Tree.parse (p ++ "\x7b\"c".toList) = .error (.tooDeep 523) := by
  intro p
  have hscan : byteLength p = 523 ∧ (scan p).zone = .outside ∧ (scan p).opened.length = 512 := by
    decide +kernel
  obtain ⟨hbytes, hzone, hopened⟩ := hscan
  have haccepted : (Tree.parse (p ++ "null".toList ++ (List.replicate 511 ']' ++ ['}']))).isOk := by
    decide +kernel
  have hnull : Completable (p ++ "null".toList) := by
    refine ⟨List.replicate 511 ']' ++ ['}'], ?_⟩
    cases htree : Tree.parse (p ++ "null".toList ++ (List.replicate 511 ']' ++ ['}'])) with
    | ok tree => exact ⟨tree, rfl⟩
    | error e =>
      rw [htree] at haccepted
      cases haccepted
  refine ⟨hopened, ((parse_nesting_limit _).1 523).mpr ?_⟩
  exact ⟨p, '{', "\"c".toList, rfl, hbytes, .inr rfl, hzone, hnull, hopened⟩

end JsonLayout.Json
