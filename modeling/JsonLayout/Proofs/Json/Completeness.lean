import JsonLayout.Proofs.Json.Lexemes

/-!
# Every text of the grammar is read

A phrase takes the reader from a gap in which it may stand to a state after which the gap behind it
comes, with the phrase's tree put in its place. The depth that is left in that place has to be
enough for the tree.
-/

namespace JsonLayout.Json

theorem followsValue_comma : FollowsValue ',' := .inr (.inl rfl)

theorem followsValue_bracket : FollowsValue ']' := .inr (.inr (.inl rfl))

theorem followsValue_brace : FollowsValue '}' := .inr (.inr (.inr rfl))

namespace Tree.NestsWithin

theorem of_array {limit depth : Nat} {items : List Tree}
    (h : NestsWithin (limit - depth) (.array items)) :
    depth < limit ∧ ∀ item ∈ items, NestsWithin (limit - (depth + 1)) item := by
  generalize hd : limit - depth = left at h
  cases h with
  | @array left _ h =>
    have hleft : limit - (depth + 1) = left := by omega
    exact ⟨by omega, fun item hitem => hleft ▸ h item hitem⟩

theorem of_object {limit depth : Nat} {members : List (String × Tree)}
    (h : NestsWithin (limit - depth) (.object members)) :
    depth < limit ∧ ∀ m ∈ members, NestsWithin (limit - (depth + 1)) m.2 := by
  generalize hd : limit - depth = left at h
  cases h with
  | @object left _ h =>
    have hleft : limit - (depth + 1) = left := by omega
    exact ⟨by omega, fun m hm => hleft ▸ h m hm⟩

end Tree.NestsWithin

namespace Gap

variable {offset start : Nat} {g : Gap} {place outer : Context} {state : State}

theorem Admits.step_openArray (hg : g.Admits place) (h : place.depth < maxDepth) :
    (State.gap g).step offset '[' = .ok (.gap (.firstItem offset place)) :=
  hg.step (by decide) (by simp [startValue, h])

theorem Admits.step_openObject (hg : g.Admits place) (h : place.depth < maxDepth) :
    (State.gap g).step offset '{' = .ok (.gap (.key offset [] place)) :=
  hg.step (by decide) (by simp [startValue, h])

theorem step_closeEmptyArray : (State.gap (.firstItem start outer)).step offset ']' =
    .ok (.gap (outer.fill (.array []))) := by
  simp [State.step, Gap.step, isSpace]

theorem step_closeEmptyObject : (State.gap (.key start [] outer)).step offset '}' =
    .ok (.gap (outer.fill (.object []))) := by
  simp [State.step, Gap.step, isSpace]

theorem step_closeArray {before : List Tree} (h : state.Ends (.itemEnd start before outer)) :
    state.step offset ']' = .ok (.gap (outer.fill (.array before.reverse))) := by
  rw [h.step followsValue_bracket]
  simp [Gap.step, isSpace]

theorem step_closeObject {before : List (String × Tree)}
    (h : state.Ends (.memberEnd start before outer)) :
    state.step offset '}' = .ok (.gap (outer.fill (.object before.reverse))) := by
  rw [h.step followsValue_brace]
  simp [Gap.step, isSpace]

theorem step_nextItem {before : List Tree} (h : state.Ends (.itemEnd start before outer)) :
    state.step offset ',' = .ok (.gap (.value (.array start before outer))) := by
  rw [h.step followsValue_comma]
  simp [Gap.step, isSpace]

theorem step_nextMember {before : List (String × Tree)}
    (h : state.Ends (.memberEnd start before outer)) :
    state.step offset ',' = .ok (.gap (.key start before outer)) := by
  rw [h.step followsValue_comma]
  simp [Gap.step, isSpace]

theorem step_openKey {before : List (String × Tree)} :
    (State.gap (.key start before outer)).step offset '"' =
      .ok (.string (.key start before outer) offset ['"'] .plain) := by
  simp [State.step, Gap.step, isSpace]

theorem step_colon {before : List (String × Tree)} {key : String} :
    (State.gap (.colon start before key outer)).step offset ':' =
      .ok (.gap (.value (.object start before key outer))) := by
  simp [State.step, Gap.step, isSpace]

end Gap

/-- What reading the phrase does in every gap in which it may stand. -/
def Phrase.IsRead (s : List Char) : Phrase → Prop
  | .value tree | .element tree => ∀ offset g place, Gap.Admits g place →
      tree.NestsWithin (maxDepth - place.depth) →
      ∃ state, (State.gap g).run offset s = .ok state ∧ state.Ends (place.fill tree)
  | .items trees => ∀ offset start outer,
      (∀ tree ∈ trees, tree.NestsWithin (maxDepth - (outer.depth + 1))) →
      ∃ state, (State.gap (.firstItem start outer)).run offset s = .ok state ∧
        state.Ends (.itemEnd start trees.reverse outer)
  | .member key tree => ∀ offset start before outer,
      tree.NestsWithin (maxDepth - (outer.depth + 1)) →
      ∃ state, (State.gap (.key start before outer)).run offset s = .ok state ∧
        state.Ends (.memberEnd start ((key, tree) :: before) outer)
  | .members fields => ∀ offset start outer,
      (∀ m ∈ fields, m.2.NestsWithin (maxDepth - (outer.depth + 1))) →
      ∃ state, (State.gap (.key start [] outer)).run offset s = .ok state ∧
        state.Ends (.memberEnd start fields.reverse outer)

namespace Phrase

variable {s t w w' : List Char} {tree : Tree} {trees : List Tree} {key : String}
  {fields : List (String × Tree)}

theorem isRead_emptyArray (hw : Ws w) :
    (Phrase.value (.array [])).IsRead ('[' :: w ++ [']']) := by
  intro offset g place hg hdepth
  rw [List.cons_append, State.run_cons (hg.step_openArray hdepth.of_array.1),
    State.run_append (Gap.run_space (ws_iff.mp hw)), State.run_cons Gap.step_closeEmptyArray]
  exact ⟨_, rfl, .gap _⟩

theorem isRead_array (h : (Phrase.items trees).IsRead s) :
    (Phrase.value (.array trees)).IsRead ('[' :: s ++ [']']) := by
  intro offset g place hg hdepth
  obtain ⟨hlt, hitems⟩ := hdepth.of_array
  obtain ⟨state, hrun, hends⟩ := h (offset + '['.utf8Size) offset place hitems
  rw [List.cons_append, State.run_cons (hg.step_openArray hlt), State.run_append hrun,
    State.run_cons (Gap.step_closeArray hends)]
  exact ⟨_, rfl, by simpa using State.Ends.gap (place.fill (.array trees))⟩

theorem isRead_emptyObject (hw : Ws w) :
    (Phrase.value (.object [])).IsRead ('{' :: w ++ ['}']) := by
  intro offset g place hg hdepth
  rw [List.cons_append, State.run_cons (hg.step_openObject hdepth.of_object.1),
    State.run_append (Gap.run_space (ws_iff.mp hw)), State.run_cons Gap.step_closeEmptyObject]
  exact ⟨_, rfl, .gap _⟩

theorem isRead_object (h : (Phrase.members fields).IsRead s) :
    (Phrase.value (.object fields)).IsRead ('{' :: s ++ ['}']) := by
  intro offset g place hg hdepth
  obtain ⟨hlt, hmembers⟩ := hdepth.of_object
  obtain ⟨state, hrun, hends⟩ := h (offset + '{'.utf8Size) offset place hmembers
  rw [List.cons_append, State.run_cons (hg.step_openObject hlt), State.run_append hrun,
    State.run_cons (Gap.step_closeObject hends)]
  exact ⟨_, rfl, by simpa using State.Ends.gap (place.fill (.object fields))⟩

theorem isRead_element (hw : Ws w) (h : (Phrase.value tree).IsRead s) (hw' : Ws w') :
    (Phrase.element tree).IsRead (w ++ s ++ w') := by
  intro offset g place hg hdepth
  obtain ⟨state, hrun, hends⟩ := h (offset + Text.byteLength w) g place hg hdepth
  have hvalue := (State.run_append (Gap.run_space (ws_iff.mp hw))).trans hrun
  rw [State.run_append hvalue]
  exact hends.run_space (ws_iff.mp hw')

theorem isRead_firstItem (h : (Phrase.element tree).IsRead s) :
    (Phrase.items [tree]).IsRead s := by
  intro offset start outer hdepth
  exact h offset _ _ (.firstItem start outer) (hdepth tree (by simp))

theorem isRead_nextItem (h : (Phrase.items trees).IsRead s) (ht : (Phrase.element tree).IsRead t) :
    (Phrase.items (trees ++ [tree])).IsRead (s ++ ',' :: t) := by
  intro offset start outer hdepth
  obtain ⟨state, hrun, hends⟩ :=
    h offset start outer (fun item hitem => hdepth item (by simp [hitem]))
  rw [State.run_append hrun, State.run_cons (Gap.step_nextItem hends), List.reverse_append]
  exact ht _ _ _ (.value _) (hdepth tree (by simp))

theorem isRead_member (hw : Ws w) (hk : Quoted key.toList) (hw' : Ws w')
    (h : (Phrase.element tree).IsRead s) :
    (Phrase.member key tree).IsRead (w ++ key.toList ++ w' ++ ':' :: s) := by
  intro offset start before outer hdepth
  have hkey : ∀ offset, (State.gap (.key start before outer)).run offset key.toList =
      .ok (.gap (.colon start before key outer)) := by
    intro offset
    rw [State.run_quoted (fun _ => Gap.step_openKey) hk]
    simp [StringRole.fill]
  rw [List.append_assoc, List.append_assoc, State.run_append (Gap.run_space (ws_iff.mp hw)),
    State.run_append (hkey _), State.run_append (Gap.run_space (ws_iff.mp hw')),
    State.run_cons Gap.step_colon]
  exact h _ _ _ (.value _) hdepth

theorem isRead_firstMember (h : (Phrase.member key tree).IsRead s) :
    (Phrase.members [(key, tree)]).IsRead s := by
  intro offset start outer hdepth
  exact h offset start [] outer (hdepth (key, tree) (by simp))

theorem isRead_nextMember (h : (Phrase.members fields).IsRead s)
    (ht : (Phrase.member key tree).IsRead t) :
    (Phrase.members (fields ++ [(key, tree)])).IsRead (s ++ ',' :: t) := by
  intro offset start outer hdepth
  obtain ⟨state, hrun, hends⟩ := h offset start outer (fun m hm => hdepth m (by simp [hm]))
  rw [State.run_append hrun, State.run_cons (Gap.step_nextMember hends), List.reverse_append]
  exact ht _ start _ outer (hdepth (key, tree) (by simp))

end Phrase

theorem Spelled.isRead {phrase : Phrase} {s : List Char} (h : Spelled phrase s) :
    phrase.IsRead s := by
  induction h with
  | scalar h => exact fun _ _ _ hg _ => hg.run_scalar h
  | emptyArray hw => exact Phrase.isRead_emptyArray hw
  | array _ ih => exact Phrase.isRead_array ih
  | emptyObject hw => exact Phrase.isRead_emptyObject hw
  | object _ ih => exact Phrase.isRead_object ih
  | element hw _ hw' ih => exact Phrase.isRead_element hw ih hw'
  | firstItem _ ih => exact Phrase.isRead_firstItem ih
  | nextItem _ _ ih iht => exact Phrase.isRead_nextItem ih iht
  | member hw hk hw' _ ih => exact Phrase.isRead_member hw hk hw' ih
  | firstMember _ ih => exact Phrase.isRead_firstMember ih
  | nextMember _ _ ih iht => exact Phrase.isRead_nextMember ih iht

/-- A text of the grammar that does not nest too deep is read as the tree it stands for. -/
theorem Spelled.parse_eq_ok {tree : Tree} {s : List Char} (h : Spelled (.element tree) s)
    (hdepth : tree.NestsWithin maxDepth) : Tree.parse s = .ok tree := by
  obtain ⟨state, hrun, hends⟩ := h.isRead 0 _ .top (.value .top) hdepth
  rw [Tree.parse, hrun]
  exact hends.finish

end JsonLayout.Json
