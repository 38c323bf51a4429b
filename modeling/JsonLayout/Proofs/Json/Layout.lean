import JsonLayout.Json.Layout
import JsonLayout.Proofs.Json.Tokens

/-!
# The layout is a text of the grammar

Whatever tree is laid out, if its scalars and keys are spelled as the grammar has them, then the
layout spells that tree again. The writers append to what has been written before, so each of their
lemmas says what they append.
-/

namespace JsonLayout.Json

/-- Scalars and keys are spelled as the grammar has them. -/
inductive Tree.WellSpelled : Tree → Prop
  | scalar {lexeme : String} (h : Scalar lexeme.toList) : WellSpelled (.scalar lexeme)
  | array {items : List Tree} (h : ∀ item ∈ items, WellSpelled item) : WellSpelled (.array items)
  | object {members : List (String × Tree)} (keys : ∀ m ∈ members, Quoted m.1.toList)
      (values : ∀ m ∈ members, WellSpelled m.2) : WellSpelled (.object members)

def Phrase.WellSpelled : Phrase → Prop
  | .value tree | .element tree => tree.WellSpelled
  | .items trees => ∀ tree ∈ trees, tree.WellSpelled
  | .member key tree => Quoted key.toList ∧ tree.WellSpelled
  | .members fields => ∀ m ∈ fields, Quoted m.1.toList ∧ m.2.WellSpelled

theorem Spelled.wellSpelled {phrase : Phrase} {s : List Char} (h : Spelled phrase s) :
    phrase.WellSpelled := by
  induction h with
  | scalar h => exact .scalar h
  | emptyArray => exact .array (by simp)
  | array _ ih => exact .array ih
  | emptyObject => exact .object (by simp) (by simp)
  | object _ ih => exact .object (fun m hm => (ih m hm).1) (fun m hm => (ih m hm).2)
  | element _ _ _ ih => exact ih
  | firstItem _ ih => exact List.forall_mem_singleton.mpr ih
  | nextItem _ _ ih iht =>
    exact List.forall_mem_append.mpr ⟨ih, List.forall_mem_singleton.mpr iht⟩
  | member _ hk _ _ ih => exact ⟨hk, ih⟩
  | firstMember _ ih => exact List.forall_mem_singleton.mpr ih
  | nextMember _ _ ih iht =>
    exact List.forall_mem_append.mpr ⟨ih, List.forall_mem_singleton.mpr iht⟩

theorem ws_newLine (depth : Nat) : Ws (newLine depth).toList := by
  simp +contextual [Ws, newLine, List.mem_replicate]

/-- Writing the tree appends a text that spells it. -/
def Tree.IsWritten (tree : Tree) : Prop :=
  ∀ out depth, ∃ s, (tree.write out depth).toList = out.toList ++ s ∧ Spelled (.value tree) s

theorem Tree.isWritten_scalar {lexeme : String} (h : Scalar lexeme.toList) :
    (Tree.scalar lexeme).IsWritten := by
  intro out depth
  exact ⟨lexeme.toList, by simp [Tree.write], .scalar h⟩

theorem writeItems_spelled {items trees : List Tree} {out : String} {p s : List Char} (depth : Nat)
    (hitems : ∀ item ∈ items, item.IsWritten) (hout : out.toList = p ++ s)
    (hs : Spelled (.items trees) s) : ∃ s', (writeItems out depth items).toList = p ++ s' ∧
      Spelled (.items (trees ++ items)) s' := by
  induction items generalizing trees out s with
  | nil => exact ⟨s, by simpa [writeItems] using hout, by simpa using hs⟩
  | cons item items ih =>
    obtain ⟨hitem, hitems⟩ := List.forall_mem_cons.mp hitems
    obtain ⟨v, hv, hspelled⟩ := hitem (out ++ "," ++ newLine (depth + 1)) (depth + 1)
    have hnext := hs.nextItem (.element (ws_newLine (depth + 1)) hspelled Ws.nil)
    have hwritten := ih hitems (hv.trans (by simp [hout])) hnext
    simpa [writeItems] using hwritten

theorem ws_space : Ws [' '] := by simp [Ws]

theorem writeMembers_spelled {members fields : List (String × Tree)} {out : String}
    {p s : List Char} (depth : Nat) (hkeys : ∀ m ∈ members, Quoted m.1.toList)
    (hvalues : ∀ m ∈ members, m.2.IsWritten) (hout : out.toList = p ++ s)
    (hs : Spelled (.members fields) s) : ∃ s', (writeMembers out depth members).toList = p ++ s' ∧
      Spelled (.members (fields ++ members)) s' := by
  induction members generalizing fields out s with
  | nil => exact ⟨s, by simpa [writeMembers] using hout, by simpa using hs⟩
  | cons m members ih =>
    obtain ⟨hkey, hkeys⟩ := List.forall_mem_cons.mp hkeys
    obtain ⟨hvalue, hvalues⟩ := List.forall_mem_cons.mp hvalues
    obtain ⟨v, hv, hspelled⟩ :=
      hvalue (out ++ "," ++ newLine (depth + 1) ++ m.1 ++ ": ") (depth + 1)
    have hnext := hs.nextMember (.member (ws_newLine (depth + 1)) hkey Ws.nil
      (.element ws_space hspelled Ws.nil))
    have hwritten := ih hkeys hvalues (hv.trans (by simp [hout])) hnext
    simpa [writeMembers] using hwritten

theorem Tree.isWritten_array {items : List Tree} (hitems : ∀ item ∈ items, item.IsWritten) :
    (Tree.array items).IsWritten := by
  intro out depth
  cases items with
  | nil => exact ⟨['[', ']'], by simp [Tree.write], .emptyArray Ws.nil⟩
  | cons item items =>
    obtain ⟨hitem, hitems⟩ := List.forall_mem_cons.mp hitems
    obtain ⟨v, hv, hspelled⟩ := hitem (out ++ "[" ++ newLine (depth + 1)) (depth + 1)
    have hfirst := Spelled.firstItem (.element (ws_newLine (depth + 1)) hspelled Ws.nil)
    have hbracket : (item.write (out ++ "[" ++ newLine (depth + 1)) (depth + 1)).toList =
        (out.toList ++ ['[']) ++ ((newLine (depth + 1)).toList ++ v ++ []) := by
      simp [hv]
    obtain ⟨s, hs, hall⟩ := writeItems_spelled depth hitems hbracket hfirst
    refine ⟨'[' :: (s ++ (newLine depth).toList) ++ [']'], ?_, ?_⟩
    · simp [Tree.write, hs]
    · exact .array (hall.append_ws (by simp) (ws_newLine depth))

theorem Tree.isWritten_object {members : List (String × Tree)}
    (hkeys : ∀ m ∈ members, Quoted m.1.toList) (hvalues : ∀ m ∈ members, m.2.IsWritten) :
    (Tree.object members).IsWritten := by
  intro out depth
  cases members with
  | nil => exact ⟨['{', '}'], by simp [Tree.write], .emptyObject Ws.nil⟩
  | cons m members =>
    obtain ⟨hkey, hkeys⟩ := List.forall_mem_cons.mp hkeys
    obtain ⟨hvalue, hvalues⟩ := List.forall_mem_cons.mp hvalues
    obtain ⟨v, hv, hspelled⟩ :=
      hvalue (out ++ "\x7b" ++ newLine (depth + 1) ++ m.1 ++ ": ") (depth + 1)
    have hfirst := Spelled.firstMember (.member (ws_newLine (depth + 1)) hkey Ws.nil
      (.element ws_space hspelled Ws.nil))
    have hbrace : (m.2.write (out ++ "\x7b" ++ newLine (depth + 1) ++ m.1 ++ ": ") (depth + 1)).toList =
        (out.toList ++ ['{']) ++ ((newLine (depth + 1)).toList ++ m.1.toList ++ [] ++
          ':' :: ([' '] ++ v ++ [])) := by
      simp [hv]
    obtain ⟨s, hs, hall⟩ := writeMembers_spelled depth hkeys hvalues hbrace hfirst
    refine ⟨'{' :: (s ++ (newLine depth).toList) ++ ['}'], ?_, ?_⟩
    · simp [Tree.write, hs]
    · exact .object (hall.append_ws (by simp) (ws_newLine depth))

theorem Tree.WellSpelled.isWritten {tree : Tree} (h : tree.WellSpelled) : tree.IsWritten := by
  induction h with
  | scalar h => exact Tree.isWritten_scalar h
  | array _ ih => exact Tree.isWritten_array ih
  | object keys _ ih => exact Tree.isWritten_object keys ih

/-- The layout of a well-spelled tree spells the tree, and a line feed follows. -/
theorem Tree.WellSpelled.layout {tree : Tree} (h : tree.WellSpelled) :
    ∃ s, tree.layout.toList = s ++ ['\n'] ∧ Spelled (.value tree) s := by
  obtain ⟨s, hs, hspelled⟩ := h.isWritten "" 0
  exact ⟨s, by simp [Tree.layout, hs], hspelled⟩

end JsonLayout.Json
