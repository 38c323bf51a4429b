import JsonLayout.Proofs.Json.Pieces

/-!
# The gaps of a canonical text

Which gap stands after a token of a canonical text is told by that token, the one after it and how
many containers are open in between. A text that can be formatted is its own canonical form if and
only if all of its gaps are these.
-/

namespace JsonLayout.Json

/-- A line feed and two spaces for each open container. -/
def lineStart (depth : Nat) : List Char := '\n' :: List.replicate (2 * depth) ' '

def isOpening (token : List Char) : Bool := token = ['['] || token = ['{']

def isClosing (token : List Char) : Bool := token = [']'] || token = ['}']

/-- The containers that are open after a token. -/
def depthAfter (depth : Nat) (token : List Char) : Nat :=
  if isOpening token then depth + 1 else if isClosing token then depth - 1 else depth

/-- The gap between the end of a value or a key and the next token, with `depth` containers open. -/
def gapBefore (depth : Nat) : Option (List Char) → List Char
  | none => ['\n']
  | some next => if isClosing next then lineStart (depth - 1) else []

/-- The gap between a token and the next one, with `depth` containers open. -/
def gapBetween (depth : Nat) (token : List Char) (next : Option (List Char)) : List Char :=
  if token = [','] then lineStart depth
  else if token = [':'] then [' ']
  else if isOpening token then if next.any isClosing then [] else lineStart depth
  else gapBefore depth next

/-- The tokens, each with the gap that stands after it in a canonical text; `depth` containers are
open before the first one. -/
def spaced (depth : Nat) : List (List Char) → List (List Char × List Char)
  | [] => []
  | token :: rest =>
      (token, gapBetween (depthAfter depth token) token rest.head?) ::
        spaced (depthAfter depth token) rest

def spacedText (depth : Nat) (tokens : List (List Char)) : List Char :=
  (spaced depth tokens).flatMap fun (token, gap) => token ++ gap

section Tokens

variable {depth : Nat} {token : List Char} {tokens rest : List (List Char)}

theorem newLine_toList (depth : Nat) : (newLine depth).toList = lineStart depth := by
  simp [newLine, lineStart]

@[simp] theorem spacedText_nil : spacedText depth [] = [] := rfl

theorem spacedText_cons : spacedText depth (token :: rest) =
    token ++ gapBetween (depthAfter depth token) token rest.head? ++
      spacedText (depthAfter depth token) rest := rfl

@[simp] theorem spacedText_comma : spacedText depth ([','] :: rest) =
    ',' :: lineStart depth ++ spacedText depth rest := rfl

@[simp] theorem spacedText_colon : spacedText depth ([':'] :: rest) =
    ':' :: ' ' :: spacedText depth rest := rfl

theorem spacedText_opening (h : isOpening token = true) (hrest : rest.head?.any isClosing = false) :
    spacedText depth (token :: rest) =
      token ++ lineStart (depth + 1) ++ spacedText (depth + 1) rest := by
  have hmarks : token ≠ [','] ∧ token ≠ [':'] := by
    constructor <;> rintro rfl <;> contradiction
  simp [spacedText_cons, gapBetween, depthAfter, h, hrest, hmarks]

theorem spacedText_closing (h : isClosing token = true) : spacedText depth (token :: rest) =
    token ++ gapBefore (depth - 1) rest.head? ++ spacedText (depth - 1) rest := by
  have hopening : isOpening token = false := by
    rw [Bool.eq_false_iff]
    intro hopening
    simp only [isOpening, Bool.or_eq_true, decide_eq_true_eq] at hopening
    rcases hopening with rfl | rfl <;> contradiction
  have hmarks : token ≠ [','] ∧ token ≠ [':'] := by
    constructor <;> rintro rfl <;> contradiction
  simp [spacedText_cons, gapBetween, depthAfter, h, hopening, hmarks]

theorem not_marks_of_scalar (h : Scalar token) : isOpening token = false ∧ isClosing token = false ∧
    token ≠ [','] ∧ token ≠ [':'] := by
  have hne : ∀ c ∈ ['[', ']', '{', '}', ':', ','], token ≠ [c] := by
    rintro c hc rfl
    exact not_scalar_mark hc h
  simp [isOpening, isClosing, hne]

theorem spacedText_scalar (h : Scalar token) : spacedText depth (token :: rest) =
    token ++ gapBefore depth rest.head? ++ spacedText depth rest := by
  obtain ⟨hopening, hclosing, hcomma, hcolon⟩ := not_marks_of_scalar h
  simp [spacedText_cons, gapBetween, depthAfter, hopening, hclosing, hcomma, hcolon]

/-- Nothing stands between the brackets of an empty container. -/
theorem spacedText_empty {closing : List Char} (hopening : isOpening token = true)
    (hclosing : isClosing closing = true) : spacedText depth (token :: closing :: rest) =
      token ++ closing ++ gapBefore depth rest.head? ++ spacedText depth rest := by
  have hmarks : token ≠ [','] ∧ token ≠ [':'] := by
    constructor <;> rintro rfl <;> contradiction
  rw [spacedText_cons]
  simp [spacedText_closing hclosing, gapBetween, depthAfter, hopening, hclosing, hmarks]

end Tokens

/-- Writing a tree appends its tokens with their gaps. The last gap depends on what comes next. -/
def Tree.IsSpaced (tree : Tree) : Prop :=
  ∀ out depth rest, (tree.write out depth).toList ++ gapBefore depth rest.head? ++
    spacedText depth rest = out.toList ++ spacedText depth (tree.tokens ++ rest)

theorem writeItems_spaced {items : List Tree} (h : ∀ item ∈ items, item.IsSpaced) (out : String)
    (depth : Nat) (rest : List (List Char)) :
    (writeItems out depth items).toList ++ gapBefore (depth + 1) rest.head? ++
        spacedText (depth + 1) rest =
      out.toList ++ gapBefore (depth + 1) (commaItems items ++ rest).head? ++
        spacedText (depth + 1) (commaItems items ++ rest) := by
  induction items generalizing out with
  | nil => simp [writeItems, commaItems]
  | cons item items ih =>
    obtain ⟨hitem, hitems⟩ := List.forall_mem_cons.mp h
    have hcomma : gapBefore (depth + 1) (some [',']) = [] := rfl
    rw [writeItems, ih hitems, hitem]
    simp [commaItems, newLine_toList, hcomma]

theorem writeMembers_spaced {members : List (String × Tree)}
    (hkeys : ∀ m ∈ members, Quoted m.1.toList) (h : ∀ m ∈ members, m.2.IsSpaced) (out : String)
    (depth : Nat) (rest : List (List Char)) :
    (writeMembers out depth members).toList ++ gapBefore (depth + 1) rest.head? ++
        spacedText (depth + 1) rest =
      out.toList ++ gapBefore (depth + 1) (commaMembers members ++ rest).head? ++
        spacedText (depth + 1) (commaMembers members ++ rest) := by
  induction members generalizing out with
  | nil => simp [writeMembers, commaMembers]
  | cons m members ih =>
    obtain ⟨hkey, hkeys⟩ := List.forall_mem_cons.mp hkeys
    obtain ⟨hvalue, hvalues⟩ := List.forall_mem_cons.mp h
    have hcomma : gapBefore (depth + 1) (some [',']) = [] := rfl
    have hcolon : gapBefore (depth + 1) (some [':']) = [] := rfl
    rw [writeMembers, ih hkeys hvalues, hvalue]
    simp [commaMembers, newLine_toList, spacedText_scalar (.string hkey), hcomma, hcolon]

theorem Tree.WellSpelled.head?_tokens {tree : Tree} (h : tree.WellSpelled)
    (rest : List (List Char)) : (tree.tokens ++ rest).head?.any isClosing = false := by
  cases h with
  | scalar h => simp [Tree.tokens, not_marks_of_scalar h]
  | @array items => cases items <;> simp [Tree.tokens, isClosing]
  | @object members => cases members <;> simp [Tree.tokens, isClosing]

theorem isSpaced_array {items : List Tree} (hitems : ∀ item ∈ items, item.WellSpelled)
    (h : ∀ item ∈ items, item.IsSpaced) : (Tree.array items).IsSpaced := by
  intro out depth rest
  cases items with
  | nil => simp [Tree.write, Tree.tokens, spacedText_empty, isOpening, isClosing]
  | cons item items =>
    obtain ⟨hfirst, hmore⟩ := List.forall_mem_cons.mp h
    have hitem : item.WellSpelled := hitems item (by simp)
    have hend : gapBefore (depth + 1) (some [']']) ++ spacedText (depth + 1) ([']'] :: rest) =
        lineStart depth ++ ']' :: (gapBefore depth rest.head? ++ spacedText depth rest) := rfl
    have hstart : ∀ tokens, spacedText depth (['['] :: (item.tokens ++ tokens)) =
        '[' :: lineStart (depth + 1) ++ spacedText (depth + 1) (item.tokens ++ tokens) :=
      fun tokens => spacedText_opening rfl (hitem.head?_tokens tokens)
    calc ((Tree.array (item :: items)).write out depth).toList ++ gapBefore depth rest.head? ++
          spacedText depth rest
        = (writeItems (item.write (out ++ "[" ++ newLine (depth + 1)) (depth + 1)) depth
            items).toList ++ gapBefore (depth + 1) ([']'] :: rest).head? ++
          spacedText (depth + 1) ([']'] :: rest) := by
            simp [Tree.write, newLine_toList, hend]
      _ = (out ++ "[" ++ newLine (depth + 1)).toList ++
          spacedText (depth + 1) (item.tokens ++ (commaItems items ++ [']'] :: rest)) := by
            rw [writeItems_spaced hmore, hfirst]
      _ = out.toList ++ spacedText depth ((Tree.array (item :: items)).tokens ++ rest) := by
            simp [Tree.tokens, newLine_toList, hstart]

theorem isSpaced_object {members : List (String × Tree)} (hkeys : ∀ m ∈ members, Quoted m.1.toList)
    (h : ∀ m ∈ members, m.2.IsSpaced) : (Tree.object members).IsSpaced := by
  intro out depth rest
  cases members with
  | nil => simp [Tree.write, Tree.tokens, spacedText_empty, isOpening, isClosing]
  | cons m members =>
    obtain ⟨hfirst, hmore⟩ := List.forall_mem_cons.mp h
    obtain ⟨hkey, hkeys⟩ := List.forall_mem_cons.mp hkeys
    have hend : gapBefore (depth + 1) (some ['}']) ++ spacedText (depth + 1) (['}'] :: rest) =
        lineStart depth ++ '}' :: (gapBefore depth rest.head? ++ spacedText depth rest) := rfl
    have hstart : ∀ tokens, spacedText depth (['{'] :: m.1.toList :: [':'] :: tokens) =
        '{' :: lineStart (depth + 1) ++ m.1.toList ++ ':' :: ' ' :: spacedText (depth + 1) tokens := by
      intro tokens
      have hcolon : gapBefore (depth + 1) (some [':']) = [] := rfl
      have hnot : (m.1.toList :: [':'] :: tokens).head?.any isClosing = false := by
        simp [not_marks_of_scalar (.string hkey)]
      rw [spacedText_opening rfl hnot, spacedText_scalar (.string hkey)]
      simp [hcolon]
    calc ((Tree.object (m :: members)).write out depth).toList ++ gapBefore depth rest.head? ++
          spacedText depth rest
        = (writeMembers (m.2.write (out ++ "\x7b" ++ newLine (depth + 1) ++ m.1 ++ ": ") (depth + 1))
            depth members).toList ++ gapBefore (depth + 1) (['}'] :: rest).head? ++
          spacedText (depth + 1) (['}'] :: rest) := by
            simp [Tree.write, newLine_toList, hend]
      _ = (out ++ "\x7b" ++ newLine (depth + 1) ++ m.1 ++ ": ").toList ++
          spacedText (depth + 1) (m.2.tokens ++ (commaMembers members ++ ['}'] :: rest)) := by
            rw [writeMembers_spaced hkeys hmore, hfirst]
      _ = out.toList ++ spacedText depth ((Tree.object (m :: members)).tokens ++ rest) := by
            simp [Tree.tokens, newLine_toList, hstart]

theorem Tree.WellSpelled.isSpaced {tree : Tree} (h : tree.WellSpelled) : tree.IsSpaced := by
  induction h with
  | scalar h =>
    intro out depth rest
    simp [Tree.write, Tree.tokens, spacedText_scalar h]
  | array hitems ih => exact isSpaced_array hitems ih
  | object keys _ ih => exact isSpaced_object keys ih

/-- A layout is the tokens of its tree with the canonical gaps. -/
theorem Tree.WellSpelled.layout_eq_spacedText {tree : Tree} (h : tree.WellSpelled) :
    tree.layout.toList = spacedText 0 tree.tokens := by
  have hwritten := h.isSpaced "" 0 []
  simpa [Tree.layout, gapBefore] using hwritten

/-! The canonical gaps are gaps. -/

open Text (isBlank)

variable {depth : Nat} {tokens : List (List Char)}

theorem isBlank_lineStart (depth : Nat) : ∀ c ∈ lineStart depth, isBlank c = true := by
  intro c hc
  rcases List.mem_cons.mp hc with rfl | hc
  · rfl
  · rw [List.eq_of_mem_replicate hc]
    rfl

theorem isBlank_gapBefore (depth : Nat) (next : Option (List Char)) :
    ∀ c ∈ gapBefore depth next, isBlank c = true := by
  cases next with
  | none => simp [gapBefore, isBlank]
  | some next =>
    simp only [gapBefore]
    split
    · exact isBlank_lineStart _
    · simp

theorem isBlank_gapBetween (depth : Nat) (token : List Char) (next : Option (List Char)) :
    ∀ c ∈ gapBetween depth token next, isBlank c = true := by
  unfold gapBetween
  split_ifs
  · exact isBlank_lineStart _
  · simp [isBlank]
  · simp
  · exact isBlank_lineStart _
  · exact isBlank_gapBefore _ _

theorem map_fst_spaced (depth : Nat) (tokens : List (List Char)) :
    (spaced depth tokens).map Prod.fst = tokens := by
  induction tokens generalizing depth with
  | nil => rfl
  | cons token rest ih => rw [spaced, List.map_cons, ih]

theorem pieces_spaced (htokens : ∀ token ∈ tokens, Token token) (hapart : Apart tokens) :
    Pieces (spaced depth tokens) (spacedText depth tokens) := by
  induction tokens generalizing depth with
  | nil => exact .nil
  | cons token rest ih =>
    obtain ⟨htoken, hrest⟩ := List.forall_mem_cons.mp htokens
    obtain ⟨hfirst, hapart⟩ := List.isChain_cons.mp hapart
    refine .cons htoken (isBlank_gapBetween _ _ _) (ih hrest hapart) fun _ hscalar next hnext => ?_
    have hhead : next.1 ∈ rest.head? := by
      have hmap : ((spaced (depthAfter depth token) rest).map Prod.fst).head? = some next.1 := by
        rw [List.head?_map, Option.mem_def.mp hnext]
        rfl
      rwa [map_fst_spaced] at hmap
    exact fun hnextScalar => hfirst next.1 hhead ⟨hscalar, hnextScalar⟩

theorem LaidOut.forall_token {s : List Char} (h : LaidOut tokens s) :
    ∀ token ∈ tokens, Token token := by
  induction h with
  | nil => simp
  | cons _ htoken _ ih => exact List.forall_mem_cons.mpr ⟨htoken, ih⟩

/-- A text that can be formatted is cut into tokens and gaps in one way, and it is its own canonical
form if and only if there is no gap before its first token and each other gap is the canonical one:
a new line after a comma and an opening bracket and before a closing one, a space after a colon, a
line feed at the end, and nothing anywhere else. -/
theorem format_eq_self_iff {s out : String} (h : format s = .ok out) :
    ∃ lead pieces, Tokenized lead pieces s.toList ∧
      (∀ lead' pieces', Tokenized lead' pieces' s.toList → lead' = lead ∧ pieces' = pieces) ∧
      (format s = .ok s ↔ lead = [] ∧ pieces = spaced 0 (pieces.map Prod.fst)) := by
  obtain ⟨tree, hparse, rfl⟩ := format_eq_ok_iff.mp h
  have hspelled := (Tree.spelled_of_parse hparse).1
  have hlayout := hspelled.wellSpelled.layout_eq_spacedText
  obtain ⟨lead, pieces, hcut, htokens⟩ := exists_tokenized_of_parse hparse
  refine ⟨lead, pieces, hcut, fun _ _ hcut' => hcut'.unique hcut, ?_⟩
  rw [h, htokens]
  constructor
  · intro hsame
    have htext : spacedText 0 tree.tokens = s.toList := by
      rw [← hlayout, Except.ok.inj hsame]
    have hspaced : Tokenized [] (spaced 0 tree.tokens) ([] ++ spacedText 0 tree.tokens) :=
      .intro (by simp) (pieces_spaced hspelled.laidOut.forall_token hspelled.apart)
    rw [List.nil_append, htext] at hspaced
    exact hcut.unique hspaced
  · rintro ⟨hlead, hpieces⟩
    have htext : spacedText 0 tree.tokens = s.toList := by
      rw [← hcut.text, hlead, hpieces]
      rfl
    rw [← hlayout, String.toList_inj] at htext
    rw [htext]

theorem format_eq_self_iff_nested :
    let s := "\x7b\n  \"a,\\n [\": [],\n  \"b\": [\n    \":  \",\n    \x7b\x7d\n  ]\n\x7d\n"
    format s = .ok s ∧ ∃ lead pieces, Tokenized lead pieces s.toList ∧
      (∀ lead' pieces', Tokenized lead' pieces' s.toList → lead' = lead ∧ pieces' = pieces) ∧
      (format s = .ok s ↔ lead = [] ∧ pieces = spaced 0 (pieces.map Prod.fst)) :=
  ⟨rfl, format_eq_self_iff rfl⟩

end JsonLayout.Json
