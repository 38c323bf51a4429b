import JsonLayout.Proofs.Json.Grammar

/-!
# Tokens and the white space between them

A text of the grammar is the tokens of its tree with white space around them, and the tokens do not
depend on that white space. What remains of a text when white space is deleted outside of string
literals is the tokens and nothing else.
-/

namespace JsonLayout.Json

/-- A scalar, a key or one of the characters that stand between them. -/
inductive Token : List Char → Prop
  | scalar {s : List Char} (h : Scalar s) : Token s
  | mark {c : Char} (h : c ∈ ['[', ']', '{', '}', ':', ',']) : Token [c]

/-- The text is these tokens in this order, with white space before, between and after them. -/
inductive LaidOut : List (List Char) → List Char → Prop
  | nil {w : List Char} (hw : Ws w) : LaidOut [] w
  | cons {w token s : List Char} {tokens : List (List Char)} (hw : Ws w) (htoken : Token token)
      (h : LaidOut tokens s) : LaidOut (token :: tokens) (w ++ token ++ s)

mutual

def Tree.tokens : Tree → List (List Char)
  | .scalar lexeme => [lexeme.toList]
  | .array [] => [['['], [']']]
  | .array (item :: items) => ['['] :: item.tokens ++ commaItems items ++ [[']']]
  | .object [] => [['{'], ['}']]
  | .object ((key, value) :: members) =>
      ['{'] :: key.toList :: [':'] :: value.tokens ++ commaMembers members ++ [['}']]

def commaItems : List Tree → List (List Char)
  | [] => []
  | item :: items => [','] :: item.tokens ++ commaItems items

def commaMembers : List (String × Tree) → List (List Char)
  | [] => []
  | (key, value) :: members =>
      [','] :: key.toList :: [':'] :: value.tokens ++ commaMembers members

end

def Phrase.tokens : Phrase → List (List Char)
  | .value tree | .element tree => tree.tokens
  | .items [] | .members [] => []
  | .items (tree :: rest) => tree.tokens ++ commaItems rest
  | .member key tree => key.toList :: [':'] :: tree.tokens
  | .members ((key, tree) :: rest) => key.toList :: [':'] :: tree.tokens ++ commaMembers rest

theorem commaItems_append (items items' : List Tree) :
    commaItems (items ++ items') = commaItems items ++ commaItems items' := by
  induction items with
  | nil => simp [commaItems]
  | cons item items ih => simp [commaItems, ih]

theorem commaMembers_append (members members' : List (String × Tree)) :
    commaMembers (members ++ members') = commaMembers members ++ commaMembers members' := by
  induction members with
  | nil => simp [commaMembers]
  | cons m members ih => simp [commaMembers, ih]

theorem Spelled.items_ne_nil {trees : List Tree} {s : List Char} (h : Spelled (.items trees) s) :
    trees ≠ [] := by
  generalize hphrase : Phrase.items trees = phrase at h
  cases h <;> simp at hphrase <;> simp [hphrase]

theorem Spelled.members_ne_nil {fields : List (String × Tree)} {s : List Char}
    (h : Spelled (.members fields) s) : fields ≠ [] := by
  generalize hphrase : Phrase.members fields = phrase at h
  cases h <;> simp at hphrase <;> simp [hphrase]

namespace Phrase

theorem tokens_array {trees : List Tree} (h : trees ≠ []) :
    (Phrase.value (.array trees)).tokens = ['['] :: (Phrase.items trees).tokens ++ [[']']] := by
  cases trees with
  | nil => contradiction
  | cons item items => simp [tokens, Tree.tokens]

theorem tokens_object {fields : List (String × Tree)} (h : fields ≠ []) :
    (Phrase.value (.object fields)).tokens = ['{'] :: (Phrase.members fields).tokens ++ [['}']] := by
  cases fields with
  | nil => contradiction
  | cons m members => simp [tokens, Tree.tokens]

theorem tokens_nextItem {trees : List Tree} {tree : Tree} (h : trees ≠ []) :
    (Phrase.items (trees ++ [tree])).tokens = (Phrase.items trees).tokens ++ [','] :: tree.tokens := by
  cases trees with
  | nil => contradiction
  | cons item items => simp [tokens, commaItems_append, commaItems]

theorem tokens_nextMember {fields : List (String × Tree)} {key : String} {tree : Tree}
    (h : fields ≠ []) : (Phrase.members (fields ++ [(key, tree)])).tokens =
      (Phrase.members fields).tokens ++ [','] :: (Phrase.member key tree).tokens := by
  cases fields with
  | nil => contradiction
  | cons m members => simp [tokens, commaMembers_append, commaMembers]

end Phrase

namespace LaidOut

variable {tokens tokens' : List (List Char)} {s t w : List Char}

theorem ws_append (h : LaidOut tokens s) (hw : Ws w) : LaidOut tokens (w ++ s) := by
  cases h with
  | nil hw' => exact .nil (hw.append hw')
  | cons hw' htoken h =>
    simpa using LaidOut.cons (hw.append hw') htoken h

theorem append (h : LaidOut tokens s) (h' : LaidOut tokens' t) :
    LaidOut (tokens ++ tokens') (s ++ t) := by
  induction h with
  | nil hw => exact h'.ws_append hw
  | cons hw htoken _ ih => simpa using LaidOut.cons hw htoken ih

theorem token (h : Token s) : LaidOut [s] s := by
  simpa using LaidOut.cons Ws.nil h (.nil Ws.nil)

end LaidOut

theorem token_mark (c : Char) (h : c ∈ ['[', ']', '{', '}', ':', ',']) :
    LaidOut [[c]] [c] :=
  .token (.mark h)

/-- A text of the grammar is the tokens of what it stands for, with white space around them. -/
theorem Spelled.laidOut {phrase : Phrase} {s : List Char} (h : Spelled phrase s) :
    LaidOut phrase.tokens s := by
  induction h with
  | scalar h => exact .token (.scalar h)
  | emptyArray hw =>
    have hopen := (token_mark '[' (by simp)).append (.nil hw)
    simpa [Phrase.tokens, Tree.tokens] using hopen.append (token_mark ']' (by simp))
  | array h ih =>
    rw [Phrase.tokens_array h.items_ne_nil]
    have hopen := (token_mark '[' (by simp)).append ih
    simpa using hopen.append (token_mark ']' (by simp))
  | emptyObject hw =>
    have hopen := (token_mark '{' (by simp)).append (.nil hw)
    simpa [Phrase.tokens, Tree.tokens] using hopen.append (token_mark '}' (by simp))
  | object h ih =>
    rw [Phrase.tokens_object h.members_ne_nil]
    have hopen := (token_mark '{' (by simp)).append ih
    simpa using hopen.append (token_mark '}' (by simp))
  | element hw _ hw' ih => simpa [Phrase.tokens] using (ih.ws_append hw).append (.nil hw')
  | firstItem _ ih => simpa [Phrase.tokens, commaItems] using ih
  | nextItem h _ ih iht =>
    rw [Phrase.tokens_nextItem h.items_ne_nil]
    exact ih.append ((token_mark ',' (by simp)).append iht)
  | @member key tree w w' s hw hk hw' _ ih =>
    have hkey := (LaidOut.token (.scalar (.string hk))).append (.nil hw')
    have hvalue := (token_mark ':' (by simp)).append ih
    simpa [Phrase.tokens] using (hkey.ws_append hw).append hvalue
  | firstMember _ ih => simpa [Phrase.tokens, commaMembers] using ih
  | nextMember h _ ih iht =>
    rw [Phrase.tokens_nextMember h.members_ne_nil]
    exact ih.append ((token_mark ',' (by simp)).append iht)

/-- The tokens alone spell what the text spells. -/
theorem Spelled.flatten_tokens {phrase : Phrase} {s : List Char} (h : Spelled phrase s) :
    Spelled phrase phrase.tokens.flatten := by
  induction h with
  | scalar h => simpa [Phrase.tokens, Tree.tokens] using Spelled.scalar h
  | emptyArray => exact .emptyArray Ws.nil
  | array h ih =>
    rw [Phrase.tokens_array h.items_ne_nil]
    simpa using Spelled.array ih
  | emptyObject => exact .emptyObject Ws.nil
  | object h ih =>
    rw [Phrase.tokens_object h.members_ne_nil]
    simpa using Spelled.object ih
  | element _ _ _ ih => simpa [Phrase.tokens] using Spelled.element Ws.nil ih Ws.nil
  | firstItem _ ih => simpa [Phrase.tokens, commaItems] using Spelled.firstItem ih
  | @nextItem trees tree s t h _ ih iht =>
    have htree : Spelled (.element tree) tree.tokens.flatten := iht
    rw [Phrase.tokens_nextItem h.items_ne_nil]
    simpa using Spelled.nextItem ih htree
  | member _ hk _ _ ih => simpa [Phrase.tokens] using Spelled.member Ws.nil hk Ws.nil ih
  | firstMember _ ih => simpa [Phrase.tokens, commaMembers] using Spelled.firstMember ih
  | nextMember h _ ih iht =>
    rw [Phrase.tokens_nextMember h.members_ne_nil]
    simpa using Spelled.nextMember ih iht

/-! Deleting white space. -/

/-- Where the next character stands with regard to string literals. -/
inductive Zone where
  | outside
  | inside
  /-- Inside, after a backslash. -/
  | escaped
  deriving DecidableEq

namespace Zone

def next (c : Char) : Zone → Zone
  | .outside => if c = '"' then .inside else .outside
  | .inside => if c = '"' then .outside else if c = '\\' then .escaped else .inside
  | .escaped => .inside

def after (zone : Zone) (s : List Char) : Zone := s.foldl (fun zone c => zone.next c) zone

end Zone

/-- Delete the spaces, tabs, line feeds and carriage returns outside of string literals. -/
def squeezeFrom : Zone → List Char → List Char
  | _, [] => []
  | zone, c :: s =>
      if zone = .outside ∧ c ∈ [' ', '\t', '\n', '\r'] then squeezeFrom zone s
      else c :: squeezeFrom (zone.next c) s

def squeeze (s : List Char) : List Char := squeezeFrom .outside s

theorem squeezeFrom_append (zone : Zone) (s t : List Char) :
    squeezeFrom zone (s ++ t) = squeezeFrom zone s ++ squeezeFrom (zone.after s) t := by
  induction s generalizing zone with
  | nil => rfl
  | cons c s ih =>
    simp only [List.cons_append, squeezeFrom, Zone.after, List.foldl_cons]
    split_ifs with h
    · obtain ⟨rfl, hc⟩ := h
      have hnext : Zone.outside.next c = .outside := by
        rw [Zone.next, if_neg]
        rintro rfl
        simp at hc
      rw [hnext]
      exact ih .outside
    · rw [List.cons_append]
      exact congrArg (c :: ·) (ih _)

/-- Nothing of the text is deleted, and a text right after it is in the same zone. -/
def Zone.Keeps (zone : Zone) (s : List Char) : Prop :=
  squeezeFrom zone s = s ∧ zone.after s = zone

namespace Zone.Keeps

variable {zone : Zone} {s t : List Char}

theorem nil : zone.Keeps [] := ⟨rfl, rfl⟩

theorem append (hs : zone.Keeps s) (ht : zone.Keeps t) : zone.Keeps (s ++ t) := by
  refine ⟨?_, ?_⟩
  · rw [squeezeFrom_append, hs.1, hs.2, ht.1]
  · rw [Zone.after, List.foldl_append]
    change (zone.after s).after t = zone
    rw [hs.2, ht.2]

theorem outside_of_forall (h : ∀ c ∈ s, c ∉ ['"', ' ', '\t', '\n', '\r']) :
    Zone.outside.Keeps s := by
  induction s with
  | nil => exact nil
  | cons c s ih =>
    have hc : c ∉ ['"', ' ', '\t', '\n', '\r'] := h c (by simp)
    have hchar : Zone.outside.Keeps [c] := by
      simp only [List.mem_cons, not_or] at hc
      simp [Zone.Keeps, squeezeFrom, Zone.after, Zone.next, hc]
    exact append hchar (ih fun d hd => h d (by simp [hd]))

theorem inside_of_forall (h : ∀ c ∈ s, c ≠ '"' ∧ c ≠ '\\') : Zone.inside.Keeps s := by
  induction s with
  | nil => exact nil
  | cons c s ih =>
    have hchar : Zone.inside.Keeps [c] := by
      simp [Zone.Keeps, squeezeFrom, Zone.after, Zone.next, h c (by simp)]
    exact append hchar (ih fun d hd => h d (by simp [hd]))

end Zone.Keeps

theorem HexDigit.ne_quote_and_ne_backslash {c : Char} (h : HexDigit c) : c ≠ '"' ∧ c ≠ '\\' := by
  constructor <;> rintro rfl <;> revert h <;> unfold HexDigit Digit <;> decide

theorem Letter.keeps {l : List Char} (h : Letter l) : Zone.inside.Keeps l := by
  cases h with
  | plain printable quote backslash =>
    exact .inside_of_forall (by simp [quote, backslash])
  | escape h => exact ⟨rfl, rfl⟩
  | codePoint ha hb hc hd =>
    have hescape : Zone.inside.Keeps ['\\', 'u'] := ⟨rfl, rfl⟩
    exact hescape.append (.inside_of_forall (by
      simp [ha.ne_quote_and_ne_backslash, hb.ne_quote_and_ne_backslash,
        hc.ne_quote_and_ne_backslash, hd.ne_quote_and_ne_backslash]))

theorem Letters.keeps {s : List Char} (h : Letters s) : Zone.inside.Keeps s := by
  induction h with
  | nil => exact .nil
  | snoc _ last ih => exact ih.append last.keeps

theorem Quoted.keeps {s : List Char} (h : Quoted s) : Zone.outside.Keeps s := by
  cases h with
  | @quotes s letters =>
    obtain ⟨hkept, hafter⟩ := letters.keeps
    constructor
    · change '"' :: squeezeFrom .inside (s ++ ['"']) = '"' :: s ++ ['"']
      rw [squeezeFrom_append, hkept, hafter]
      rfl
    · rw [Zone.after, List.foldl_append]
      change (Zone.inside.after s).after ['"'] = .outside
      rw [hafter]
      rfl

theorem Digit.ne_of_not {c d : Char} (hc : Digit c) (hd : ¬ Digit d) : c ≠ d := by
  rintro rfl
  exact hd hc

/-- The characters that numbers are made of. -/
def NumberChar (c : Char) : Prop := Digit c ∨ c ∈ ['-', '+', '.', 'e', 'E']

theorem Integer.numberChar {s : List Char} (h : Integer s) : ∀ c ∈ s, NumberChar c := by
  cases h with
  | zero => simp [NumberChar, Digit]
  | positive first rest =>
    intro c hc
    rcases List.mem_cons.mp hc with rfl | hc
    · exact .inl ⟨Char.le_trans (by decide) first.1, first.2⟩
    · exact .inl (rest c hc)

theorem Fraction.numberChar {s : List Char} (h : Fraction s) : ∀ c ∈ s, NumberChar c := by
  cases h with
  | none => simp
  | point digits =>
    intro c hc
    rcases List.mem_cons.mp hc with rfl | hc
    · exact .inr (by simp)
    · exact .inl (digits.2 c hc)

theorem Exponent.numberChar {s : List Char} (h : Exponent s) : ∀ c ∈ s, NumberChar c := by
  cases h with
  | none => simp
  | mark letter signs digits =>
    intro c hc
    rcases List.mem_cons.mp hc with rfl | hc
    · rcases letter with rfl | rfl <;> exact .inr (by simp)
    rcases List.mem_append.mp hc with hc | hc
    · rcases signs with rfl | rfl | rfl <;> exact .inr (by simp_all)
    · exact .inl (digits.2 c hc)

theorem Number.numberChar {s : List Char} (h : Number s) : ∀ c ∈ s, NumberChar c := by
  obtain ⟨sign, integer, fraction, exponent⟩ := h
  simp only [List.forall_mem_append]
  refine ⟨⟨⟨?_, integer.numberChar⟩, fraction.numberChar⟩, exponent.numberChar⟩
  rcases sign with rfl | rfl <;> simp [NumberChar]

theorem NumberChar.not_mem {c : Char} (h : NumberChar c) : c ∉ ['"', ' ', '\t', '\n', '\r'] := by
  rcases h with h | h
  · simp only [List.mem_cons, List.not_mem_nil, or_false, not_or]
    refine ⟨?_, ?_, ?_, ?_, ?_⟩ <;> exact h.ne_of_not (by unfold Digit; decide)
  · simp only [List.mem_cons, List.not_mem_nil, or_false] at h
    rcases h with rfl | rfl | rfl | rfl | rfl <;> decide

theorem Token.keeps {s : List Char} (h : Token s) : Zone.outside.Keeps s := by
  cases h with
  | scalar h =>
    cases h with
    | number h => exact .outside_of_forall fun c hc => (h.numberChar c hc).not_mem
    | string h => exact h.keeps
    | null => exact ⟨rfl, rfl⟩
    | «true» => exact ⟨rfl, rfl⟩
    | «false» => exact ⟨rfl, rfl⟩
  | @mark c h =>
    simp only [List.mem_cons, List.not_mem_nil, or_false] at h
    rcases h with rfl | rfl | rfl | rfl | rfl | rfl <;> exact ⟨rfl, rfl⟩

theorem squeeze_ws_append {w : List Char} (hw : Ws w) (s : List Char) :
    squeeze (w ++ s) = squeeze s := by
  induction w with
  | nil => rfl
  | cons c w ih =>
    have hc : c ∈ [' ', '\t', '\n', '\r'] := by simpa using hw c (by simp)
    rw [List.cons_append, squeeze, squeezeFrom, if_pos ⟨rfl, hc⟩]
    exact ih fun d hd => hw d (by simp [hd])

theorem squeeze_token_append {s : List Char} (h : Token s) (t : List Char) :
    squeeze (s ++ t) = s ++ squeeze t := by
  rw [squeeze, squeezeFrom_append, h.keeps.1, h.keeps.2, squeeze]

/-- Deleting white space outside of string literals leaves the tokens. -/
theorem LaidOut.squeeze_eq {tokens : List (List Char)} {s : List Char} (h : LaidOut tokens s) :
    squeeze s = tokens.flatten := by
  induction h with
  | nil hw => simpa [squeeze, squeezeFrom] using squeeze_ws_append hw []
  | cons hw htoken _ ih =>
    rw [List.append_assoc, squeeze_ws_append hw, squeeze_token_append htoken, ih, List.flatten_cons]

end JsonLayout.Json
