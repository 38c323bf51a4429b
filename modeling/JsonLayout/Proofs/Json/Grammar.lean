import JsonLayout.Json.Tree
import Mathlib.Tactic.Common

/-!
# The grammar of JSON texts

The rules of RFC 8259, read from left to right: a run is the shorter run before it and one thing
more. A text stands for a tree that keeps its scalars and keys as they are spelled. How deep a tree
nests is no part of the grammar and is said of the tree alone.
-/

namespace JsonLayout.Json

/-- White space between tokens. -/
def Ws (s : List Char) : Prop := ∀ c ∈ s, c = ' ' ∨ c = '\t' ∨ c = '\n' ∨ c = '\r'

def Digit (c : Char) : Prop := '0' ≤ c ∧ c ≤ '9'

def HexDigit (c : Char) : Prop := Digit c ∨ ('A' ≤ c ∧ c ≤ 'F') ∨ ('a' ≤ c ∧ c ≤ 'f')

def Digits (s : List Char) : Prop := s ≠ [] ∧ ∀ c ∈ s, Digit c

/-- No zero stands before another digit. -/
inductive Integer : List Char → Prop
  | zero : Integer ['0']
  | positive {c : Char} {ds : List Char} (first : '1' ≤ c ∧ c ≤ '9') (rest : ∀ d ∈ ds, Digit d) :
      Integer (c :: ds)

inductive Fraction : List Char → Prop
  | none : Fraction []
  | point {ds : List Char} (digits : Digits ds) : Fraction ('.' :: ds)

inductive Exponent : List Char → Prop
  | none : Exponent []
  | mark {e : Char} {sign ds : List Char} (letter : e = 'e' ∨ e = 'E')
      (signs : sign = [] ∨ sign = ['+'] ∨ sign = ['-']) (digits : Digits ds) :
      Exponent (e :: (sign ++ ds))

inductive Number : List Char → Prop
  | parts {minus int frac exp : List Char} (sign : minus = [] ∨ minus = ['-'])
      (integer : Integer int) (fraction : Fraction frac) (exponent : Exponent exp) :
      Number (minus ++ int ++ frac ++ exp)

/-- One character of a string, as it is or escaped. -/
inductive Letter : List Char → Prop
  | plain {c : Char} (printable : 0x20 ≤ c.toNat) (quote : c ≠ '"') (backslash : c ≠ '\\') :
      Letter [c]
  | escape {c : Char} (h : c ∈ ['"', '\\', '/', 'b', 'f', 'n', 'r', 't']) : Letter ['\\', c]
  | codePoint {a b c d : Char} (ha : HexDigit a) (hb : HexDigit b) (hc : HexDigit c)
      (hd : HexDigit d) : Letter ['\\', 'u', a, b, c, d]

inductive Letters : List Char → Prop
  | nil : Letters []
  | snoc {s l : List Char} (before : Letters s) (last : Letter l) : Letters (s ++ l)

/-- A string with its quotes. -/
inductive Quoted : List Char → Prop
  | quotes {s : List Char} (letters : Letters s) : Quoted ('"' :: s ++ ['"'])

inductive Scalar : List Char → Prop
  | null : Scalar ['n', 'u', 'l', 'l']
  | true : Scalar ['t', 'r', 'u', 'e']
  | false : Scalar ['f', 'a', 'l', 's', 'e']
  | number {s : List Char} (h : Number s) : Scalar s
  | string {s : List Char} (h : Quoted s) : Scalar s

/-- What a stretch of text can stand for. -/
inductive Phrase where
  | value (tree : Tree)
  /-- A value and the white space around it. -/
  | element (tree : Tree)
  /-- The items of an array, with the commas between them. -/
  | items (trees : List Tree)
  | member (key : String) (tree : Tree)
  /-- The members of an object, with the commas between them. -/
  | members (fields : List (String × Tree))

inductive Spelled : Phrase → List Char → Prop
  | scalar {lexeme : String} (h : Scalar lexeme.toList) :
      Spelled (.value (.scalar lexeme)) lexeme.toList
  | emptyArray {w : List Char} (hw : Ws w) : Spelled (.value (.array [])) ('[' :: w ++ [']'])
  | array {trees : List Tree} {s : List Char} (h : Spelled (.items trees) s) :
      Spelled (.value (.array trees)) ('[' :: s ++ [']'])
  | emptyObject {w : List Char} (hw : Ws w) : Spelled (.value (.object [])) ('{' :: w ++ ['}'])
  | object {fields : List (String × Tree)} {s : List Char} (h : Spelled (.members fields) s) :
      Spelled (.value (.object fields)) ('{' :: s ++ ['}'])
  | element {tree : Tree} {w s w' : List Char} (hw : Ws w) (h : Spelled (.value tree) s)
      (hw' : Ws w') : Spelled (.element tree) (w ++ s ++ w')
  | firstItem {tree : Tree} {s : List Char} (h : Spelled (.element tree) s) :
      Spelled (.items [tree]) s
  | nextItem {trees : List Tree} {tree : Tree} {s t : List Char} (h : Spelled (.items trees) s)
      (ht : Spelled (.element tree) t) : Spelled (.items (trees ++ [tree])) (s ++ ',' :: t)
  | member {key : String} {tree : Tree} {w w' s : List Char} (hw : Ws w)
      (hk : Quoted key.toList) (hw' : Ws w') (h : Spelled (.element tree) s) :
      Spelled (.member key tree) (w ++ key.toList ++ w' ++ ':' :: s)
  | firstMember {key : String} {tree : Tree} {s : List Char} (h : Spelled (.member key tree) s) :
      Spelled (.members [(key, tree)]) s
  | nextMember {fields : List (String × Tree)} {key : String} {tree : Tree} {s t : List Char}
      (h : Spelled (.members fields) s) (ht : Spelled (.member key tree) t) :
      Spelled (.members (fields ++ [(key, tree)])) (s ++ ',' :: t)

/-- No array or object of the tree stands inside `depth` others. -/
inductive Tree.NestsWithin : Nat → Tree → Prop
  | scalar {depth : Nat} {lexeme : String} : NestsWithin depth (.scalar lexeme)
  | array {depth : Nat} {items : List Tree} (h : ∀ item ∈ items, NestsWithin depth item) :
      NestsWithin (depth + 1) (.array items)
  | object {depth : Nat} {members : List (String × Tree)}
      (h : ∀ m ∈ members, NestsWithin depth m.2) : NestsWithin (depth + 1) (.object members)

theorem Ws.nil : Ws [] := by simp [Ws]

theorem Ws.append {w w' : List Char} (hw : Ws w) (hw' : Ws w') : Ws (w ++ w') :=
  List.forall_mem_append.mpr ⟨hw, hw'⟩

/-- White space may follow whatever is not just a value. -/
theorem Spelled.append_ws {phrase : Phrase} {s w : List Char} (h : Spelled phrase s)
    (hphrase : ∀ tree, phrase ≠ .value tree) (hw : Ws w) : Spelled phrase (s ++ w) := by
  induction h with
  | element hw' h hw'' => simpa using Spelled.element hw' h (hw''.append hw)
  | firstItem _ ih => exact .firstItem (ih (by simp))
  | nextItem h _ _ ih => simpa using Spelled.nextItem h (ih (by simp))
  | member hw' hk hw'' _ ih => simpa using Spelled.member hw' hk hw'' (ih (by simp))
  | firstMember _ ih => exact .firstMember (ih (by simp))
  | nextMember h _ _ ih => simpa using Spelled.nextMember h (ih (by simp))
  | _ => exact absurd rfl (hphrase _)

end JsonLayout.Json
