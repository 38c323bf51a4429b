import JsonLayout.Json.Tree
import JsonLayout.Text.Shown

/-! # What can be wrong with a JSON text

Each cause carries the byte offsets and characters that its message names. -/

namespace JsonLayout.Json

inductive Literal where
  | null | true | false
  deriving DecidableEq

def Literal.spelling : Literal → String
  | .null => "null"
  | .true => "true"
  | .false => "false"

/-- What was being read; containers are known by where they start. -/
inductive Surroundings where
  | document
  | array (start : Nat)
  | object (start : Nat)
  | literal (literal : Literal)
  | number
  deriving DecidableEq

/-- Something that could have come next. -/
inductive Wanted where
  | value
  | key
  | digit
  | char (c : Char)
  deriving DecidableEq

inductive ParseError where
  | unexpected (wanted : List Wanted) (inside : Surroundings) (offset : Nat) (found : Char)
  | unexpectedEnd (wanted : List Wanted) (inside : Surroundings)
  | trailing (offset : Nat) (found : Char)
  | badEscape (offset : Nat) (found : Char)
  | badHexDigit (escape : Nat) (offset : Nat) (found : Char)
  | controlCharacter (offset : Nat) (found : Char)
  | unclosedString (start : Nat)
  | leadingZero (offset : Nat)
  | secondPoint (offset : Nat)
  | emptyExponent (offset : Nat)
  | badExponent (offset : Nat) (found : Char)
  | tooDeep (offset : Nat)
  /-- The bytes are UTF-8 up to `offset` and no further. -/
  | notUtf8 (offset : Nat)
  deriving DecidableEq

def Surroundings.shift (bytes : Nat) : Surroundings → Surroundings
  | .array start => .array (start + bytes)
  | .object start => .object (start + bytes)
  | other => other

/-- The same error in a text with `bytes` more bytes in front. Bytes are decoded before any text is
cut, so that offset stays. -/
def ParseError.shift (bytes : Nat) : ParseError → ParseError
  | .unexpected wanted inside offset found =>
      .unexpected wanted (inside.shift bytes) (offset + bytes) found
  | .unexpectedEnd wanted inside => .unexpectedEnd wanted (inside.shift bytes)
  | .trailing offset found => .trailing (offset + bytes) found
  | .badEscape offset found => .badEscape (offset + bytes) found
  | .badHexDigit escape offset found => .badHexDigit (escape + bytes) (offset + bytes) found
  | .controlCharacter offset found => .controlCharacter (offset + bytes) found
  | .unclosedString start => .unclosedString (start + bytes)
  | .leadingZero offset => .leadingZero (offset + bytes)
  | .secondPoint offset => .secondPoint (offset + bytes)
  | .emptyExponent offset => .emptyExponent (offset + bytes)
  | .badExponent offset found => .badExponent (offset + bytes) found
  | .tooDeep offset => .tooDeep (offset + bytes)
  | .notUtf8 offset => .notUtf8 offset

def Surroundings.text : Surroundings → String
  | .document => "top-level value"
  | .array start => s!"array starting at byte {start}"
  | .object start => s!"object starting at byte {start}"
  | .literal word => "literal `" ++ word.spelling ++ "`"
  | .number => "number"

def Wanted.text : Wanted → String
  | .value => "a value"
  | .key => "a key"
  | .digit => "a digit"
  | .char c => Text.shownChar c

/-- Alternatives as `a, b or c`. -/
def Wanted.listText : List Wanted → String
  | [] => "nothing"
  | [w] => w.text
  | [v, w] => v.text ++ " or " ++ w.text
  | w :: ws => w.text ++ ", " ++ listText ws

open Text (shownChar) in
def ParseError.message : ParseError → String
  | .unexpected wanted inside offset found =>
      s!"expected {Wanted.listText wanted} in {inside.text}, " ++
      s!"found {shownChar found} at byte {offset}"
  | .unexpectedEnd wanted inside =>
      s!"expected {Wanted.listText wanted} in {inside.text}, found end of file"
  | .trailing offset found =>
      s!"unexpected {shownChar found} at byte {offset} after the top-level value"
  | .badEscape offset found => s!"invalid escape character {shownChar found} at byte {offset}"
  | .badHexDigit escape offset found =>
      s!"invalid hex digit {shownChar found} at byte {offset} in the `\\u` escape at byte {escape}"
  | .controlCharacter offset found =>
      s!"control character {shownChar found} at byte {offset} must be escaped"
  | .unclosedString start => s!"file ended inside the string starting at byte {start}"
  | .leadingZero offset => s!"number has a leading zero at byte {offset}"
  | .secondPoint offset => s!"number has a second decimal point at byte {offset}"
  | .emptyExponent offset => s!"exponent at byte {offset} has no digits"
  | .badExponent offset found =>
      s!"invalid character {shownChar found} in exponent at byte {offset}"
  | .tooDeep offset =>
      s!"array or object at byte {offset} is nested more than {maxDepth} levels deep"
  | .notUtf8 offset => s!"invalid UTF-8 after byte {offset}"

end JsonLayout.Json
