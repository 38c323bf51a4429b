/-! # Control sequences

Characters that steer a terminal instead of being shown: an escape with all that belongs to it, and
every other control character that is not layout. What remains of a text without them is shown
alike by every terminal. -/

namespace JsonLayout.Text

/-- Tab, line feed, form feed or carriage return. -/
def isLayout (c : Char) : Bool := c = '\t' || c = '\n' || c = '\x0c' || c = '\r'

/-- The character is shown where no sequence is open. -/
def isPlain (c : Char) : Bool := (' ' ≤ c && c ≠ '\x7f') || isLayout c

/-- The byte that ends a control string is one of those that encode the character. -/
def encodesTerminator (c : Char) : Bool := (String.utf8EncodeChar c).contains 0x9c

/-- What has been read of a sequence. -/
inductive Sequence where
  | closed
  /-- The escape character alone. -/
  | escape
  /-- An escape with characters that call for one more. -/
  | longEscape
  /-- `ESC [`: parameters up to a final character. -/
  | control
  /-- `ESC P`: the head of a device control string, where nothing but its own end can end it. -/
  | deviceStart
  | deviceParameters
  | deviceIntermediate
  /-- What a control string holds, up to the byte that ends it. -/
  | string
  /-- `ESC ]`: a command of the operating system, up to a bell. -/
  | command
  deriving DecidableEq

namespace Sequence

/-- What is open after one more character. An escape breaks off any sequence and opens a new one;
two controls only break off. -/
def next (c : Char) (s : Sequence) : Sequence :=
  if c = '\x1b' then .escape
  else if c = '\x18' || c = '\x1a' then .closed
  else match s with
    | .closed => .closed
    | .escape =>
        if c = '[' then .control
        else if c = ']' then .command
        else if c = 'P' then .deviceStart
        else if c = 'X' || c = '^' || c = '_' then .string
        else if ' ' ≤ c && c ≤ '/' then .longEscape
        else if '0' ≤ c && c ≤ '~' then .closed
        else .escape
    | .longEscape => if '0' ≤ c && c ≤ '~' then .closed else .longEscape
    | .control => if '@' ≤ c && c ≤ '~' then .closed else .control
    | .deviceStart =>
        if ' ' ≤ c && c ≤ '/' then .deviceIntermediate
        else if '0' ≤ c && c ≤ '?' then .deviceParameters
        else if '@' ≤ c && c ≤ '~' then .string
        else .deviceStart
    | .deviceParameters =>
        if ' ' ≤ c && c ≤ '/' then .deviceIntermediate
        else if '<' ≤ c && c ≤ '~' then .string
        else .deviceParameters
    | .deviceIntermediate => if '0' ≤ c && c ≤ '~' then .string else .deviceIntermediate
    | .string => if encodesTerminator c then .closed else .string
    | .command => if c = '\x07' then .closed else .command

/-- The character is shown although the sequence is open: layout is, unless the sequence is one
that holds text of its own. -/
def shows (c : Char) : Sequence → Bool
  | .closed => isPlain c
  | .escape | .longEscape | .control => isLayout c
  | .deviceStart | .deviceParameters | .deviceIntermediate | .string | .command => false

end Sequence

/-- Where a reader for plain text stands. Once a character has been shown, plain text goes on up to
the next control character, even if a sequence is still open; then that sequence goes on. -/
structure PlainReader where
  sequence : Sequence := .closed
  showing : Bool := true

namespace PlainReader

/-- The character is part of the plain text. -/
def keeps (c : Char) (r : PlainReader) : Bool :=
  (r.showing && isPlain c) || r.sequence.shows c

/-- A kept ASCII character leaves an open sequence open, any other kept one closes it. -/
def next (c : Char) (r : PlainReader) : PlainReader :=
  if r.keeps c then ⟨if c.toNat < 0x80 then r.sequence else .closed, true⟩
  else ⟨r.sequence.next c, false⟩

def plain (r : PlainReader) : List Char → List Char
  | [] => []
  | c :: s => if r.keeps c then c :: (r.next c).plain s else (r.next c).plain s

end PlainReader

/-- The text without control sequences. -/
def plainText (s : String) : String := String.ofList (({} : PlainReader).plain s.toList)

end JsonLayout.Text
