import JsonLayout.Json.ParseError

/-! # Numbers, part by part

A number is an integer, then perhaps a fraction, then perhaps an exponent. Which characters may
continue it depends only on the part being read, and a character that continues it is always taken
as doing so. -/

namespace JsonLayout.Json

/-- The part of a number that has been read last. -/
inductive NumberPart where
  | minus
  | zero (offset : Nat)
  | integer
  | point
  | fraction
  | exponent (offset : Nat)
  /-- The sign of the exponent whose `e` is at `offset`. -/
  | exponentSign (offset : Nat)
  | exponentDigits
  deriving DecidableEq

/-- What a character does to a number. -/
inductive NumberStep where
  | more (part : NumberPart)
  | complete
  | wrong (cause : ParseError)

namespace NumberPart

/-- The part that a number starts with, if the character can start one. -/
def start? (offset : Nat) (c : Char) : Option NumberPart :=
  if c = '-' then some .minus
  else if c = '0' then some (.zero offset)
  else if c.isDigit then some .integer
  else none

/-- After the digits of the integer: a fraction, an exponent or the end. -/
def afterInteger (offset : Nat) (c : Char) : NumberStep :=
  if c = '.' then .more .point
  else if c = 'e' || c = 'E' then .more (.exponent offset)
  else .complete

def isExponentChar (c : Char) : Bool := c = '.' || c = 'e' || c = 'E' || c = '+' || c = '-'

/-- What the character at `offset` does to a number whose last part is given. -/
def next (offset : Nat) (c : Char) : NumberPart → NumberStep
  | .minus =>
      if c = '0' then .more (.zero offset)
      else if c.isDigit then .more .integer
      else .wrong (.unexpected [.digit] .number offset c)
  | .zero start => if c.isDigit then .wrong (.leadingZero start) else afterInteger offset c
  | .integer => if c.isDigit then .more .integer else afterInteger offset c
  | .point =>
      if c.isDigit then .more .fraction else .wrong (.unexpected [.digit] .number offset c)
  | .fraction =>
      if c.isDigit then .more .fraction
      else if c = '.' then .wrong (.secondPoint offset)
      else if c = 'e' || c = 'E' then .more (.exponent offset)
      else .complete
  | .exponent start =>
      if c.isDigit then .more .exponentDigits
      else if c = '+' || c = '-' then .more (.exponentSign start)
      else if isExponentChar c then .wrong (.badExponent offset c)
      else .wrong (.emptyExponent start)
  | .exponentSign start =>
      if c.isDigit then .more .exponentDigits
      else if isExponentChar c then .wrong (.badExponent offset c)
      else .wrong (.emptyExponent start)
  | .exponentDigits =>
      if c.isDigit then .more .exponentDigits
      else if isExponentChar c then .wrong (.badExponent offset c)
      else .complete

/-- Why a number cannot end after this part, if it cannot. -/
def endError? : NumberPart → Option ParseError
  | .minus | .point => some (.unexpectedEnd [.digit] .number)
  | .exponent start | .exponentSign start => some (.emptyExponent start)
  | .zero _ | .integer | .fraction | .exponentDigits => none

end NumberPart

end JsonLayout.Json
