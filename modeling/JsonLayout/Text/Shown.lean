import JsonLayout.Text.GraphemeExtend
import JsonLayout.Text.Unprintable

/-! # Characters and texts as messages show them

A quoted form in which everything that could not be read on its own is escaped. Only the quote
that surrounds it is escaped, not the other one. -/

namespace JsonLayout.Text

/-- `\u` and the code point in lower-case hexadecimal between braces. -/
def codePointEscape (c : Char) : String :=
  "\\u\x7b" ++ String.ofList (Nat.toDigits 16 c.toNat) ++ "\x7d"

/-- One character inside the given quotes. -/
def shownInside (quote c : Char) : String :=
  if c = '\x00' then "\\0"
  else if c = '\t' then "\\t"
  else if c = '\r' then "\\r"
  else if c = '\n' then "\\n"
  else if c = '\\' || c = quote then String.ofList ['\\', c]
  else if isGraphemeExtend c || isUnprintable c then codePointEscape c
  else c.toString

def shownChar (c : Char) : String := "'" ++ shownInside '\'' c ++ "'"

def shownText (s : String) : String := "\"" ++ String.join (s.toList.map (shownInside '"')) ++ "\""

end JsonLayout.Text
