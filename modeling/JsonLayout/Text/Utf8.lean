/-! # Valid beginnings of byte sequences

Decoding takes one well-formed character after another; the place where none can be taken is the
end of the longest prefix that is UTF-8. -/

namespace JsonLayout.Text

/-- Where decoding from offset `i` on gets stuck, or the end. -/
def validUpToFrom (bytes : ByteArray) (i : Nat) : Nat :=
  if i < bytes.size then
    match bytes.utf8DecodeChar? i with
    | some c => validUpToFrom bytes (i + c.utf8Size)
    | none => i
  else i
termination_by bytes.size - i
decreasing_by have := c.utf8Size_pos; omega

def validUpTo (bytes : ByteArray) : Nat := validUpToFrom bytes 0

end JsonLayout.Text
