import JsonLayout.Json.Layout
import JsonLayout.Json.Parser
import JsonLayout.Text.Utf8

/-! # Formatting texts and bytes -/

namespace JsonLayout.Json

/-- The canonical form of a JSON text. Blanks around it are ignored, and errors point into the
text as it was given. -/
def format (s : String) : Except ParseError String :=
  match Tree.parse (Text.trim s.toList) with
  | .ok tree => .ok tree.layout
  | .error cause => .error (cause.shift (Text.leadingBytes s.toList))

/-- The canonical form of a JSON text given in UTF-8. -/
def formatBytes (bytes : ByteArray) : Except ParseError String :=
  match String.fromUTF8? bytes with
  | some s => format s
  | none => .error (.notUtf8 (Text.validUpTo bytes))

end JsonLayout.Json
