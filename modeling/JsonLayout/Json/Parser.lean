import JsonLayout.Json.Number
import JsonLayout.Text.Blank

/-! # Reading JSON, one character at a time

The reader's state is the list of containers still open, each with what it holds so far, and what
is being read in the innermost one. A character either gives the next state or is the first one
that no JSON text could have there. -/

namespace JsonLayout.Json

/-- The open containers around the place of a value, innermost first, with what stands before it
there, latest first. -/
inductive Context where
  | top
  | array (start : Nat) (before : List Tree) (outer : Context)
  | object (start : Nat) (before : List (String × Tree)) (key : String) (outer : Context)

/-- What a string is read as. -/
inductive StringRole where
  | value (place : Context)
  | key (start : Nat) (before : List (String × Tree)) (outer : Context)

/-- Where in a string the reader is. -/
inductive StringPart where
  | plain
  /-- After the backslash at `offset`. -/
  | escape (offset : Nat)
  /-- A hexadecimal digit is due, and `more` after it, of the escape at `offset`. -/
  | hex (offset : Nat) (more : Nat)
  deriving DecidableEq

/-- Between two tokens: what may come next. -/
inductive Gap where
  | value (place : Context)
  /-- After `[`: a value, or the end of the array. -/
  | firstItem (start : Nat) (outer : Context)
  /-- After an item. -/
  | itemEnd (start : Nat) (before : List Tree) (outer : Context)
  /-- After `{` or a comma of an object. Only an empty object may end here. -/
  | key (start : Nat) (before : List (String × Tree)) (outer : Context)
  | colon (start : Nat) (before : List (String × Tree)) (key : String) (outer : Context)
  /-- After a member. -/
  | memberEnd (start : Nat) (before : List (String × Tree)) (outer : Context)
  /-- After the top-level value. -/
  | done (tree : Tree)

/-- What is being read. Lexemes are kept last character first. -/
inductive State where
  | gap (g : Gap)
  | string (role : StringRole) (start : Nat) (lexeme : List Char) (part : StringPart)
  /-- `next` and then `rest` complete the literal. -/
  | literal (place : Context) (word : Literal) (next : Char) (rest : List Char)
  | number (place : Context) (lexeme : List Char) (part : NumberPart)

/-- White space between tokens. -/
def isSpace (c : Char) : Bool := c = ' ' || c = '\t' || c = '\n' || c = '\r'

def isHexDigit (c : Char) : Bool :=
  c.isDigit || ('a' ≤ c && c ≤ 'f') || ('A' ≤ c && c ≤ 'F')

/-- Characters that may follow a backslash, `u` apart. -/
def isShortEscape (c : Char) : Bool :=
  c = '"' || c = '\\' || c = '/' || c = 'b' || c = 'f' || c = 'n' || c = 'r' || c = 't'

namespace Context

/-- How many containers are open around a place. A reader that calls itself for every value is
handed this number, one more for each container that it goes into; this reader keeps the containers
on a stack, and the number is the height of that stack. It is what is compared with the limit. -/
def depth : Context → Nat
  | .top => 0
  | .array _ _ outer => outer.depth + 1
  | .object _ _ _ outer => outer.depth + 1

def surroundings : Context → Surroundings
  | .top => .document
  | .array start _ _ => .array start
  | .object start _ _ _ => .object start

/-- What follows once a value has been read in this place. -/
def fill (tree : Tree) : Context → Gap
  | .top => .done tree
  | .array start before outer => .itemEnd start (tree :: before) outer
  | .object start before k outer => .memberEnd start ((k, tree) :: before) outer

end Context

/-- What follows once a string has been read. -/
def StringRole.fill (lexeme : String) : StringRole → Gap
  | .value place => place.fill (.scalar lexeme)
  | .key start before outer => .colon start before lexeme outer

/-- The character at `offset`, which is no space, stands where a value may start in `place`. -/
def startValue (wanted : List Wanted) (place : Context) (offset : Nat) (c : Char) :
    Except ParseError State :=
  if c = '[' then
    if place.depth < maxDepth then .ok (.gap (.firstItem offset place)) else .error (.tooDeep offset)
  else if c = '{' then
    if place.depth < maxDepth then .ok (.gap (.key offset [] place)) else .error (.tooDeep offset)
  else if c = '"' then .ok (.string (.value place) offset [c] .plain)
  else if c = 'n' then .ok (.literal place .null 'u' ['l', 'l'])
  else if c = 't' then .ok (.literal place .true 'r' ['u', 'e'])
  else if c = 'f' then .ok (.literal place .false 'a' ['l', 's', 'e'])
  else match NumberPart.start? offset c with
    | some part => .ok (.number place [c] part)
    | none => .error (.unexpected wanted place.surroundings offset c)

/-- The character at `offset` stands in a string that starts at `start`. -/
def stringStep (role : StringRole) (start : Nat) (lexeme : List Char) (offset : Nat) (c : Char) :
    StringPart → Except ParseError State
  | .plain =>
      if c = '"' then .ok (.gap (role.fill (String.ofList (c :: lexeme).reverse)))
      else if c = '\\' then .ok (.string role start (c :: lexeme) (.escape offset))
      else if c.toNat < 0x20 then .error (.controlCharacter offset c)
      else .ok (.string role start (c :: lexeme) .plain)
  | .escape backslash =>
      if isShortEscape c then .ok (.string role start (c :: lexeme) .plain)
      else if c = 'u' then .ok (.string role start (c :: lexeme) (.hex backslash 3))
      else .error (.badEscape offset c)
  | .hex backslash more =>
      if isHexDigit c then
        match more with
        | 0 => .ok (.string role start (c :: lexeme) .plain)
        | more + 1 => .ok (.string role start (c :: lexeme) (.hex backslash more))
      else .error (.badHexDigit backslash offset c)

/-- The character at `offset` comes in a gap. -/
def Gap.step (offset : Nat) (c : Char) (g : Gap) : Except ParseError State :=
  if isSpace c then .ok (.gap g) else
  match g with
  | .value place => startValue [.value] place offset c
  | .firstItem start outer =>
      if c = ']' then .ok (.gap (outer.fill (.array [])))
      else startValue [.value, .char ']'] (.array start [] outer) offset c
  | .itemEnd start before outer =>
      if c = ',' then .ok (.gap (.value (.array start before outer)))
      else if c = ']' then .ok (.gap (outer.fill (.array before.reverse)))
      else .error (.unexpected [.char ',', .char ']'] (.array start) offset c)
  | .key start before outer =>
      if c = '"' then .ok (.string (.key start before outer) offset [c] .plain)
      else if before.isEmpty then
        if c = '}' then .ok (.gap (outer.fill (.object [])))
        else .error (.unexpected [.key, .char '}'] (.object start) offset c)
      else .error (.unexpected [.key] (.object start) offset c)
  | .colon start before k outer =>
      if c = ':' then .ok (.gap (.value (.object start before k outer)))
      else .error (.unexpected [.char ':'] (.object start) offset c)
  | .memberEnd start before outer =>
      if c = ',' then .ok (.gap (.key start before outer))
      else if c = '}' then .ok (.gap (outer.fill (.object before.reverse)))
      else .error (.unexpected [.char ',', .char '}'] (.object start) offset c)
  | .done _ => .error (.trailing offset c)

/-- The tree that has been read when the text ends in a gap. -/
def Gap.finish : Gap → Except ParseError Tree
  | .value place => .error (.unexpectedEnd [.value] place.surroundings)
  | .firstItem start _ => .error (.unexpectedEnd [.value, .char ']'] (.array start))
  | .itemEnd start _ _ => .error (.unexpectedEnd [.char ',', .char ']'] (.array start))
  | .key start before _ =>
      .error (.unexpectedEnd (if before.isEmpty then [.key, .char '}'] else [.key]) (.object start))
  | .colon start _ _ _ => .error (.unexpectedEnd [.char ':'] (.object start))
  | .memberEnd start _ _ => .error (.unexpectedEnd [.char ',', .char '}'] (.object start))
  | .done tree => .ok tree

namespace State

/-- The gap after a number, which ends only where something else begins. -/
def afterNumber (place : Context) (lexeme : List Char) : Gap :=
  place.fill (.scalar (String.ofList lexeme.reverse))

/-- The state after the character at `offset`. -/
def step (offset : Nat) (c : Char) : State → Except ParseError State
  | .gap g => g.step offset c
  | .string role start lexeme part => stringStep role start lexeme offset c part
  | .literal place word next rest =>
      if c = next then
        match rest with
        | [] => .ok (.gap (place.fill (.scalar word.spelling)))
        | next' :: rest' => .ok (.literal place word next' rest')
      else .error (.unexpected [.char next] (.literal word) offset c)
  | .number place lexeme part =>
      match part.next offset c with
      | .more part' => .ok (.number place (c :: lexeme) part')
      | .wrong cause => .error cause
      | .complete => (afterNumber place lexeme).step offset c

/-- Read the characters from `offset` on. -/
def run (offset : Nat) (state : State) : List Char → Except ParseError State
  | [] => .ok state
  | c :: rest =>
      match state.step offset c with
      | .ok state' => run (offset + c.utf8Size) state' rest
      | .error cause => .error cause

/-- The tree that has been read when the text ends here. -/
def finish : State → Except ParseError Tree
  | .gap g => g.finish
  | .string _ start _ _ => .error (.unclosedString start)
  | .literal _ word next _ => .error (.unexpectedEnd [.char next] (.literal word))
  | .number place lexeme part =>
      match part.endError? with
      | some cause => .error cause
      | none => (afterNumber place lexeme).finish

end State

/-- Read a whole text. -/
def Tree.parse (s : List Char) : Except ParseError Tree :=
  match (State.gap (.value .top)).run 0 s with
  | .ok state => state.finish
  | .error cause => .error cause

end JsonLayout.Json
