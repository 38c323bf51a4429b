/-! # Glob patterns

A pattern is a list of components between slashes. `*` stands for any characters of one name, `?`
for one, `[...]` for one of a class; a component `**` stands for any number of directories. -/

namespace JsonLayout.Glob

inductive ClassItem where
  | single (c : Char)
  | range (first last : Char)
  deriving DecidableEq

inductive Token where
  | char (c : Char)
  | anyChar
  | anySequence
  | anyDirectories
  | oneOf (items : List ClassItem)
  | noneOf (items : List ClassItem)
  deriving DecidableEq

inductive PatternFault where
  | wildcards
  | recursive
  | range
  deriving DecidableEq

/-- What is wrong with a pattern, and at which character. -/
structure PatternError where
  position : Nat
  fault : PatternFault
  deriving DecidableEq

def PatternError.message (e : PatternError) : String :=
  s!"Pattern syntax error near position {e.position}: " ++
  match e.fault with
  | .wildcards => "wildcards are either regular `*` or recursive `**`"
  | .recursive => "recursive wildcards must form a single path component"
  | .range => "invalid range pattern"

/-- What stands in a class. A dash with a character on either side makes a range. -/
def ClassItem.listOf : List Char → List ClassItem
  | a :: '-' :: b :: rest => .range a b :: listOf rest
  | a :: rest => .single a :: listOf rest
  | [] => []

def ClassItem.contains (c : Char) : ClassItem → Bool
  | .single a => c = a
  | .range a b => a ≤ c && c ≤ b

/-- What can be left of a list once some of its front has been taken, the longest first. -/
def ends {α : Type} : List α → List (List α)
  | [] => [[]]
  | a :: s => (a :: s) :: ends s

namespace Token

/-- What a class holds and what comes after it. The first character belongs to the class even if
it is `]`. -/
def classBody? : List Char → Option (List Char × List Char)
  | [] => none
  | c :: rest =>
      let inside := rest.takeWhile (· ≠ ']')
      match rest.drop inside.length with
      | [] => none
      | _ :: after => some (c :: inside, after)

theorem classBody?_length {s inside after : List Char} (h : classBody? s = some (inside, after)) :
    inside.length + after.length < s.length := by
  cases s with
  | nil => simp [classBody?] at h
  | cons c rest =>
      simp only [classBody?] at h
      split at h
      · simp at h
      · rename_i x tail heq
        have := congrArg List.length heq
        simp only [List.length_drop, List.length_cons] at this
        simp only [Option.some.injEq, Prod.mk.injEq] at h
        obtain ⟨rfl, rfl⟩ := h
        simp only [List.length_cons]
        omega

/-- Compile the characters from `position` on; `previous` is the one before them. -/
def compileFrom (position : Nat) (previous : Option Char) (s : List Char) :
    Except PatternError (List Token) :=
  match s with
  | [] => .ok []
  | '?' :: rest => (Token.anyChar :: ·) <$> compileFrom (position + 1) (some '?') rest
  | '*' :: '*' :: '*' :: _ => .error ⟨position + 2, .wildcards⟩
  | '*' :: '*' :: rest =>
      if previous.all (· = '/') then
        match rest with
        | [] => .ok [.anyDirectories]
        | '/' :: rest' =>
            (Token.anyDirectories :: ·) <$> compileFrom (position + 3) (some '/') rest'
        | _ => .error ⟨position + 2, .recursive⟩
      else .error ⟨position - 1, .recursive⟩
  | '*' :: rest => (Token.anySequence :: ·) <$> compileFrom (position + 1) (some '*') rest
  | '[' :: '!' :: rest =>
      match h : classBody? rest with
      | some (inside, after) =>
          (Token.noneOf (ClassItem.listOf inside) :: ·) <$>
            compileFrom (position + 3 + inside.length) (some ']') after
      | none => .error ⟨position, .range⟩
  | '[' :: rest =>
      match h : classBody? rest with
      | some (inside, after) =>
          (Token.oneOf (ClassItem.listOf inside) :: ·) <$>
            compileFrom (position + 2 + inside.length) (some ']') after
      | none => .error ⟨position, .range⟩
  | c :: rest => (Token.char c :: ·) <$> compileFrom (position + 1) (some c) rest
termination_by s.length
decreasing_by
  all_goals simp_wf
  · omega
  · have := classBody?_length h
    omega
  · have := classBody?_length h
    omega

def compile (s : List Char) : Except PatternError (List Token) := compileFrom 0 none s

/-- The token stands for any number of characters; any other stands for one. -/
def takesMany : Token → Bool
  | .anySequence | .anyDirectories => true
  | _ => false

/-- The token can stand for this character. -/
def takes (c : Char) : Token → Bool
  | .char a => c = a
  | .oneOf items => items.any (·.contains c)
  | .noneOf items => !items.any (·.contains c)
  | .anyChar | .anySequence | .anyDirectories => true

/-- The name is one that the tokens stand for. -/
def listMatches : List Token → List Char → Bool
  | [], s => s.isEmpty
  | t :: ts, s =>
      if t.takesMany then (ends s).any (listMatches ts)
      else match s with
        | [] => false
        | c :: rest => t.takes c && listMatches ts rest

/-- From what holds of each end of a name after a token to what holds before it. -/
def before (t : Token) (s : List Char) (row : List Bool) : List Bool :=
  if t.takesMany then row.foldr (fun b later => (b || later.headD false) :: later) []
  else s.zipWith (fun c b => t.takes c && b) row.tail ++ [false]

/-- Whether the tokens stand for each end of a name, the whole name first. One row is computed per
token, so a name never costs more than its length for each of them. -/
def matchRow (ts : List Token) (s : List Char) : List Bool :=
  ts.foldr (fun t row => t.before s row) ((ends s).map (·.isEmpty))

theorem before_map_ends (t : Token) (f : List Char → Bool) (s : List Char) :
    t.before s ((ends s).map f) =
      (ends s).map fun e =>
        if t.takesMany then (ends e).any f
        else match e with
          | [] => false
          | c :: rest => t.takes c && f rest := by
  unfold before
  split
  · induction s with
    | nil => simp [ends]
    | cons c s ih =>
        simp only [ends, List.map_cons, List.foldr_cons, ih, List.any_cons]
        cases s <;> simp [ends]
  · induction s with
    | nil => simp [ends]
    | cons c s ih => cases s <;> simp_all [ends]

theorem matchRow_eq (ts : List Token) (s : List Char) :
    matchRow ts s = (ends s).map (listMatches ts) := by
  induction ts with
  | nil => rfl
  | cons t ts ih =>
      have step : matchRow (t :: ts) s = t.before s (matchRow ts s) := rfl
      rw [step, ih, before_map_ends]
      rfl

/-- The name is one that the tokens stand for, found in as many steps as `matchRow` has cells. -/
def listAccepts (ts : List Token) (s : List Char) : Bool := (matchRow ts s).headD false

theorem listAccepts_eq (ts : List Token) (s : List Char) : listAccepts ts s = listMatches ts s := by
  rw [listAccepts, matchRow_eq]
  cases s <;> rfl

/-- The characters, if the tokens stand for nothing else. -/
def literal? : List Token → Option (List Char)
  | [] => some []
  | .char c :: ts => (c :: ·) <$> literal? ts
  | _ => none

end Token

/-- What stands between two slashes. -/
inductive Component where
  | name (name : String)
  | wild (tokens : List Token)
  | anyDirectories
  deriving DecidableEq

namespace Component

def ofTokens (ts : List Token) : Component :=
  if ts.contains .anyDirectories then .anyDirectories
  else match Token.literal? ts with
    | some s => .name (String.ofList s)
    | none => .wild ts

def isAnyDirectories : Component → Bool
  | .anyDirectories => true
  | _ => false

/-- The component stands for the name of one entry. -/
def accepts (name : String) : Component → Bool
  | .name s => name = s
  | .wild ts => Token.listAccepts ts name.toList
  | .anyDirectories => false

/-- The component begins with a dot of its own, so that it can also stand for `.` and `..`. -/
def startsWithDot : Component → Bool
  | .wild (.char '.' :: _) => true
  | _ => false

end Component

structure Pattern where
  absolute : Bool
  components : List Component
  /-- The pattern ends in a slash. -/
  onlyDirectories : Bool
  deriving DecidableEq

/-- What stands between slashes; `part` is what has been read since the last one, last character
first. A slash at the very end opens no further part. -/
def splitFrom (part : List Char) : List Char → List (List Char)
  | [] => if part.isEmpty then [] else [part.reverse]
  | c :: rest => if c = '/' then part.reverse :: splitFrom [] rest else splitFrom (c :: part) rest

/-- The whole text must make sense, and then each component by itself; the position of a fault is
counted in the part where it is found. -/
def Pattern.compile (s : String) : Except PatternError Pattern := do
  let _ ← Token.compile s.toList
  let absolute := s.toList.head? = some '/'
  let rest := if absolute then s.toList.tail else s.toList
  let parts := if rest.isEmpty then [[]] else splitFrom [] rest
  let components ← parts.mapM fun part => Component.ofTokens <$> Token.compile part
  return ⟨absolute, components, s.toList.getLast? = some '/'⟩

end JsonLayout.Glob
