import JsonLayout.Command.Arguments
import Mathlib.Data.List.Basic

/-!
# Command lines that ask for a run

The options of a run can be told from the arguments one by one, each by itself: before `--` the
three spellings of the flags of a run are flags and everything else is a glob, and after it
everything is.
-/

namespace JsonLayout.Command

/-- The arguments before `--`, all of them if it is not there. -/
def beforeDashes (arguments : List String) : List String := arguments.takeWhile (· ≠ "--")

def afterDashes (arguments : List String) : List String := (arguments.dropWhile (· ≠ "--")).tail

/-- The flag of a run that the argument spells. -/
def Flag.spelled? (argument : String) : Option Flag :=
  if argument = "--write" ∨ argument = "-w" then some .write
  else if argument = "--verbose" then some .verbose
  else none

/-- The globs among the arguments. -/
def globsOf (arguments : List String) : List String :=
  (beforeDashes arguments).filter (fun argument => (Flag.spelled? argument).isNone) ++
    afterDashes arguments

variable {o o' : Options} {argument name : String} {arguments : List String} {flag : Flag}
  {request : Request}

theorem beforeDashes_cons (h : argument ≠ "--") :
    beforeDashes (argument :: arguments) = argument :: beforeDashes arguments := by
  simp [beforeDashes, h]

theorem afterDashes_cons (h : argument ≠ "--") :
    afterDashes (argument :: arguments) = afterDashes arguments := by
  simp [afterDashes, h]

namespace Flag

theorem spelled?_eq_write_iff :
    spelled? argument = some .write ↔ argument = "--write" ∨ argument = "-w" := by
  unfold spelled?
  split_ifs with hwrite hverbose <;> simp [hwrite]

theorem name_of_ofName? (h : ofName? name = some flag) : flag.name = name := by
  simpa using List.find?_some h

end Flag

namespace Options

/-- The options with what one more argument adds to them. -/
def add (o : Options) (argument : String) : Options :=
  match Flag.spelled? argument with
  | some flag => { o with flags := o.flags ++ [flag] }
  | none => { o with globs := o.globs ++ [argument] }

/-- Of the flags, only those of a run let the reading go on. -/
theorem mention_cases {r : Options ⊕ Request} (h : o.mention flag = .ok r) :
    (flag = .write ∨ flag = .verbose) ∧ r = .inl { o with flags := o.flags ++ [flag] } ∨
      r = .inr .version ∨ r = .inr .help := by
  cases flag with
  | write =>
    simp only [mention] at h
    split_ifs at h
    cases h
    exact .inl ⟨.inl rfl, rfl⟩
  | verbose =>
    cases h
    exact .inl ⟨.inr rfl, rfl⟩
  | version =>
    cases h
    exact .inr (.inl rfl)
  | help =>
    cases h
    exact .inr (.inr rfl)

/-- Of several letters the last one would have to be another flag of a run, and there is none. -/
theorem readLetters_cases {letters : List Char} {r : Options ⊕ Request} (hne : letters ≠ [])
    (h : o.readLetters letters = .ok r) :
    letters = ['w'] ∧ r = .inl { o with flags := o.flags ++ [.write] } ∨
      r = .inr .version ∨ r = .inr .help := by
  induction letters generalizing o with
  | nil => contradiction
  | cons c rest ih =>
    cases hletter : Flag.ofLetter? c with
    | none => simp [readLetters, hletter] at h
    | some flag =>
      have hflag : flag.letter? = some c := by simpa using List.find?_some hletter
      cases hmention : o.mention flag with
      | error e => simp [readLetters, hletter, hmention] at h
      | ok next =>
        rcases mention_cases hmention with ⟨rfl | rfl, rfl⟩ | hother
        · simp only [readLetters, hletter, hmention] at h
          obtain rfl : 'w' = c := Option.some.inj hflag
          by_cases hrest : rest = []
          · subst hrest
            cases h
            exact .inl ⟨rfl, rfl⟩
          · rcases ih hrest h with ⟨rfl, -⟩ | hother
            · simp [readLetters, Flag.ofLetter?, Flag.all, Flag.letter?, mention, write] at h
            · exact .inr hother
        · contradiction
        · rcases hother with rfl | rfl <;> simp_all [readLetters]

theorem readName_cases {value : Option String} {r : Options ⊕ Request}
    (h : o.readName name value = .ok r) :
    value = none ∧ (name = "write" ∧ r = .inl { o with flags := o.flags ++ [.write] } ∨
      name = "verbose" ∧ r = .inl { o with flags := o.flags ++ [.verbose] }) ∨
      r = .inr .version ∨ r = .inr .help := by
  unfold readName at h
  split at h
  · contradiction
  · contradiction
  · rename_i flag hname
    have hname := Flag.name_of_ofName? hname
    rcases mention_cases h with ⟨rfl | rfl, rfl⟩ | hother
    · exact .inl ⟨rfl, .inl ⟨hname.symm, rfl⟩⟩
    · exact .inl ⟨rfl, .inr ⟨hname.symm, rfl⟩⟩
    · exact .inr hother

/-- An argument adds to the options what it says by itself, or makes the command show a text. -/
theorem readArgument_cases {r : Options ⊕ Request} (h : o.readArgument argument = .ok r) :
    r = .inl (o.add argument) ∨ r = .inr .version ∨ r = .inr .help := by
  unfold readArgument at h
  split at h
  · rename_i rest hargument
    rcases readName_cases h with ⟨hvalue, hname⟩ | hother
    · have hrest : rest.drop (rest.takeWhile (· ≠ '=')).length = [] := by
        split at hvalue
        · assumption
        · contradiction
      have hall : rest.takeWhile (· ≠ '=') = rest := by
        rw [List.drop_eq_nil_iff] at hrest
        exact (List.takeWhile_prefix _).eq_of_length_le hrest
      have hspelled : argument = "--" ++ String.ofList rest := by
        simp [← String.toList_inj, hargument]
      rw [hall] at hname
      rcases hname with ⟨hname, rfl⟩ | ⟨hname, rfl⟩
      · obtain rfl : argument = "--write" := by rw [hspelled, hname]; rfl
        exact .inl rfl
      · obtain rfl : argument = "--verbose" := by rw [hspelled, hname]; rfl
        exact .inl rfl
    · exact .inr hother
  · rename_i c rest hdash hargument
    rcases readLetters_cases (by simp) h with ⟨hletters, rfl⟩ | hother
    · obtain rfl : argument = "-w" := String.toList_inj.mp (by rw [hargument, hletters]; rfl)
      exact .inl rfl
    · exact .inr hother
  · rename_i hnames hletters
    cases h
    have hglob : Flag.spelled? argument = none := by
      unfold Flag.spelled?
      split_ifs with hwrite hverbose
      · rcases hwrite with rfl | rfl
        · exact (hnames _ rfl).elim
        · exact (hletters _ _ rfl).elim
      · subst hverbose
        exact (hnames _ rfl).elim
      · rfl
    simp [add, hglob]

theorem readAll_eq_run (h : o.readAll arguments = .ok (.run o')) :
    o' = ⟨o.globs ++ globsOf arguments,
      o.flags ++ (beforeDashes arguments).filterMap Flag.spelled?⟩ := by
  induction arguments generalizing o with
  | nil =>
    cases h
    simp [globsOf, beforeDashes, afterDashes]
  | cons argument arguments ih =>
    by_cases hdashes : argument = "--"
    · subst hdashes
      cases h
      simp [globsOf, beforeDashes, afterDashes]
    · rw [readAll] at h
      · cases hread : o.readArgument argument with
        | error e => simp [hread] at h
        | ok r =>
          rw [hread] at h
          rcases readArgument_cases hread with rfl | rfl | rfl
          · rw [ih h, globsOf, globsOf, beforeDashes_cons hdashes, afterDashes_cons hdashes]
            cases hflag : Flag.spelled? argument <;> simp [add, hflag]
          · cases h
          · cases h
      · exact hdashes

end Options

/-- A run is over the globs among the arguments, with the flags that they spell. -/
theorem options_of_arguments (h : Request.ofArguments arguments = .ok (.run o)) :
    o = ⟨globsOf arguments, (beforeDashes arguments).filterMap Flag.spelled?⟩ :=
  Options.readAll_eq_run h

theorem write_of_arguments (h : Request.ofArguments arguments = .ok (.run o)) :
    o.write = true ↔ "--write" ∈ beforeDashes arguments ∨ "-w" ∈ beforeDashes arguments := by
  rw [options_of_arguments h, Options.write, List.contains_iff_mem, List.mem_filterMap]
  constructor
  · rintro ⟨argument, hmem, hflag⟩
    rcases Flag.spelled?_eq_write_iff.mp hflag with rfl | rfl
    · exact .inl hmem
    · exact .inr hmem
  · rintro (hmem | hmem)
    · exact ⟨_, hmem, rfl⟩
    · exact ⟨_, hmem, rfl⟩

end JsonLayout.Command
