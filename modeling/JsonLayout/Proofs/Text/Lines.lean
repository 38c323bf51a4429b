import JsonLayout.Text.Line
import Mathlib.Tactic.Common

/-! # Texts cut into whole lines -/

namespace JsonLayout.Text

/-- The text has no line end in it. -/
def Unbroken (s : List Char) : Prop := ∀ c ∈ s, c ≠ '\n' ∧ c ≠ '\r'

/-- The text is these lines in this order. A line ends after a line feed, after a carriage return
with a line feed, or after a carriage return that no line feed follows; only the last one can lack
its end. -/
inductive CutInto : List Char → List String → Prop
  | nil : CutInto [] []
  | last {body : List Char} (hbody : Unbroken body) (hne : body ≠ []) :
      CutInto body [String.ofList body]
  | line {body ending rest : List Char} {ls : List String} (hbody : Unbroken body)
      (hending : ending = ['\n'] ∨ ending = ['\r', '\n'] ∨
        ending = ['\r'] ∧ rest.head? ≠ some '\n')
      (h : CutInto rest ls) :
      CutInto (body ++ ending ++ rest) (String.ofList (body ++ ending) :: ls)

theorem CutInto.join {s : List Char} {ls : List String} (h : CutInto s ls) :
    String.join ls = String.ofList s := by
  induction h with
  | nil => rfl
  | last => simp
  | line hbody hending h ih => simp [ih, ← String.ofList_append]

theorem linesFrom_cutInto (done : List String) (line rest : List Char) (hline : Unbroken line) :
    ∃ ls, linesFrom done line rest = done.reverse ++ ls ∧ CutInto (line.reverse ++ rest) ls := by
  have hreverse : ∀ {l : List Char}, Unbroken l → Unbroken l.reverse :=
    fun h c hc => h c (List.mem_reverse.1 hc)
  -- the open line has no end in it until the line is done
  fun_induction linesFrom done line rest with
  | case1 done line =>
    by_cases hempty : line = []
    · subst hempty
      exact ⟨[], by simp, .nil⟩
    · refine ⟨[String.ofList line.reverse], by simp [hempty], ?_⟩
      rw [List.append_nil]
      exact .last (hreverse hline) (by simpa using hempty)
  | case2 done line rest ih =>
    obtain ⟨ls, hls, hcut⟩ := ih (by simp [Unbroken])
    have h := CutInto.line (hreverse hline) (.inr (.inl rfl)) hcut
    exact ⟨_, by rw [hls, List.reverse_cons, List.append_assoc], by simpa using h⟩
  | case3 done line c rest hcrlf hc ih =>
    obtain ⟨ls, hls, hcut⟩ := ih (by simp [Unbroken])
    have hending : [c] = ['\n'] ∨ [c] = ['\r', '\n'] ∨ [c] = ['\r'] ∧ rest.head? ≠ some '\n' := by
      have hend : c = '\n' ∨ c = '\r' := by simpa using hc
      rcases hend with rfl | rfl
      · exact .inl rfl
      · refine .inr (.inr ⟨rfl, ?_⟩)
        intro hhead
        obtain ⟨tail, rfl⟩ := List.head?_eq_some_iff.1 hhead
        exact hcrlf tail rfl rfl
    have h := CutInto.line (hreverse hline) hending hcut
    exact ⟨_, by rw [hls, List.reverse_cons, List.append_assoc], by simpa using h⟩
  | case4 done line c rest hcrlf hc ih =>
    have hopen : Unbroken (c :: line) := by
      intro d hd
      rcases List.mem_cons.1 hd with rfl | hd
      · simpa using hc
      · exact hline d hd
    obtain ⟨ls, hls, hcut⟩ := ih hopen
    exact ⟨ls, hls, by simpa using hcut⟩

theorem lines_cutInto (s : String) : CutInto s.toList (lines s) := by
  obtain ⟨ls, hls, hcut⟩ := linesFrom_cutInto [] [] s.toList (by simp [Unbroken])
  rw [lines, hls]
  exact hcut

end JsonLayout.Text
