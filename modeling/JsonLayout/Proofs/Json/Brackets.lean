import JsonLayout.Proofs.Json.Tokens
import JsonLayout.Proofs.Text.Offsets
import Mathlib.Data.List.Induction

/-!
# Quotes and brackets

Which string literal and which brackets are open after a text can be told from its quotes,
backslashes and brackets alone, whatever else is in it and whether or not it is JSON.
-/

namespace JsonLayout.Json

open Text (byteLength charAt? isBlank)

/-- What quotes and brackets tell about a text. -/
structure Scan where
  bytes : Nat := 0
  zone : Zone := .outside
  /-- Where the string literal starts that has not been closed. -/
  quote : Option Nat := none
  /-- The brackets outside of string literals that have not been closed, each with where it stands,
  innermost first. -/
  opened : List (Nat × Char) := []

namespace Scan

def next (k : Scan) (c : Char) : Scan where
  bytes := k.bytes + c.utf8Size
  zone := k.zone.next c
  quote :=
    if k.zone.next c = .outside then none
    else if k.zone = .outside then some k.bytes
    else k.quote
  opened :=
    if k.zone ≠ .outside then k.opened
    else if c = '[' ∨ c = '{' then (k.bytes, c) :: k.opened
    else if c = ']' ∨ c = '}' then k.opened.tail
    else k.opened

def after (k : Scan) (s : List Char) : Scan := s.foldl next k

/-- The same with more bytes in front. -/
def shift (bytes : Nat) (k : Scan) : Scan where
  bytes := k.bytes + bytes
  zone := k.zone
  quote := k.quote.map (· + bytes)
  opened := k.opened.map fun (offset, c) => (offset + bytes, c)

/-- Outside of a string, the character says nothing about strings and brackets. -/
def Plain (c : Char) : Prop := c ∉ ['"', '[', ']', '{', '}']

variable {k : Scan} {c : Char} {s : List Char}

theorem after_append (k : Scan) (s t : List Char) : k.after (s ++ t) = (k.after s).after t :=
  List.foldl_append

theorem bytes_after (k : Scan) (s : List Char) : (k.after s).bytes = k.bytes + byteLength s := by
  induction s generalizing k with
  | nil => rfl
  | cons c s ih =>
    change ((k.next c).after s).bytes = _
    rw [ih, next, byteLength, Nat.add_assoc]

theorem next_plain (hzone : k.zone = .outside) (hc : Plain c) :
    k.next c = { k with bytes := k.bytes + c.utf8Size, quote := none } := by
  simp only [Plain, List.mem_cons, List.not_mem_nil, or_false, not_or] at hc
  simp [next, hzone, hc, Zone.next]

theorem next_open (hzone : k.zone = .outside) (hc : c = '[' ∨ c = '{') :
    k.next c =
      { k with
        bytes := k.bytes + c.utf8Size
        quote := none
        opened := (k.bytes, c) :: k.opened } := by
  rcases hc with rfl | rfl <;> simp [next, hzone, Zone.next]

theorem next_close (hzone : k.zone = .outside) (hc : c = ']' ∨ c = '}') :
    k.next c =
      { k with bytes := k.bytes + c.utf8Size, quote := none, opened := k.opened.tail } := by
  rcases hc with rfl | rfl <;> simp [next, hzone, Zone.next]

theorem next_quote (hzone : k.zone = .outside) :
    k.next '"' =
      { k with bytes := k.bytes + '"'.utf8Size, zone := .inside, quote := some k.bytes } := by
  simp [next, hzone, Zone.next]

/-- Inside of a string no bracket counts. -/
theorem opened_next_of_ne (hzone : k.zone ≠ .outside) : (k.next c).opened = k.opened := by
  simp [next, hzone]

theorem quote_next_of_ne (hzone : k.zone ≠ .outside) (hnext : k.zone.next c ≠ .outside) :
    (k.next c).quote = k.quote := by
  simp [next, hzone, hnext]

theorem next_shift (bytes : Nat) : (k.shift bytes).next c = (k.next c).shift bytes := by
  have hbytes : k.bytes + bytes + c.utf8Size = k.bytes + c.utf8Size + bytes :=
    Nat.add_right_comm ..
  by_cases hzone : k.zone = .outside
  · by_cases hquote : c = '"'
    · simp [next, shift, hzone, hquote, Zone.next, Nat.add_right_comm]
    · by_cases hopen : c = '[' ∨ c = '{'
      · simp [next, shift, hzone, hquote, hopen, hbytes, Zone.next]
      · by_cases hclose : c = ']' ∨ c = '}' <;>
          simp [next, shift, hzone, hquote, hopen, hclose, hbytes, Zone.next]
  · by_cases hnext : k.zone.next c = .outside <;> simp [next, shift, hzone, hnext, hbytes]

theorem after_shift (bytes : Nat) : (k.shift bytes).after s = (k.after s).shift bytes := by
  induction s generalizing k with
  | nil => rfl
  | cons c s ih =>
    change ((k.shift bytes).next c).after s = ((k.next c).after s).shift bytes
    rw [next_shift, ih]

/-- Plain characters open and close no brackets, inside of strings or not. -/
theorem opened_next_of_plain (hc : Plain c) : (k.next c).opened = k.opened := by
  by_cases hzone : k.zone = .outside
  · rw [next_plain hzone hc]
  · exact opened_next_of_ne hzone

theorem opened_after_plain (hs : ∀ c ∈ s, Plain c) : (k.after s).opened = k.opened := by
  induction s generalizing k with
  | nil => rfl
  | cons c s ih =>
    obtain ⟨hc, hs⟩ := List.forall_mem_cons.mp hs
    exact (ih hs).trans (opened_next_of_plain hc)

theorem after_plain (hzone : k.zone = .outside) (hs : ∀ c ∈ s, Plain c) (hquote : k.quote = none) :
    k.after s = { k with bytes := k.bytes + byteLength s } := by
  induction s generalizing k with
  | nil => rfl
  | cons c s ih =>
    obtain ⟨hc, hs⟩ := List.forall_mem_cons.mp hs
    have hnext : k.next c = { k with bytes := k.bytes + c.utf8Size } := by
      rw [next_plain hzone hc, hquote]
    change (k.next c).after s = _
    rw [hnext, byteLength, ← Nat.add_assoc]
    exact ih hzone hs hquote

/-- Without a quote, a string literal that is open stays open. -/
theorem quote_after_plain (hzone : k.zone ≠ .outside) (hs : ∀ c ∈ s, Plain c) :
    (k.after s).zone ≠ .outside ∧ (k.after s).quote = k.quote := by
  induction s generalizing k with
  | nil => exact ⟨hzone, rfl⟩
  | cons c s ih =>
    obtain ⟨hc, hs⟩ := List.forall_mem_cons.mp hs
    have hquote : c ≠ '"' := fun h => hc (by simp [h])
    have hnext : k.zone.next c ≠ .outside := by
      cases hk : k.zone with
      | outside => exact absurd hk hzone
      | inside =>
        simp only [Zone.next, hquote, if_false]
        split_ifs <;> simp
      | escaped => simp [Zone.next]
    obtain ⟨hafter, hsame⟩ := ih (k := k.next c) hnext hs
    exact ⟨hafter, hsame.trans (quote_next_of_ne hzone hnext)⟩

theorem plain_of_isBlank (h : isBlank c = true) : Plain c := by
  simp only [Plain, List.mem_cons, List.not_mem_nil, or_false, not_or]
  refine ⟨?_, ?_, ?_, ?_, ?_⟩ <;> rintro rfl <;> contradiction

theorem plain_of_numberChar (h : NumberChar c) : Plain c := by
  rcases h with h | h
  · simp only [Plain, List.mem_cons, List.not_mem_nil, or_false, not_or]
    refine ⟨?_, ?_, ?_, ?_, ?_⟩ <;> exact h.ne_of_not (by unfold Digit; decide)
  · simp only [List.mem_cons, List.not_mem_nil, or_false] at h
    rcases h with rfl | rfl | rfl | rfl | rfl <;> simp [Plain]

end Scan

/-! Tokens and the white space between them leave no string open. -/

theorem Zone.after_append (zone : Zone) (s t : List Char) :
    zone.after (s ++ t) = (zone.after s).after t :=
  List.foldl_append

/-- Outside of strings, the text does not leave one open. -/
def Closed (s : List Char) : Prop := Zone.outside.after s = .outside

namespace Closed

theorem append {s t : List Char} (hs : Closed s) (ht : Closed t) : Closed (s ++ t) := by
  rw [Closed, Zone.after_append, hs, ht]

theorem of_ws {w : List Char} (hw : Ws w) : Closed w := by
  induction w with
  | nil => rfl
  | cons c w ih =>
    have hc : Zone.outside.next c = .outside := by
      rcases hw c (by simp) with rfl | rfl | rfl | rfl <;> rfl
    rw [Closed, Zone.after, List.foldl_cons, hc]
    exact ih fun d hd => hw d (by simp [hd])

theorem of_laidOut {tokens : List (List Char)} {s : List Char} (h : LaidOut tokens s) :
    Closed s := by
  induction h with
  | nil hw => exact of_ws hw
  | cons hw htoken _ ih => exact ((of_ws hw).append htoken.keeps.2).append ih

end Closed

/-- The scan of a whole text. -/
def scan (s : List Char) : Scan := Scan.after {} s

theorem scan_append (s t : List Char) : scan (s ++ t) = (scan s).after t :=
  Scan.after_append {} s t

theorem bytes_scan (s : List Char) : (scan s).bytes = byteLength s := by
  rw [scan, Scan.bytes_after, Nat.zero_add]

theorem zone_after (k : Scan) (s : List Char) : (k.after s).zone = k.zone.after s := by
  induction s generalizing k with
  | nil => rfl
  | cons c s ih => exact ih (k.next c)

theorem zone_scan (s : List Char) : (scan s).zone = Zone.outside.after s := zone_after {} s

/-- Blanks in front only move what follows them. -/
theorem scan_blanks_append {w : List Char} (hw : ∀ c ∈ w, isBlank c = true) (s : List Char) :
    scan (w ++ s) = (scan s).shift (byteLength w) := by
  have hplain : ∀ c ∈ w, Scan.Plain c := fun c hc => Scan.plain_of_isBlank (hw c hc)
  have hstart : scan w = Scan.shift (byteLength w) {} := Scan.after_plain rfl hplain rfl
  rw [scan_append, hstart, Scan.after_shift, scan]

/-- An open bracket stands in the text where the scan says. -/
theorem charAt?_of_mem_opened {s : List Char} {offset : Nat} {c : Char}
    (h : (offset, c) ∈ (scan s).opened) : charAt? s offset = some c := by
  induction s using List.reverseRecOn with
  | nil => cases h
  | append_singleton s d ih =>
    have hold : (offset, c) ∈ (scan s).opened → charAt? (s ++ [d]) offset = some c := fun h =>
      Text.charAt?_append_of_some (ih h) [d]
    have h : (offset, c) ∈ ((scan s).next d).opened := by rwa [scan_append] at h
    simp only [Scan.next] at h
    split_ifs at h with hzone hopen hclose
    · exact hold h
    · rcases List.mem_cons.mp h with hnew | h
      · obtain ⟨rfl, rfl⟩ := Prod.mk.inj hnew
        rw [bytes_scan]
        exact Text.charAt?_length s [c]
      · exact hold h
    · exact hold (List.mem_of_mem_tail h)
    · exact hold h

theorem zone_of_quote {s : List Char} {offset : Nat} (h : (scan s).quote = some offset) :
    (scan s).zone ≠ .outside := by
  induction s using List.reverseRecOn with
  | nil => cases h
  | append_singleton s d _ =>
    intro hzone
    have h : ((scan s).next d).quote = some offset := by rwa [scan_append] at h
    have hzone : (scan s).zone.next d = .outside := by rwa [scan_append] at hzone
    simp [Scan.next, hzone] at h

/-- A string literal that is open starts with a quote. -/
theorem charAt?_of_quote {s : List Char} {offset : Nat} (h : (scan s).quote = some offset) :
    charAt? s offset = some '"' := by
  induction s using List.reverseRecOn with
  | nil => cases h
  | append_singleton s d ih =>
    have h : ((scan s).next d).quote = some offset := by rwa [scan_append] at h
    simp only [Scan.next] at h
    split_ifs at h with hnext hzone
    · have hd : d = '"' := by
        rw [hzone] at hnext
        simpa [Zone.next] using hnext
      obtain rfl := Option.some.inj h
      rw [bytes_scan, hd]
      exact Text.charAt?_length s ['"']
    · exact Text.charAt?_append_of_some (ih h) [d]

end JsonLayout.Json
