import JsonLayout.Proofs.Disk.Leading
import JsonLayout.Proofs.Text.Order
import Mathlib.Data.List.Sort
import Mathlib.Data.String.Basic

/-!
# How paths compare

Paths compare name by name, and names as their bytes do. The entries of a directory are listed in
that order, each once.
-/

namespace JsonLayout

open DirectoryTree (isName)

variable {name other : String} {names names' done : List String}

namespace Path

/-- The first name in which the paths differ has the lesser bytes in `p`, or `p` has no more names. -/
def Precedes (p q : Path) : Prop := p.segments.map Text.bytes < q.segments.map Text.bytes

instance : Std.Irrefl Precedes := ⟨fun _ => List.lt_irrefl _⟩

instance : Std.Antisymm Precedes := ⟨fun _ _ h h' => absurd h' (List.lt_asymm h)⟩

/-- Below the same directory, the names that are left decide. -/
theorem precedes_of_lt (hnames : ∀ name ∈ done ++ names, isName name = true)
    (hnames' : ∀ name ∈ done ++ names', isName name = true) (hne : done ++ names ≠ [])
    (h : names < names') : (ofNames (done ++ names)).Precedes (ofNames (done ++ names')) := by
  have hne' : done ++ names' ≠ [] := by
    intro hnil
    obtain ⟨rfl, rfl⟩ := List.append_eq_nil_iff.mp hnil
    exact List.not_lt_nil _ h
  rw [Precedes, segments_ofNames hnames hne, segments_ofNames hnames' hne', List.map_append,
    List.map_append]
  exact List.append_left_lt (List.map_lt (fun _ _ => Text.bytes_lt) h)

end Path

namespace DirectoryTree

variable {t : DirectoryTree} {p : Path}

theorem pairwise_insertName (h : names.Pairwise (· < ·)) :
    (insertName name names).Pairwise (· < ·) := by
  induction names with
  | nil => exact List.pairwise_singleton _ name
  | cons n names ih =>
    obtain ⟨hn, hnames⟩ := List.pairwise_cons.mp h
    unfold insertName
    split_ifs with hlt heq
    · exact List.pairwise_cons.mpr ⟨List.forall_mem_cons.mpr
        ⟨hlt, fun m hm => hlt.trans (hn m hm)⟩, h⟩
    · exact h
    · have hgt : n < name := lt_of_le_of_ne (not_lt.mp hlt) (Ne.symm heq)
      refine List.pairwise_cons.mpr ⟨fun m hm => ?_, ih hnames⟩
      rcases mem_insertName hm with rfl | hm
      · exact hgt
      · exact hn m hm

theorem pairwise_namesIn (t : DirectoryTree) (loc : Location) :
    (t.namesIn loc).Pairwise (· < ·) := by
  unfold namesIn
  generalize t.entries.filterMap (fun x => nameIn? loc x.1) = names
  induction names with
  | nil => exact .nil
  | cons name names ih => exact pairwise_insertName ih

/-- Entries are listed by ascending names. -/
theorem pairwise_list {entries : List (String × Entry)} (h : t.list p = .ok entries) :
    entries.Pairwise (·.1 < ·.1) := by
  obtain ⟨loc, permissions, -, rfl⟩ := exists_locate_of_list h
  refine (t.pairwise_namesIn loc).filterMap _ fun n n' hlt x hx y hy => ?_
  obtain ⟨e, -, rfl⟩ := Option.map_eq_some_iff.mp hx
  obtain ⟨e', -, rfl⟩ := Option.map_eq_some_iff.mp hy
  exact hlt

end DirectoryTree

end JsonLayout
