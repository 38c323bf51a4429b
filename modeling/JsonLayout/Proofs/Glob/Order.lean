import JsonLayout.Proofs.Glob.Entries

/-!
# In which order a walk finds paths

Along components of which none, or the last but one alone, is a `**`, a walk finds paths in
ascending order. It does not after other patterns: what comes after `**` and one name may lie deeper
than what the same `**` finds next.
-/

namespace JsonLayout.Glob

open DirectoryTree (isName)
open JsonLayout.Path (ofNames)

variable {t : DirectoryTree} {f g : Found} {c : Component} {components : List Component}
  {parts : List (List Char)} {done : List String} {name other : String}

/-- `a` comes at most once in the list, and then right before its last element. -/
inductive OnlyBeforeLast {α : Type} (a : α) : List α → Prop
  | nil : OnlyBeforeLast a []
  | cons {b : α} {l : List α} (hb : b ≠ a) (h : OnlyBeforeLast a l) : OnlyBeforeLast a (b :: l)
  | last {b : α} (hb : b ≠ a) : OnlyBeforeLast a [a, b]

/-- Both are paths, and `f` comes before `g`. -/
def InOrder (f g : Found) : Prop := ∃ p q, f = .ok p ∧ g = .ok q ∧ p.Precedes q

theorem inOrder_of_lt (hlt : name < other) (hf : Below (done ++ [name]) f)
    (hg : Below (done ++ [other]) g) : InOrder f g := by
  obtain ⟨names, rfl, hnames⟩ := hf
  obtain ⟨names', rfl, hnames'⟩ := hg
  refine ⟨_, _, rfl, rfl, ?_⟩
  rw [← List.append_cons] at hnames hnames' ⊢
  rw [← List.append_cons]
  exact Path.precedes_of_lt hnames hnames' (by simp) (List.cons_lt_cons_iff.mpr (.inl hlt))

/-- What is found under each name in order is found in order altogether. -/
theorem pairwise_flatMap_names {g : String → List Found}
    (hg : ∀ name ∈ namesBelow t done, (g name).Pairwise InOrder)
    (hbelow : ∀ name ∈ namesBelow t done, ∀ f ∈ g name, Below (done ++ [name]) f) :
    ((namesBelow t done).flatMap g).Pairwise InOrder :=
  List.pairwise_flatMap.mpr ⟨hg, (pairwise_namesBelow t done).imp_of_mem fun ha hb hlt f hf f' hf' =>
    inOrder_of_lt hlt (hbelow _ ha f hf) (hbelow _ hb f' hf')⟩

/-- A path comes before those that lead on from it. -/
theorem inOrder_of_mem_foundBelow (ht : t.Listable) (hcomponents : ∀ c ∈ components, c.NamesOnly)
    (hne : components ≠ []) (hdone : ∀ name ∈ done, isName name = true) (hsome : done ≠ [])
    (hf : f ∈ foundBelow t components done) : InOrder (.ok (ofNames done)) f := by
  rw [foundBelow, visit, if_neg (mt List.isEmpty_iff.mp hne)] at hf
  obtain ⟨names, rfl, hnames, hmore⟩ := exists_names_of_mem_walk ht hcomponents hdone hf
  obtain ⟨name, more, rfl⟩ := List.exists_cons_of_ne_nil hmore
  have hpath : (ofNames (done ++ [])).Precedes (ofNames (done ++ name :: more)) :=
    Path.precedes_of_lt (by simpa using hdone) (List.forall_mem_append.mpr ⟨hdone, hnames⟩)
      (by simpa using hsome) (List.nil_lt_cons name more)
  exact ⟨_, _, rfl, rfl, by simpa using hpath⟩

/-- What a component finds after `**` at one name is at most one path. -/
theorem foundAfter_eq (c : Component) (done : List String) (name : String) :
    foundAfter t [c] done name = [] ∨
      foundAfter t [c] done name = [.ok (ofNames (done ++ [name]))] := by
  rw [foundAfter_cons, foundBelow_nil]
  split_ifs
  · exact .inr rfl
  · exact .inl rfl

theorem pairwise_foundBelow_directories (ht : t.Listable) (hc : c.NamesOnly)
    (hdeep : c ≠ .anyDirectories) (hdone : ∀ name ∈ done, isName name = true) :
    (foundBelow t [.anyDirectories, c] done).Pairwise InOrder := by
  have hcomponents : ∀ c' ∈ [.anyDirectories, c], c'.NamesOnly := by
    simpa using ⟨rfl, hc⟩
  have hhead : [c].head? ≠ some .anyDirectories := fun h => hdeep (Option.some.inj h)
  induction hsteps : stepsLeft [.anyDirectories, c] done using Nat.strong_induction_on
    generalizing done with
  | _ steps ih =>
    rw [foundBelow_anyDirectories_of_head ht hdone hhead]
    refine pairwise_flatMap_names (fun name hname => ?_) fun name hname f hf => ?_
    · have hfront := isName_of_mem_namesBelow ht hdone hname
      have hdeeper : (foundBelow t [.anyDirectories, c] (done ++ [name])).Pairwise InOrder := by
        cases hdirectory : t.isDirectory (ofNames (done ++ [name])) with
        | false =>
          rw [foundBelow_anyDirectories_of_head ht hfront hhead,
            namesBelow_of_not_isDirectory hdirectory]
          exact .nil
        | true =>
          have hlt : stepsLeft [.anyDirectories, c] (done ++ [name]) < steps :=
            hsteps ▸ stepsLeft_lt_of_isDirectory (hfront name (by simp)) le_rfl hdirectory
          exact ih _ hlt hfront rfl
      rcases foundAfter_eq (t := t) c done name with hnone | hone
      · rwa [hnone, List.nil_append]
      · rw [hone, List.singleton_append, List.pairwise_cons]
        exact ⟨fun f hf => inOrder_of_mem_foundBelow ht hcomponents (by simp) hfront (by simp) hf,
          hdeeper⟩
    · have hfront := isName_of_mem_namesBelow ht hdone hname
      rcases List.mem_append.mp hf with hf | hf
      · exact below_of_mem_foundAfter ht (by simpa using hc) hfront hf
      · exact below_of_mem_foundBelow ht hcomponents hfront hf

theorem pairwise_foundBelow (ht : t.Listable)
    (hshape : OnlyBeforeLast .anyDirectories components)
    (hcomponents : ∀ c ∈ components, c.NamesOnly)
    (hdone : ∀ name ∈ done, isName name = true) :
    (foundBelow t components done).Pairwise InOrder := by
  induction hshape generalizing done with
  | nil => exact List.pairwise_singleton _ _
  | @cons c rest hdeep _ ih =>
    obtain ⟨hc, hrest⟩ := List.forall_mem_cons.mp hcomponents
    cases c with
    | anyDirectories => contradiction
    | name s =>
      rw [foundBelow_name hc]
      split_ifs
      · have hname : ∀ n ∈ [s], isName n = true := List.forall_mem_singleton.mpr hc
        exact ih hrest (List.forall_mem_append.mpr ⟨hdone, hname⟩)
      · exact .nil
    | wild ts =>
      rw [foundBelow_wild ht hdone hc]
      refine pairwise_flatMap_names (fun name hname => ?_) fun name hname f hf => ?_
      · split_ifs
        · exact ih hrest (isName_of_mem_namesBelow ht hdone hname)
        · exact .nil
      · split_ifs at hf
        · exact below_of_mem_foundBelow ht hrest (isName_of_mem_namesBelow ht hdone hname) hf
        · contradiction
  | last hdeep =>
    exact pairwise_foundBelow_directories ht (hcomponents _ (by simp)) hdeep hdone

/-! What a pattern finds. -/

theorem OnlyBeforeLast.of_compilesTo (hshape : OnlyBeforeLast recursive parts)
    (h : List.Forall₂ CompilesTo parts components) :
    OnlyBeforeLast .anyDirectories components := by
  induction hshape generalizing components with
  | nil =>
    cases h
    exact .nil
  | cons hb _ ih =>
    cases h with
    | cons hfirst hrest => exact .cons (mt hfirst.eq_anyDirectories_iff.mp hb) (ih hrest)
  | last hb =>
    cases h with
    | cons hfirst hrest =>
      cases hrest with
      | cons hlast hnil =>
        cases hnil
        obtain rfl := hfirst.eq_anyDirectories_iff.mpr rfl
        exact .last (mt hlast.eq_anyDirectories_iff.mp hb)

theorem pairwise_find {text : String} {pattern : Pattern}
    (hpattern : Pattern.compile text = .ok pattern)
    (hparts : ∀ part ∈ text.toList.splitOn '/', Ordinary part)
    (hshape : OnlyBeforeLast recursive (text.toList.splitOn '/')) (ht : t.Listable) :
    (pattern.find t).Pairwise InOrder := by
  obtain ⟨components, rfl, hne, hnamesOnly, hcompiles⟩ :=
    exists_components_of_ordinary hpattern hparts
  rw [find_eq_foundBelow hne]
  exact pairwise_foundBelow ht (hshape.of_compilesTo hcompiles) hnamesOnly (List.forall_mem_nil _)

end JsonLayout.Glob
