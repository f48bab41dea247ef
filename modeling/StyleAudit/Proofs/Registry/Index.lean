import StyleAudit.Registry.Basic

/-!
# Names of a registry belong to its files

Adding a file puts it behind the others and gives it those names that are not
taken.  So each name of a registry stands for a declaration in one of its files.
-/

namespace StyleAudit

theorem Text.mem_of_mem_insertEntry {α : Type} {key : Text} {value : α}
    {list : List (Text × α)} {entry : Text × α}
    (member : entry ∈ Text.insertEntry key value list) :
    entry = (key, value) ∨ entry ∈ list := by
  fun_induction Text.insertEntry key value list with
  | case1 => exact .inl (List.mem_singleton.mp member)
  | case2 other kept rest =>
      exact List.mem_cons.mp member
  | case3 other kept rest =>
      rcases List.mem_cons.mp member with here | later
      · exact .inl here
      · exact .inr (List.mem_cons_of_mem _ later)
  | case4 other kept rest _ ih =>
      rcases List.mem_cons.mp member with rfl | later
      · exact .inr List.mem_cons_self
      · rcases ih later with new | old
        · exact .inl new
        · exact .inr (List.mem_cons_of_mem _ old)

theorem NameIndex.mem_of_mem_addAll {file index : Nat} {names : NameIndex}
    {declarations : List Declaration} {entry : Text × DeclarationReference}
    (member : entry ∈ NameIndex.addAll file index names declarations) :
    entry ∈ names ∨ ∃ place declaration,
      declarations[place]? = some declaration ∧
      entry = (declaration.name, ⟨file, index + place⟩) := by
  induction declarations generalizing index names with
  | nil => exact .inl member
  | cons first rest ih =>
      have later : ∀ {names : NameIndex},
          entry ∈ NameIndex.addAll file (index + 1) names rest →
          entry ∈ names ∨ ∃ place declaration,
            (first :: rest)[place]? = some declaration ∧
            entry = (declaration.name, ⟨file, index + place⟩) := by
        intro names inRest
        rcases ih inRest with old | ⟨place, declaration, found, rfl⟩
        · exact .inl old
        · exact .inr ⟨place + 1, declaration,
            found, by rw [Nat.add_right_comm, Nat.add_assoc]⟩
      rw [NameIndex.addAll] at member
      split at member
      · exact later member
      · rcases later member with named | found
        · rcases Text.mem_of_mem_insertEntry named with rfl | old
          · exact .inr ⟨0, first, rfl, rfl⟩
          · exact .inl old
        · exact .inr found

namespace Registry

/-- Each name stands for a declaration of that name. -/
def Grounded (registry : Registry) : Prop :=
  ∀ entry ∈ registry.names, ∃ declaration,
    registry.resolve? entry.2 = some declaration ∧ declaration.name = entry.1

theorem resolve?_insert {registry : Registry} {reference : DeclarationReference}
    {declaration : Declaration}
    (found : registry.resolve? reference = some declaration)
    (file : SourceFile) : (registry.insert file).resolve? reference =
    some declaration := by
  rw [resolve?, Option.bind_eq_some_iff] at found ⊢
  obtain ⟨earlier, at_place, inside⟩ := found
  obtain ⟨bound, -⟩ := List.getElem?_eq_some_iff.mp at_place
  refine ⟨earlier, ?_, inside⟩
  rw [insert, List.getElem?_append_left bound, at_place]

theorem Grounded.insert {registry : Registry} (grounded : registry.Grounded)
    (file : SourceFile) : (registry.insert file).Grounded := by
  intro entry member
  rcases NameIndex.mem_of_mem_addAll member with
    old | ⟨place, declaration, found, rfl⟩
  · obtain ⟨declaration, resolved, named⟩ := grounded entry old
    exact ⟨declaration, resolve?_insert resolved file, named⟩
  · refine ⟨declaration, ?_, rfl⟩
    rw [resolve?, Option.bind_eq_some_iff]
    refine ⟨file, ?_, by rw [Nat.zero_add, found]⟩
    rw [Registry.insert, List.getElem?_append_right (Nat.le_refl _),
      Nat.sub_self]
    rfl

/-- The registry of some files, added in order. -/
def ofFiles (files : List SourceFile) : Registry :=
  files.foldl insert {}

theorem ofFiles_concat (files : List SourceFile) (file : SourceFile) :
    ofFiles (files ++ [file]) = (ofFiles files).insert file := by
  rw [ofFiles, List.foldl_append, List.foldl_cons, List.foldl_nil, ofFiles]

private theorem files_foldl_insert (files : List SourceFile)
    (registry : Registry) :
    (files.foldl insert registry).files = registry.files ++ files := by
  induction files generalizing registry with
  | nil => rw [List.foldl_nil, List.append_nil]
  | cons file files ih =>
      rw [List.foldl_cons, ih, insert, List.append_assoc, List.singleton_append]

theorem files_ofFiles (files : List SourceFile) :
    (ofFiles files).files = files :=
  files_foldl_insert files {}

private theorem grounded_foldl_insert (files : List SourceFile)
    {registry : Registry} (grounded : registry.Grounded) :
    (files.foldl insert registry).Grounded := by
  induction files generalizing registry with
  | nil => exact grounded
  | cons file files ih => exact ih (grounded.insert file)

theorem grounded_ofFiles (files : List SourceFile) : (ofFiles files).Grounded :=
  grounded_foldl_insert files nofun

end Registry

end StyleAudit
