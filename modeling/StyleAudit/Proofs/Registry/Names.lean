import Mathlib.Data.List.Forall2
import StyleAudit.Proofs.Registry.Index
import StyleAudit.Proofs.Text.Order

/-!
# A name belongs to the first declaration that has it

The files of a registry put the declarations at their top into one row, and the
index is what comes of naming that row from its beginning.  So the index finds
the first declaration with a name, and a declaration that it does not find is
one whose name was taken.
-/

namespace StyleAudit

/-! ## Names one by one -/

namespace Text

variable {α : Type}

theorem lookup_cons_eq (name key : Text) (value : α) (rest : List (Text × α)) :
    List.lookup name ((key, value) :: rest) =
      if name = key then some value else rest.lookup name := by
  rw [List.lookup_cons]
  by_cases same : name = key
  · rw [beq_iff_eq.mpr same, if_pos same]
  · rw [beq_eq_false_iff_ne.mpr same, if_neg same]

theorem lookup_insertEntry (key : Text) (value : α) (list : List (Text × α))
    (name : Text) :
    (insertEntry key value list).lookup name =
      if name = key then some value else list.lookup name := by
  fun_induction insertEntry key value list with
  | case1 => rw [lookup_cons_eq]
  | case2 other kept rest before => rw [lookup_cons_eq]
  | case3 other kept rest same =>
      obtain rfl := compare_eq_eq_iff.mp same
      by_cases found : name = key <;> simp [lookup_cons_eq, found]
  | case4 other kept rest behind ih =>
      have different : key ≠ other := by
        rintro rfl
        rw [compare_self] at behind
        cases behind
      rw [lookup_cons_eq, ih, lookup_cons_eq]
      by_cases found : name = key
      · rw [if_pos found, if_pos found, if_neg (found ▸ different)]
      · rw [if_neg found, if_neg found]

theorem length_insertEntry {key : Text} {list : List (Text × α)}
    (fresh : list.lookup key = none) (value : α) :
    (insertEntry key value list).length = list.length + 1 := by
  fun_induction insertEntry key value list with
  | case1 => rfl
  | case2 other kept rest before => rfl
  | case3 other kept rest same =>
      obtain rfl := compare_eq_eq_iff.mp same
      simp at fresh
  | case4 other kept rest behind ih =>
      have freshLater : rest.lookup key = none := by
        rw [List.lookup_cons] at fresh
        split at fresh
        · cases fresh
        · exact fresh
      rw [List.length_cons, List.length_cons, ih freshLater]

end Text

/-- A declaration in its place. -/
abbrev Place := DeclarationReference × Declaration

namespace NameIndex

/-- The declarations of a file in their places, counted from the given
number. -/
def placesOf (file index : Nat) (declarations : List Declaration) :
    List Place :=
  (declarations.zipIdx index).map fun numbered =>
    (⟨file, numbered.2⟩, numbered.1)

theorem placesOf_cons (file index : Nat) (declaration : Declaration)
    (rest : List Declaration) :
    placesOf file index (declaration :: rest) =
      (⟨file, index⟩, declaration) :: placesOf file (index + 1) rest := rfl

/-- The names with those of one more declaration, unless its name is taken. -/
def add (names : NameIndex) (place : Place) : NameIndex :=
  match names.find? place.2.name with
  | some _ => names
  | none => names.insert place.2.name place.1

/-- Of the declarations that are to be named, those whose name is taken, each
with the declaration that has it. -/
def taken : NameIndex → List Place → List (DeclarationReference × Declaration)
  | _, [] => []
  | names, place :: rest =>
    (names.find? place.2.name).toList.map (·, place.2) ++
      taken (names.add place) rest

theorem addAll_eq_foldl (file index : Nat) (names : NameIndex)
    (declarations : List Declaration) :
    addAll file index names declarations =
      (placesOf file index declarations).foldl add names := by
  induction declarations generalizing index names with
  | nil => rfl
  | cons declaration rest ih =>
      rw [placesOf_cons, List.foldl_cons, ← ih, addAll, add]
      cases names.find? declaration.name with
      | none => rfl
      | some first => rfl

theorem clashes_eq_taken (file index : Nat) (names : NameIndex)
    (declarations : List Declaration) :
    clashes file index names declarations =
      taken names (placesOf file index declarations) := by
  induction declarations generalizing index names with
  | nil => rfl
  | cons declaration rest ih =>
      rw [placesOf_cons, taken, ← ih, clashes, add]
      cases names.find? declaration.name with
      | none => rfl
      | some first => rfl

theorem taken_append (names : NameIndex) (left right : List Place) :
    taken names (left ++ right) =
      taken names left ++ taken (left.foldl add names) right := by
  induction left generalizing names with
  | nil => rfl
  | cons place rest ih =>
      rw [List.cons_append, taken, ih, taken, List.append_assoc,
        List.foldl_cons]

theorem find?_add (names : NameIndex) (place : Place) (name : Text) :
    (names.add place).find? name =
      (names.find? name).or
        (if name = place.2.name then some place.1 else none) := by
  rw [add]
  cases found : names.find? place.2.name with
  | none =>
      rw [NameIndex.find?, NameIndex.insert, Text.lookup_insertEntry]
      by_cases same : name = place.2.name
      · simp [same, found]
      · simp [same, NameIndex.find?]
  | some first =>
      by_cases same : name = place.2.name
      · simp [same, found]
      · simp [same]

theorem find?_foldl_add (names : NameIndex) (places : List Place)
    (name : Text) :
    (places.foldl add names).find? name =
      (names.find? name).or ((places.find? (·.2.name == name)).map (·.1)) := by
  induction places generalizing names with
  | nil => simp
  | cons place rest ih =>
      rw [List.foldl_cons, ih, find?_add, Option.or_assoc, List.find?_cons]
      by_cases same : name = place.2.name
      · simp [same]
      · have other : (place.2.name == name) = false :=
          beq_eq_false_iff_ne.mpr (Ne.symm same)
        simp [same, other]

/-- Each declaration adds a name or is one whose name is taken. -/
theorem length_foldl_add (names : NameIndex) (places : List Place) :
    (places.foldl add names).length + (taken names places).length =
      names.length + places.length := by
  induction places generalizing names with
  | nil => rfl
  | cons place rest ih =>
      have later := ih (names.add place)
      rw [List.foldl_cons, taken, List.length_append, List.length_cons]
      cases found : names.find? place.2.name with
      | none =>
          have longer : (names.add place).length = names.length + 1 := by
            rw [add, found]
            exact Text.length_insertEntry found place.1
          simp only [Option.toList_none, List.map_nil, List.length_nil]
          omega
      | some first =>
          have same : names.add place = names := by rw [add, found]
          rw [same] at later ⊢
          simp only [Option.toList_some, List.map_cons, List.map_nil,
            List.length_singleton]
          omega

end NameIndex

/-! ## Places in order -/

namespace DeclarationReference

/-- The place stands in front of the other: in an earlier file, or earlier in
the same file. -/
def Before (left right : DeclarationReference) : Prop :=
  left.file < right.file ∨ left.file = right.file ∧ left.index < right.index

theorem Before.ne {left right : DeclarationReference}
    (before : left.Before right) :
    left ≠ right := by
  rintro rfl
  rcases before with earlier | ⟨-, earlier⟩
  · exact Nat.lt_irrefl _ earlier
  · exact Nat.lt_irrefl _ earlier

end DeclarationReference

namespace NameIndex

theorem pairwise_zipIdx {α : Type} (list : List α) (index : Nat) :
    (list.zipIdx index).Pairwise fun left right => left.2 < right.2 := by
  have numbers : (List.range' index list.length).Pairwise (· < ·) :=
    List.pairwise_lt_range'
  rw [← List.zipIdx_map_snd, List.pairwise_map] at numbers
  exact numbers

theorem pairwise_placesOf (file index : Nat) (declarations : List Declaration) :
    (placesOf file index declarations).Pairwise fun left right =>
      left.1.Before right.1 := by
  rw [placesOf, List.pairwise_map]
  exact (pairwise_zipIdx declarations index).imp fun earlier =>
    .inr ⟨rfl, earlier⟩

theorem file_of_mem_placesOf {file index : Nat}
    {declarations : List Declaration} {place : Place}
    (member : place ∈ placesOf file index declarations) :
    place.1.file = file := by
  obtain ⟨numbered, -, rfl⟩ := List.mem_map.mp member
  rfl

/-- The names that are taken are those of the places that the index of the whole
row does not find. -/
theorem forall₂_taken {names : NameIndex} {places : List Place}
    (ordered : places.Pairwise fun left right => left.1.Before right.1)
    (fresh : ∀ name reference, names.find? name = some reference →
      ∀ place ∈ places, place.1 ≠ reference) :
    List.Forall₂
      (fun place clash =>
        (places.foldl add names).find? place.2.name = some clash.1 ∧
          clash.2 = place.2)
      (places.filter fun place =>
        (places.foldl add names).find? place.2.name ≠ some place.1)
      (taken names places) := by
  induction places generalizing names with
  | nil => exact .nil
  | cons place rest ih =>
      obtain ⟨first, later⟩ := List.pairwise_cons.mp ordered
      have freshLater : ∀ name reference,
          (names.add place).find? name = some reference →
          ∀ other ∈ rest, other.1 ≠ reference := by
        intro name reference found other member
        rw [find?_add, Option.or_eq_some_iff] at found
        rcases found with old | ⟨-, new⟩
        · exact fresh name reference old other
            (List.mem_cons_of_mem place member)
        · split at new
          · rw [← Option.some.inj new]
            exact (first other member).ne.symm
          · cases new
      have own : (rest.foldl add (names.add place)).find? place.2.name =
          (names.find? place.2.name).or (some place.1) := by
        rw [← List.foldl_cons, find?_foldl_add,
          List.find?_cons_of_pos (by simp)]
        rfl
      have others := ih later freshLater
      rw [taken, List.foldl_cons]
      cases found : names.find? place.2.name with
      | none =>
          rw [found, Option.none_or] at own
          rw [List.filter_cons_of_neg (by simp [own])]
          exact others
      | some taken =>
          have different := fresh _ _ found place List.mem_cons_self
          rw [found, Option.some_or] at own
          rw [List.filter_cons_of_pos (by simp [own, Ne.symm different])]
          exact .cons ⟨own, rfl⟩ others

end NameIndex

/-! ## The row of a registry -/

namespace Registry

/-- The declarations at the top of all files in their places, in order. -/
def places (registry : Registry) : List Place :=
  registry.files.zipIdx.flatMap fun numbered =>
    NameIndex.placesOf numbered.2 0 numbered.1.declarations

theorem places_insert (registry : Registry) (file : SourceFile) :
    (registry.insert file).places =
      registry.places ++ NameIndex.placesOf registry.files.length 0
        file.declarations := by
  simp [places, insert, List.zipIdx_append]

theorem mem_places_iff {registry : Registry} {reference : DeclarationReference}
    {declaration : Declaration} :
    (reference, declaration) ∈ registry.places ↔
      registry.resolve? reference = some declaration := by
  obtain ⟨file, index⟩ := reference
  rw [resolve?, Option.bind_eq_some_iff, places]
  simp only [NameIndex.placesOf, List.mem_flatMap, List.mem_map, Prod.exists,
    List.mem_zipIdx_iff_getElem?, Prod.mk.injEq, DeclarationReference.mk.injEq]
  constructor
  · rintro ⟨source, number, atNumber, other, place, atPlace, ⟨rfl, rfl⟩, rfl⟩
    exact ⟨source, atNumber, atPlace⟩
  · rintro ⟨source, atNumber, atPlace⟩
    exact ⟨source, file, atNumber, declaration, index, atPlace, ⟨rfl, rfl⟩, rfl⟩

theorem map_snd_places (registry : Registry) :
    registry.places.map (·.2) = registry.declarations := by
  have inFile : ∀ file (declarations : List Declaration),
      (NameIndex.placesOf file 0 declarations).map (·.2) = declarations := by
    intro file declarations
    rw [NameIndex.placesOf, List.map_map]
    exact List.zipIdx_map_fst 0 declarations
  rw [places, List.map_flatMap, declarations]
  simp only [inFile]
  conv => rhs; rw [← List.zipIdx_map_fst 0 registry.files, List.flatMap_map]

theorem pairwise_places (registry : Registry) :
    registry.places.Pairwise fun left right => left.1.Before right.1 := by
  rw [places, List.pairwise_flatMap]
  constructor
  · intro numbered _
    exact NameIndex.pairwise_placesOf _ _ _
  · apply (NameIndex.pairwise_zipIdx registry.files 0).imp
    intro left right earlier place inLeft other inRight
    rw [DeclarationReference.Before, NameIndex.file_of_mem_placesOf inLeft,
      NameIndex.file_of_mem_placesOf inRight]
    exact .inl earlier

/-- The index is what comes of naming all places in order. -/
def Indexed (registry : Registry) : Prop :=
  registry.names = registry.places.foldl NameIndex.add []

theorem Indexed.insert {registry : Registry} (indexed : registry.Indexed)
    (file : SourceFile) :
    (registry.insert file).Indexed := by
  rw [Indexed, places_insert, List.foldl_append, ← indexed,
    ← NameIndex.addAll_eq_foldl]
  rfl

namespace Indexed

variable {registry : Registry} {name : Text}

theorem find?_eq (indexed : registry.Indexed) (name : Text) :
    registry.names.find? name =
      (registry.places.find? (·.2.name == name)).map (·.1) := by
  rw [indexed, NameIndex.find?_foldl_add]
  rfl

/-- A name belongs to the first of the declarations that have it. -/
theorem find?_eq_some_iff (indexed : registry.Indexed)
    {reference : DeclarationReference} :
    registry.names.find? name = some reference ↔
      (∃ declaration, registry.resolve? reference = some declaration ∧
        declaration.name = name) ∧
      ∀ other declaration, registry.resolve? other = some declaration →
        declaration.name = name → reference = other ∨
          reference.Before other := by
  have first : ∀ {place : Place}, registry.places.find? (·.2.name == name) =
      some place →
      place.2.name = name ∧ registry.resolve? place.1 = some place.2 ∧
        ∀ other declaration, registry.resolve? other = some declaration →
          declaration.name = name → place.1 = other ∨ place.1.Before other := by
    intro place found
    obtain ⟨named, front, back, row, earlier⟩ :=
      List.find?_eq_some_iff_append.mp found
    have inRow : place ∈ registry.places := by
      rw [row]
      exact List.mem_append_right front List.mem_cons_self
    refine ⟨beq_iff_eq.mp named, mem_places_iff.mp inRow, ?_⟩
    intro other declaration resolved otherNamed
    have otherInRow := mem_places_iff.mpr resolved
    have ordered := registry.pairwise_places
    rw [row] at otherInRow ordered
    rcases List.mem_append.mp otherInRow with inFront | inBack
    · have notNamed := earlier _ inFront
      simp [otherNamed] at notNamed
    · rcases List.mem_cons.mp inBack with same | behind
      · exact .inl (congrArg Prod.fst same).symm
      · exact .inr
          ((List.pairwise_cons.mp (List.pairwise_append.mp ordered).2.1).1 _
            behind)
  rw [indexed.find?_eq, Option.map_eq_some_iff]
  constructor
  · rintro ⟨place, found, rfl⟩
    obtain ⟨named, resolved, least⟩ := first found
    exact ⟨⟨place.2, resolved, named⟩, least⟩
  · intro ⟨⟨declaration, resolved, named⟩, least⟩
    cases found : registry.places.find? (·.2.name == name) with
    | none =>
        have others :=
          List.find?_eq_none.mp found _ (mem_places_iff.mpr resolved)
        simp [named] at others
    | some place =>
        obtain ⟨placeNamed, placeResolved, placeLeast⟩ := first found
        refine ⟨place, rfl, ?_⟩
        rcases least place.1 place.2 placeResolved placeNamed with same | before
        · exact same.symm
        · rcases placeLeast reference declaration resolved named with
            same | behind
          · exact same
          · simp only [DeclarationReference.Before] at before behind
            omega

end Indexed

end Registry

end StyleAudit
