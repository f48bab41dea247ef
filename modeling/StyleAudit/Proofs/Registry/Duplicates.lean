import StyleAudit.Proofs.Registry.Findings
import StyleAudit.Proofs.Registry.Names

/-!
# The first declaration of a name has it, and the others are reported

Building a registry names the declarations in the order in which the files are
visited.  A declaration that comes too late for its name is reported when its
file is added, and the report stays right when further files are added.
-/

namespace StyleAudit

theorem NameIndex.find?_of_mem_taken {names : NameIndex} {places : List Place}
    {clash : DeclarationReference × Declaration}
    (member : clash ∈ NameIndex.taken names places) :
    (places.foldl NameIndex.add names).find? clash.2.name = some clash.1 := by
  induction places generalizing names with
  | nil => exact (List.not_mem_nil member).elim
  | cons place rest ih =>
      rcases List.mem_append.mp member with here | later
      · obtain ⟨first, found, rfl⟩ := List.mem_map.mp here
        rw [NameIndex.find?_foldl_add, Option.mem_toList.mp found]
        rfl
      · exact ih later

namespace Registry

/-- The finding that the name of a declaration belongs to an earlier one. -/
structure Repeats (registry : Registry) (place : Place)
    (diagnostic : Diagnostic) : Prop where
  severity : diagnostic.severity = .error
  message : diagnostic.message = s!"`{place.2.name.shown}` is already declared"
  location : diagnostic.location = place.2.location
  related : ∃ first, registry.lookup? place.2.name = some first ∧
    diagnostic.related = [⟨first.location, "first declared here"⟩]

namespace Building

/-- The findings about declarations whose name is taken. -/
def duplicates (building : Building) : List Diagnostic :=
  building.diagnostics.filter (·.code == .duplicateDeclaration)

end Building

/-- The declarations whose name belongs to another one, in their places. -/
def displaced (registry : Registry) : List Place :=
  registry.places.filter fun place => registry.names.find? place.2.name ≠
    some place.1

namespace Indexed

variable {registry : Registry}

theorem lookup?_isSome (indexed : registry.Indexed) (name : Text) :
    (registry.lookup? name).isSome = registry.contains name := by
  rw [lookup?, contains]
  cases found : registry.names.find? name with
  | none => rfl
  | some reference =>
      obtain ⟨⟨declaration, resolved, -⟩, -⟩ :=
        indexed.find?_eq_some_iff.mp found
      rw [Option.bind_some, resolved]
      rfl

theorem name_of_lookup? (indexed : registry.Indexed) {name : Text}
    {declaration : Declaration}
    (looked : registry.lookup? name = some declaration) :
    declaration.name = name := by
  obtain ⟨reference, found, resolved⟩ := Option.bind_eq_some_iff.mp looked
  obtain ⟨⟨other, otherResolved, named⟩, -⟩ :=
    indexed.find?_eq_some_iff.mp found
  rw [resolved] at otherResolved
  rwa [Option.some.inj otherResolved]

theorem contains_of_mem (indexed : registry.Indexed) {declaration : Declaration}
    (member : declaration ∈ registry.declarations) :
    registry.contains declaration.name = true := by
  rw [← map_snd_places] at member
  obtain ⟨place, inRow, rfl⟩ := List.mem_map.mp member
  rw [contains, indexed.find?_eq, Option.isSome_map, List.find?_isSome]
  exact ⟨place, inRow, beq_self_eq_true _⟩

end Indexed

/-! ## The reports -/

namespace Traversal

/-- The findings report the names that are taken, and no others. -/
structure Reported (registry : Registry) (found : List Diagnostic) : Prop where
  indexed : registry.Indexed
  reports : found.filter (·.code == .duplicateDeclaration) =
    (NameIndex.taken [] registry.places).map fun clash =>
      clashDiagnostic registry clash.1 clash.2

theorem filter_duplicates_eq_nil {found : List Diagnostic}
    (others : ∀ diagnostic ∈ found, diagnostic.code ≠ .duplicateDeclaration) :
    found.filter (·.code == .duplicateDeclaration) = [] := by
  rw [List.filter_eq_nil_iff]
  intro diagnostic member
  simpa using others diagnostic member

/-- A report of an earlier file does not change when a file is added. -/
theorem clashDiagnostic_insert {registry : Registry}
    (indexed : registry.Indexed) (file : SourceFile)
    {clash : DeclarationReference × Declaration}
    (member : clash ∈ NameIndex.taken [] registry.places) :
    clashDiagnostic (registry.insert file) clash.1 clash.2 =
      clashDiagnostic registry clash.1 clash.2 := by
  have found := NameIndex.find?_of_mem_taken member
  rw [← indexed] at found
  obtain ⟨⟨earlier, resolved, -⟩, -⟩ := indexed.find?_eq_some_iff.mp found
  rw [clashDiagnostic, clashDiagnostic, resolved, resolve?_insert resolved file]

private theorem clashFindings_eq {registry : Registry}
    (indexed : registry.Indexed) (file : SourceFile) :
    (NameIndex.taken [] registry.places).map
        (fun clash => clashDiagnostic registry clash.1 clash.2) ++
        clashFindings registry file =
      (NameIndex.taken [] (registry.insert file).places).map fun clash =>
        clashDiagnostic (registry.insert file) clash.1 clash.2 := by
  rw [places_insert, NameIndex.taken_append, ← indexed, List.map_append,
    clashFindings, clashes, NameIndex.clashes_eq_taken]
  congr 1
  exact List.map_congr_left fun clash member =>
    (clashDiagnostic_insert indexed file member).symm

theorem preserved_reported (sources : Sources) (entries : List Text) :
    Preserved sources entries Reported where
  started := by
    refine ⟨rfl, ?_⟩
    apply filter_duplicates_eq_nil
    intro diagnostic member
    obtain ⟨entry, -, found⟩ := List.mem_flatMap.mp member
    rw [(of_mem_entryFindings found).1]
    exact nofun
  added := by
    intro registry found path reading _ read reported
    have remarks : reading.diagnostics.filter
        (·.code == .duplicateDeclaration) = [] := by
      apply filter_duplicates_eq_nil
      intro diagnostic member same
      have allowed := SourceFile.aboutComments_of_read read diagnostic member
      rw [same] at allowed
      exact absurd allowed (by decide)
    have imports :
        (reading.file.imports.flatMap
          (importFindings sources reading.file)).filter
        (·.code == .duplicateDeclaration) = [] := by
      apply filter_duplicates_eq_nil
      intro diagnostic member
      obtain ⟨reference, -, inFindings⟩ := List.mem_flatMap.mp member
      rw [(of_mem_importFindings inFindings).1]
      exact nofun
    have clashes : (clashFindings registry reading.file).filter
        (·.code == .duplicateDeclaration) =
          clashFindings registry reading.file := by
      rw [List.filter_eq_self]
      intro diagnostic member
      obtain ⟨clash, -, rfl⟩ := List.mem_map.mp member
      rfl
    refine ⟨reported.indexed.insert reading.file, ?_⟩
    rw [List.filter_append, List.filter_append, List.filter_append, remarks,
      imports, clashes, reported.reports, List.nil_append, List.nil_append,
      clashFindings_eq reported.indexed]
  leftOut := by
    intro registry found path failure _ failed reported
    obtain ⟨diagnostic, excluded, code, -⟩ := exclusion_of_read failed
    refine ⟨reported.indexed, ?_⟩
    have other : [diagnostic].filter (·.code == .duplicateDeclaration) =
        [] := by
      simp [code]
    rw [excluded, Option.toList_some, List.filter_append, other,
      List.append_nil, reported.reports]

/-- Each declaration whose name belongs to another one is reported once. -/
theorem Reported.forall₂ {registry : Registry} {found : List Diagnostic}
    (reported : Reported registry found) :
    List.Forall₂ registry.Repeats registry.displaced
      (found.filter (·.code == .duplicateDeclaration)) := by
  have taken :=
    @NameIndex.forall₂_taken [] registry.places registry.pairwise_places nofun
  rw [← reported.indexed] at taken
  rw [reported.reports, List.forall₂_map_right_iff]
  refine taken.imp ?_
  rintro place ⟨reference, declaration⟩ ⟨found, rfl⟩
  obtain ⟨⟨first, resolved, -⟩, -⟩ :=
    reported.indexed.find?_eq_some_iff.mp found
  have looked : registry.lookup? place.2.name = some first :=
    Option.bind_eq_some_iff.mpr ⟨reference, found, resolved⟩
  refine ⟨rfl, rfl, rfl, first, looked, ?_⟩
  rw [clashDiagnostic, resolved]
  rfl

theorem Reported.exists_repeats {registry : Registry} {found : List Diagnostic}
    (reported : Reported registry found) {diagnostic : Diagnostic}
    (member : diagnostic ∈ found)
    (code : diagnostic.code = .duplicateDeclaration) :
    ∃ place ∈ registry.places, registry.Repeats place diagnostic := by
  have kept : diagnostic ∈ found.filter (·.code == .duplicateDeclaration) :=
    List.mem_filter.mpr ⟨member, beq_iff_eq.mpr code⟩
  have each := reported.forall₂
  obtain ⟨⟨index, below⟩, rfl⟩ := List.mem_iff_get.mp kept
  have within : index < registry.displaced.length := each.length_eq ▸ below
  have displaced := List.get_mem registry.displaced ⟨index, within⟩
  exact ⟨_, (List.mem_filter.mp displaced).1, each.get within below⟩

theorem Reported.length_eq {registry : Registry} {found : List Diagnostic}
    (reported : Reported registry found) :
    registry.names.length +
      (found.filter (·.code == .duplicateDeclaration)).length =
      registry.declarations.length := by
  have counted := NameIndex.length_foldl_add [] registry.places
  rw [← reported.indexed] at counted
  rw [reported.reports, List.length_map, counted, ← map_snd_places,
    List.length_map]
  exact Nat.zero_add _

end Traversal

/-- The first declaration of a name has it, and nothing is lost.  Each
declaration at the top of a file is found by its name, or an earlier one is.
The index holds the place of the first declaration with a name, looking a name
up gives that declaration, and each other declaration with the name is reported
once, at its own place and with the place of the first one. -/
theorem build_first_declared (sources : Sources) (entries : List Text) :
    (∀ declaration ∈ (build sources entries).registry.declarations,
      (build sources entries).registry.contains declaration.name = true) ∧
    (∀ name reference,
      (build sources entries).registry.names.find? name = some reference ↔
        (∃ declaration,
          (build sources entries).registry.resolve? reference =
            some declaration ∧
            declaration.name = name) ∧
        ∀ other declaration,
          (build sources entries).registry.resolve? other = some declaration →
            declaration.name = name → reference = other ∨
              reference.Before other) ∧
    (∀ name, ((build sources entries).registry.lookup? name).isSome =
      (build sources entries).registry.contains name) ∧
    (∀ name declaration,
      (build sources entries).registry.lookup? name = some declaration →
        declaration.name = name) ∧
    List.Forall₂ (build sources entries).registry.Repeats
      (build sources entries).registry.displaced
        (build sources entries).duplicates ∧
    (build sources entries).registry.names.length +
        (build sources entries).duplicates.length =
      (build sources entries).registry.declarations.length := by
  have reported := (Traversal.preserved_reported sources entries).build
  refine ⟨?_, ?_, ?_, ?_, reported.forall₂, reported.length_eq⟩
  · intro declaration member
    exact reported.indexed.contains_of_mem member
  · intro name reference
    exact reported.indexed.find?_eq_some_iff
  · intro name
    exact reported.indexed.lookup?_isSome name
  · intro name declaration looked
    exact reported.indexed.name_of_lookup? looked

end Registry

end StyleAudit
