import StyleAudit.Proofs.Path
import StyleAudit.Proofs.Registry.Findings

/-!
# Importing the file next door

An import is looked for under normal paths only, while sources are kept under
the paths they were given.  So a file finds the files beside it if their
directory was written as a normal path, and not otherwise: a source in `/a`,
`./a` or `a//b` is out of reach even from the same directory.
-/

namespace StyleAudit

namespace Sources

/-! ## What can be found -/

/-- What an import means is a source, and its path is a normal form. -/
theorem of_resolve? {sources : Sources} {importer target found : Text}
    (resolved : sources.resolve? importer target = some found) :
    sources.contains found = true ∧ (found = [] ∨ Path.IsNormal found) := by
  refine ⟨List.find?_some resolved, ?_⟩
  obtain ⟨candidate, -, normalized⟩ :=
    List.mem_filterMap.mp (List.mem_of_find?_eq_some resolved)
  exact Path.isNormal_of_normalize? normalized

/-- A source that is tried under its own path is found, or one that is tried
earlier. -/
theorem exists_resolve? {sources : Sources} {importer target path : Text}
    (tried : path ∈ (bases importer target).flatMap candidates)
    (normal : Path.IsNormal path) (contained : sources.contains path = true) :
    ∃ found, sources.resolve? importer target = some found := by
  rw [← Option.isSome_iff_exists, resolve?, List.find?_isSome]
  exact ⟨path,
    List.mem_filterMap.mpr ⟨path, tried, Path.normalize?_of_isNormal normal⟩,
    contained⟩

/-- From a directory, the stylesheet beside the importing file is tried. -/
theorem mem_candidates_beside {directory file : Text} (inside : directory ≠ [])
    (named : '/' ∉ file) (target : Text) :
    directory ++ '/' :: target ++ ".scss".toList ∈
      (bases (directory ++ '/' :: file) target).flatMap candidates := by
  have own : bases (directory ++ '/' :: file) target =
      [directory ++ '/' :: target, target] := by
    rw [bases, Path.directory_append named, if_neg (by simpa using inside)]
  rw [own]
  apply List.mem_flatMap.mpr
  exact ⟨_, List.mem_cons_self, by simp [candidates]⟩

/-! ## The file next door -/

private theorem isNormal_beside_iff {directory target : Text}
    (single : '/' ∉ target) (filled : target ≠ []) :
    Path.IsNormal (directory ++ '/' :: target ++ ".scss".toList) ↔
      Path.IsNormal directory := by
  have single' : '/' ∉ target ++ ".scss".toList := by
    simp [single]
  have ordinary : Path.IsOrdinary (target ++ ".scss".toList) := by
    have long : 6 ≤ (target ++ ".scss".toList).length := by
      have some_char := List.length_pos_iff.mpr filled
      simp
      omega
    refine ⟨?_, ?_, ?_⟩ <;>
    · intro short
      rw [short] at long
      simp at long
  rw [List.append_assoc, List.cons_append, Path.isNormal_append,
    Path.isNormal_of_not_mem single', and_iff_left ordinary]

end Sources

namespace Registry

namespace Traversal

private theorem importFindings_of_resolved {sources : Sources}
    {file : SourceFile} {reference : ImportReference} {found : Text}
    (resolved : sources.resolve? file.id reference.target = some found) :
    importFindings sources file reference = [] := by
  rw [importFindings, follow, resolved]
  split
  · exact diagnostics_discover _ found
  · rfl

end Traversal

/-- A file can import the stylesheets beside it exactly if their directory is
written as a normal path.  Then the import means some source, and nothing is
found to be wrong with it. -/
theorem resolve?_beside_iff {directory file target : Text} (named : '/' ∉ file)
    (single : '/' ∉ target) (ordinary : Path.IsOrdinary target) :
    (∀ sources : Sources,
      sources.contains (directory ++ '/' :: target ++ ".scss".toList) = true →
      ∃ found, sources.resolve? (directory ++ '/' :: file) target = some found ∧
        sources.contains found = true ∧
        ∀ (importer : SourceFile) (reference : ImportReference),
          importer.id = directory ++ '/' :: file → reference.target = target →
          Traversal.importFindings sources importer reference = []) ↔
      Path.IsNormal directory := by
  let path := directory ++ '/' :: target ++ ".scss".toList
  have normal_iff : Path.IsNormal path ↔ Path.IsNormal directory :=
    Sources.isNormal_beside_iff single ordinary.1
  constructor
  · intro always
    obtain ⟨found, resolved, -, -⟩ :=
      always [(path, [])] (by simp [Sources.contains, Sources.paths, path])
    obtain ⟨contained, isNormal⟩ := Sources.of_resolve? resolved
    obtain rfl : found = path := by
      simpa [Sources.contains, Sources.paths] using contained
    rcases isNormal with empty | isNormal
    · simp [path] at empty
    · exact normal_iff.mp isNormal
  · intro normal sources contained
    have inside : directory ≠ [] := by
      rintro rfl
      exact absurd normal (by decide)
    obtain ⟨found, resolved⟩ := Sources.exists_resolve?
      (Sources.mem_candidates_beside inside named target)
      (normal_iff.mpr normal) contained
    refine ⟨found, resolved, (Sources.of_resolve? resolved).1, ?_⟩
    intro importer reference sameId sameTarget
    rw [← sameId, ← sameTarget] at resolved
    exact Traversal.importFindings_of_resolved resolved

theorem resolve?_beside_dotted :
    let directory := "a/.b/..c".toList
    let sources : Sources :=
      [(directory ++ "/t.css".toList, []), (directory ++ "/t.scss".toList, [])]
    ('/' ∉ "main".toList ∧ '/' ∉ ['t'] ∧ Path.IsOrdinary ['t'] ∧
      Path.IsNormal directory) ∧
      ∃ found, sources.resolve? (directory ++ '/' :: "main".toList) ['t'] =
        some found := by
  intro directory sources
  have normal : Path.IsNormal directory := by decide
  have named : '/' ∉ "main".toList := by decide
  have single : '/' ∉ ['t'] := by decide
  have ordinary : Path.IsOrdinary ['t'] := by decide
  obtain ⟨found, resolved, -⟩ :=
    (resolve?_beside_iff named single ordinary).mpr normal sources (by decide)
  exact ⟨⟨named, single, ordinary, normal⟩, found, resolved⟩

/-- Next to a file in a directory that begins with a slash, nothing is found. -/
theorem resolve?_beside_absolute :
    let sources : Sources :=
      [("/a/main.scss".toList, "@use 't';".toList), ("/a/t.scss".toList, [])]
    sources.contains "/a/t.scss".toList = true ∧
      sources.resolve? "/a/main.scss".toList ['t'] = none ∧
      (build sources ["/a/main.scss".toList]).diagnostics.map (·.code) =
        [.unresolvedImport] := by
  decide +kernel

end Registry

end StyleAudit
