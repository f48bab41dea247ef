import StyleAudit.Proofs.Registry.Reachability

/-!
# What a visit adds

A visit adds a file to the registry or leaves the registry alone, and it adds to
the findings without looking at the earlier ones.  Whatever visits of files that
can be reached preserve holds therefore of a finished registry and its findings.
-/

namespace StyleAudit

namespace Registry

namespace Traversal

/-! ## Single steps -/

/-- What is found when an entry is named. -/
def entryFindings (sources : Sources) (entry : Text) : List Diagnostic :=
  (enter sources { unseen := [] } entry).diagnostics

/-- What is found when an import of a file is followed. -/
def importFindings (sources : Sources) (file : SourceFile)
    (reference : ImportReference) : List Diagnostic :=
  (follow sources file { unseen := [] } reference).diagnostics

/-- What is found when a file is added to a registry. -/
def clashFindings (registry : Registry) (file : SourceFile) : List Diagnostic :=
  (registry.clashes file).map fun clash =>
    clashDiagnostic (registry.insert file) clash.1 clash.2

theorem diagnostics_discover (traversal : Traversal) (path : Text) :
    (traversal.discover path).diagnostics = traversal.diagnostics := by
  rw [discover]
  split <;> rfl

theorem diagnostics_enter (sources : Sources) (traversal : Traversal)
    (entry : Text) :
    (enter sources traversal entry).diagnostics =
      traversal.diagnostics ++ entryFindings sources entry := by
  rw [entryFindings, enter, enter]
  split
  · rw [diagnostics_discover, diagnostics_discover, List.append_nil]
  · rfl

theorem diagnostics_follow (sources : Sources) (file : SourceFile)
    (traversal : Traversal) (reference : ImportReference) :
    (follow sources file traversal reference).diagnostics =
      traversal.diagnostics ++ importFindings sources file reference := by
  rw [importFindings, follow, follow]
  split
  · split
    · rw [diagnostics_discover, diagnostics_discover, List.append_nil]
    · rfl
  · rw [List.append_nil]

/-- An entry is reported if it is no source. -/
theorem of_mem_entryFindings {sources : Sources} {entry : Text}
    {diagnostic : Diagnostic}
    (member : diagnostic ∈ entryFindings sources entry) :
    diagnostic.code = .unknownEntry ∧
      diagnostic.location = ⟨entry, .first⟩ ∧ diagnostic.related = [] := by
  rw [entryFindings, enter] at member
  split at member
  · rw [diagnostics_discover] at member
    exact (List.not_mem_nil member).elim
  · rw [List.mem_singleton.mp member]
    exact ⟨rfl, rfl, rfl⟩

/-- An import is reported, at its own place, if it leads nowhere. -/
theorem of_mem_importFindings {sources : Sources} {file : SourceFile}
    {reference : ImportReference} {diagnostic : Diagnostic}
    (member : diagnostic ∈ importFindings sources file reference) :
    diagnostic.code = .unresolvedImport ∧
      diagnostic.location = reference.location ∧ diagnostic.related = [] := by
  rw [importFindings, follow] at member
  split at member
  · split at member
    · rw [diagnostics_discover] at member
      exact (List.not_mem_nil member).elim
    · rw [List.mem_singleton.mp member]
      exact ⟨rfl, rfl, rfl⟩
  · exact (List.not_mem_nil member).elim

theorem diagnostics_foldl {α : Type} {step : Traversal → α → Traversal}
    {found : α → List Diagnostic}
    (each : ∀ traversal a,
      (step traversal a).diagnostics = traversal.diagnostics ++ found a)
    (list : List α) (traversal : Traversal) :
    (list.foldl step traversal).diagnostics = traversal.diagnostics ++
      list.flatMap found := by
  induction list generalizing traversal with
  | nil => rw [List.foldl_nil, List.flatMap_nil, List.append_nil]
  | cons a rest ih =>
      rw [List.foldl_cons, ih, each, List.flatMap_cons, List.append_assoc]

theorem diagnostics_start (sources : Sources) (entries : List Text) :
    (start sources entries).diagnostics =
      entries.flatMap (entryFindings sources) := by
  rw [start, diagnostics_foldl (diagnostics_enter sources)]
  rfl

theorem registry_start (sources : Sources) (entries : List Text) :
    (start sources entries).registry = {} :=
  (silent_foldl (silent_enter sources) entries
    { unseen := sources.paths }).registry

theorem diagnostics_commit (sources : Sources) (traversal : Traversal)
    (reading : SourceFile.Reading) :
    (traversal.commit sources reading).diagnostics =
      traversal.diagnostics ++ (reading.diagnostics ++
        (reading.file.imports.flatMap (importFindings sources reading.file) ++
          clashFindings traversal.registry reading.file)) := by
  have followed :=
    silent_foldl (silent_follow sources reading.file) reading.file.imports
      { traversal with
        diagnostics := traversal.diagnostics ++ reading.diagnostics }
  rw [commit, index,
    diagnostics_foldl (diagnostics_follow sources reading.file),
    followed.registry]
  simp only [clashFindings, List.append_assoc]

/-! ## All visits -/

section Visits

variable {sources : Sources} {entries : List Text}

/-- A property of the registry and the findings that a visit of a file which can
be reached preserves. -/
structure Preserved (sources : Sources) (entries : List Text)
    (property : Registry → List Diagnostic → Prop) : Prop where
  started : property {} (entries.flatMap (entryFindings sources))
  added : ∀ registry found path reading, Reached sources entries path →
    SourceFile.read path (sources.text path) = .ok reading →
    property registry found →
    property (registry.insert reading.file) (found ++ (reading.diagnostics ++
      (reading.file.imports.flatMap (importFindings sources reading.file) ++
        clashFindings registry reading.file)))
  leftOut : ∀ registry found path failure, Reached sources entries path →
    SourceFile.read path (sources.text path) = .error failure →
    property registry found →
    property registry
      (found ++ (exclusion path (sources.text path) failure.cause).toList)

variable {property : Registry → List Diagnostic → Prop}

theorem Preserved.visit (preserved : Preserved sources entries property)
    {traversal : Traversal} {path : Text}
    (reached : Reached sources entries path)
    (holds : property traversal.registry traversal.diagnostics) :
    property (traversal.visit sources path).registry
      (traversal.visit sources path).diagnostics := by
  cases read : SourceFile.read path (sources.text path) with
  | ok reading =>
      rw [Traversal.visit_of_read read]
      rw [registry_commit, diagnostics_commit]
      exact preserved.added _ _ path reading reached read holds
  | error failure =>
      rw [Traversal.visit_of_failed read]
      exact preserved.leftOut _ _ path failure reached read holds

theorem Preserved.foldl_visit (preserved : Preserved sources entries property)
    {traversal : Traversal} {paths : List Text}
    (reached : ∀ path ∈ paths, Reached sources entries path)
    (holds : property traversal.registry traversal.diagnostics) :
    property (paths.foldl (Traversal.visit sources) traversal).registry
      (paths.foldl (Traversal.visit sources) traversal).diagnostics := by
  induction paths generalizing traversal with
  | nil => exact holds
  | cons path rest ih =>
      have here := preserved.visit (reached path List.mem_cons_self) holds
      exact ih
        (fun other member => reached other (List.mem_cons_of_mem path member))
        here

theorem Preserved.run (preserved : Preserved sources entries property)
    {past : List Text} {traversal : Traversal}
    (search : Search sources entries past traversal)
    (holds : property traversal.registry traversal.diagnostics) :
    property (traversal.run sources).registry
      (traversal.run sources).diagnostics := by
  fun_induction Traversal.run sources traversal generalizing past with
  | case1 traversal done => exact holds
  | case2 traversal waiting ih =>
      have reached : ∀ path ∈ traversal.queue, Reached sources entries path :=
        fun path member => search.sound path (List.mem_append_right past member)
      have emptied : property { traversal with queue := [] }.registry
          { traversal with queue := [] }.diagnostics := holds
      have settled := preserved.foldl_visit reached emptied
      rw [← Traversal.wave_eq_foldl_visit] at settled
      exact ih search.wave settled

/-- What visits preserve holds in the end. -/
theorem Preserved.build (preserved : Preserved sources entries property) :
    property (build sources entries).registry
      (build sources entries).diagnostics := by
  apply preserved.run (search_start sources entries)
  rw [registry_start, diagnostics_start]
  exact preserved.started

end Visits

end Traversal

end Registry

end StyleAudit
