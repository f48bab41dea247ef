import StyleAudit.Cancellation
import StyleAudit.Registry.Basic
import StyleAudit.SourceFile.Build
import StyleAudit.Sources

/-!
# Building a registry

From the entry files on, imports are followed in waves: all files of a wave are
read, then they are added in order, and the files that they name for the first
time make up the next wave.  Each wave takes files away from those not yet seen,
so the waves come to an end, also when files import each other.
-/

namespace StyleAudit

namespace Registry

/-- What is known in the middle of following the imports. -/
structure Traversal where
  registry : Registry := {}
  diagnostics : List Diagnostic := []
  /-- The sources that have not been named yet. -/
  unseen : List Text
  /-- The files of the next wave. -/
  queue : List Text := []
deriving Repr

namespace Traversal

/-- The traversal with a further diagnostic. -/
def note (traversal : Traversal) (diagnostic : Diagnostic) : Traversal :=
  { traversal with diagnostics := traversal.diagnostics ++ [diagnostic] }

/-- Names a source: if that is the first time, it goes to the next wave. -/
def discover (traversal : Traversal) (path : Text) : Traversal :=
  if traversal.unseen.contains path then
    { traversal with
      unseen := traversal.unseen.filter (· != path),
      queue := traversal.queue ++ [path] }
  else traversal

/-- Names an entry file. -/
def enter (sources : Sources) (traversal : Traversal) (entry : Text) :
    Traversal :=
  if sources.contains entry then traversal.discover entry
  else
    traversal.note
      { severity := .error, code := .unknownEntry,
        message := s!"entry `{entry.shown}` is not among the provided sources",
        location := ⟨entry, .first⟩ }

/-- Is the import to be followed?  Built-in modules and what is left to the
browser are not. -/
def isFollowed (reference : ImportReference) : Bool :=
  !reference.plainCss && !Text.beginsWith "sass:".toList reference.target

/-- Follows an import of a file. -/
def follow (sources : Sources) (file : SourceFile) (traversal : Traversal)
    (reference : ImportReference) : Traversal :=
  if isFollowed reference then
    match sources.resolve? file.id reference.target with
    | some path => traversal.discover path
    | none =>
      traversal.note
        { severity := .warning, code := .unresolvedImport,
          message := s!"cannot resolve import `{reference.target.shown}`",
          location := reference.location }
  else traversal

/-- The diagnostic for a declaration whose name is taken. -/
def clashDiagnostic (registry : Registry) (first : DeclarationReference)
    (declaration : Declaration) : Diagnostic :=
  { severity := .error, code := .duplicateDeclaration,
    message := s!"`{declaration.name.shown}` is already declared",
    location := declaration.location,
    related := (registry.resolve? first).toList.map fun earlier =>
      ⟨earlier.location, "first declared here"⟩ }

/-- Adds a file to the registry. -/
def index (traversal : Traversal) (file : SourceFile) : Traversal :=
  let registry := traversal.registry.insert file
  { traversal with
    registry,
    diagnostics := traversal.diagnostics ++
      (traversal.registry.clashes file).map fun clash =>
        clashDiagnostic registry clash.1 clash.2 }

/-- Adds a file that has been read: what was found in it, its imports, its
declarations. -/
def commit (sources : Sources) (traversal : Traversal)
    (reading : SourceFile.Reading) : Traversal :=
  let noted :=
    { traversal with
      diagnostics := traversal.diagnostics ++ reading.diagnostics }
  (reading.file.imports.foldl (follow sources reading.file) noted).index
    reading.file

/-- The diagnostic for a file that cannot be read. -/
def exclusion (path text : Text) (cause : Failure.Cause) : Option Diagnostic :=
  match cause with
  | .malformed detail line column _ =>
    some
      { severity := .error, code := .parseError,
        message := s!"{Code.parseError.ruleName}: {detail}",
        location := ⟨path, .point (Position.ofLineColumn text line column)⟩ }
  | .cancelled => none
  | .snapshot _ => none

/-- Settles what came of reading the file at a path: it is added, or left
out. -/
def settle (sources : Sources) (traversal : Traversal)
    (result : Text × Except Failure SourceFile.Reading) : Traversal :=
  match result.2 with
  | .ok reading => traversal.commit sources reading
  | .error failure =>
    { traversal with
      diagnostics := traversal.diagnostics ++
        (exclusion result.1 (sources.text result.1) failure.cause).toList }

/-- Reads all files of the next wave, and then settles the results in order. -/
def wave (sources : Sources) (traversal : Traversal) : Traversal :=
  let results := traversal.queue.map fun path =>
    SourceFile.read path (sources.text path)
  (traversal.queue.zip results).foldl (settle sources)
    { traversal with queue := [] }

/-! ### The waves come to an end -/

/-- The number of files that are still to be visited, at most. -/
def size (traversal : Traversal) : Nat :=
  traversal.unseen.length + traversal.queue.length

theorem size_discover_le (traversal : Traversal) (path : Text) :
    (traversal.discover path).size ≤ traversal.size := by
  unfold discover
  split
  · rename_i unseen
    have shorter : (traversal.unseen.filter (· != path)).length <
        traversal.unseen.length := by
      rw [List.length_filter_lt_length_iff_exists]
      exact ⟨path, List.contains_iff_mem.mp unseen, by simp⟩
    simp only [size, List.length_append, List.length_singleton]
    omega
  · exact Nat.le_refl _

theorem size_follow_le (sources : Sources) (file : SourceFile)
    (traversal : Traversal) (reference : ImportReference) :
    (traversal.follow sources file reference).size ≤ traversal.size := by
  unfold follow
  split
  · split
    · exact size_discover_le ..
    · exact Nat.le_refl _
  · exact Nat.le_refl _

theorem size_foldl_le {α : Type} (step : Traversal → α → Traversal)
    (stepLe : ∀ traversal a, (step traversal a).size ≤ traversal.size)
    (list : List α) (traversal : Traversal) :
    (list.foldl step traversal).size ≤ traversal.size := by
  induction list generalizing traversal with
  | nil => exact Nat.le_refl _
  | cons a rest ih => exact Nat.le_trans (ih _) (stepLe ..)

theorem size_settle_le (sources : Sources) (traversal : Traversal)
    (result : Text × Except Failure SourceFile.Reading) :
    (traversal.settle sources result).size ≤ traversal.size := by
  unfold settle
  split
  · rename_i reading _
    exact size_foldl_le (follow sources reading.file)
      (size_follow_le sources reading.file) reading.file.imports
      { traversal with
        diagnostics := traversal.diagnostics ++ reading.diagnostics }
  · exact Nat.le_refl _

theorem size_wave_lt (sources : Sources) (traversal : Traversal)
    (waiting : traversal.queue ≠ []) :
    (traversal.wave sources).size < traversal.size := by
  have settled : (traversal.wave sources).size ≤ traversal.unseen.length :=
    size_foldl_le (settle sources) (size_settle_le sources) _
      { traversal with queue := [] }
  have some_waiting : 0 < traversal.queue.length :=
    List.length_pos_iff.mpr waiting
  rw [size.eq_def traversal]
  omega

/-- Reads files wave by wave until no wave is left. -/
def run (sources : Sources) (traversal : Traversal) : Traversal :=
  if traversal.queue = [] then traversal
  else run sources (traversal.wave sources)
termination_by traversal.size
decreasing_by exact size_wave_lt sources traversal (by assumption)

/-- The traversal that has named the entry files. -/
def start (sources : Sources) (entries : List Text) : Traversal :=
  entries.foldl (enter sources) { unseen := sources.paths }

end Traversal

/-- A registry with what was found while building it. -/
structure Building where
  registry : Registry
  diagnostics : List Diagnostic
deriving DecidableEq, Repr

/-- Builds the registry of the files that can be reached from the entry
files. -/
def build (sources : Sources) (entries : List Text) : Building :=
  let finished := (Traversal.start sources entries).run sources
  ⟨finished.registry, finished.diagnostics⟩

/-- Builds a registry unless the run is cancelled while there are files to
read. -/
def buildUnless (cancelled : Bool) (sources : Sources) (entries : List Text) :
    Except Failure Building :=
  if cancelled && !(Traversal.start sources entries).queue.isEmpty then
    .error .cancelled
  else .ok (build sources entries)

end Registry

end StyleAudit
