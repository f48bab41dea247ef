import StyleAudit.Proofs.Registry.Index
import StyleAudit.Proofs.Registry.Search
import StyleAudit.Proofs.SourceFile.Placement

/-!
# A registry holds the files that can be reached

The files in a registry and the findings about files that cannot be read are
determined by the order in which the files were visited.  Together with the
search this says which files a registry holds, and of which files it is said
that they cannot be read.
-/

namespace StyleAudit

namespace Registry

namespace Traversal

/-! ## The record -/

/-- The findings of files that cannot be read. -/
def parseErrors (diagnostics : List Diagnostic) : List Diagnostic :=
  diagnostics.filter (·.code == .parseError)

theorem parseErrors_append (left right : List Diagnostic) :
    parseErrors (left ++ right) = parseErrors left ++ parseErrors right :=
  List.filter_append left right

theorem parseErrors_eq_nil {diagnostics : List Diagnostic}
    (others : ∀ diagnostic ∈ diagnostics, diagnostic.code ≠ .parseError) :
    parseErrors diagnostics = [] := by
  rw [parseErrors, List.filter_eq_nil_iff]
  intro diagnostic member
  simpa using others diagnostic member

/-- A step adds no file, and no finding of a file that cannot be read. -/
structure Silent (before after : Traversal) : Prop where
  registry : after.registry = before.registry
  errors : parseErrors after.diagnostics = parseErrors before.diagnostics

theorem silent_note {diagnostic : Diagnostic}
    (other : diagnostic.code ≠ .parseError) (traversal : Traversal) :
    Silent traversal (traversal.note diagnostic) := by
  refine ⟨rfl, ?_⟩
  have nothing : parseErrors [diagnostic] = [] :=
    parseErrors_eq_nil fun _ member => List.mem_singleton.mp member ▸ other
  rw [note, parseErrors_append, nothing, List.append_nil]

theorem silent_discover (path : Text) (traversal : Traversal) :
    Silent traversal (traversal.discover path) := by
  rw [discover]
  split
  · exact ⟨rfl, rfl⟩
  · exact ⟨rfl, rfl⟩

theorem silent_enter (sources : Sources) (traversal : Traversal)
    (entry : Text) :
    Silent traversal (enter sources traversal entry) := by
  rw [enter]
  split
  · exact silent_discover entry traversal
  · exact silent_note (by simp) traversal

theorem silent_follow (sources : Sources) (file : SourceFile)
    (traversal : Traversal) (reference : ImportReference) :
    Silent traversal (follow sources file traversal reference) := by
  rw [follow]
  split
  · split
    · exact silent_discover _ traversal
    · exact silent_note (by simp) traversal
  · exact ⟨rfl, rfl⟩

theorem silent_foldl {α : Type} {step : Traversal → α → Traversal}
    (each : ∀ traversal a, Silent traversal (step traversal a)) (list : List α)
    (traversal : Traversal) : Silent traversal (list.foldl step traversal) := by
  induction list generalizing traversal with
  | nil => exact ⟨rfl, rfl⟩
  | cons a rest ih =>
      have first := each traversal a
      have later := ih (step traversal a)
      exact ⟨later.registry.trans first.registry,
        later.errors.trans first.errors⟩

theorem registry_commit (sources : Sources) (traversal : Traversal)
    (reading : SourceFile.Reading) :
    (traversal.commit sources reading).registry =
      traversal.registry.insert reading.file := by
  have followed :=
    silent_foldl (silent_follow sources reading.file) reading.file.imports
      { traversal with
        diagnostics := traversal.diagnostics ++ reading.diagnostics }
  rw [commit, index, followed.registry]

theorem parseErrors_commit (sources : Sources) (traversal : Traversal)
    {reading : SourceFile.Reading}
    (aboutComments : SourceFile.AboutComments reading.diagnostics) :
    parseErrors (traversal.commit sources reading).diagnostics =
      parseErrors traversal.diagnostics := by
  have followed :=
    silent_foldl (silent_follow sources reading.file) reading.file.imports
      { traversal with
        diagnostics := traversal.diagnostics ++ reading.diagnostics }
  have remarks : parseErrors reading.diagnostics = [] := by
    apply parseErrors_eq_nil
    intro diagnostic member same
    have allowed := aboutComments diagnostic member
    rw [same] at allowed
    exact absurd allowed (by decide)
  have clashes :
      ∀ (registry : Registry)
        (list : List (DeclarationReference × Declaration)),
      parseErrors
        (list.map fun clash => clashDiagnostic registry clash.1 clash.2) =
          [] := by
    intro registry list
    apply parseErrors_eq_nil
    intro diagnostic member
    obtain ⟨clash, -, rfl⟩ := List.mem_map.mp member
    exact nofun
  rw [commit, index, parseErrors_append, clashes, List.append_nil,
    followed.errors, parseErrors_append, remarks, List.append_nil]

/-- The file at a path, if it can be read. -/
def readable? (sources : Sources) (path : Text) : Option SourceFile :=
  match SourceFile.read path (sources.text path) with
  | .ok reading => some reading.file
  | .error _ => none

/-- The finding that the file at a path cannot be read, if it cannot. -/
def excluded? (sources : Sources) (path : Text) : Option Diagnostic :=
  match SourceFile.read path (sources.text path) with
  | .ok _ => none
  | .error failure => exclusion path (sources.text path) failure.cause

theorem exclusion_of_read {path text : Text} {failure : Failure}
    (failed : SourceFile.read path text = .error failure) :
    ∃ diagnostic, exclusion path text failure.cause = some diagnostic ∧
      diagnostic.code = .parseError ∧ diagnostic.location.file = path := by
  obtain ⟨front, -, detail, sourceLine, cause⟩ :=
    SourceFile.failure_of_read failed
  rw [cause, exclusion]
  exact ⟨_, rfl, rfl, rfl⟩

/-- The files that were visited, and nothing else, decide what is on record. -/
structure Record (sources : Sources) (past : List Text)
    (traversal : Traversal) : Prop where
  registry : traversal.registry = ofFiles (past.filterMap (readable? sources))
  errors : parseErrors traversal.diagnostics =
    past.filterMap (excluded? sources)

theorem record_start (sources : Sources) (entries : List Text) :
    Record sources [] (start sources entries) := by
  have silent := silent_foldl (silent_enter sources) entries
    { unseen := sources.paths }
  exact ⟨silent.registry, silent.errors⟩

theorem Record.visit {sources : Sources} {past : List Text}
    {traversal : Traversal} (record : Record sources past traversal)
    (path : Text) :
    Record sources (past ++ [path]) (traversal.visit sources path) := by
  cases read : SourceFile.read path (sources.text path) with
  | ok reading =>
      rw [Traversal.visit_of_read read]
      have files : (past ++ [path]).filterMap (readable? sources) =
          past.filterMap (readable? sources) ++ [reading.file] := by
        simp [readable?, read]
      have errors : (past ++ [path]).filterMap (excluded? sources) =
          past.filterMap (excluded? sources) := by
        simp [excluded?, read]
      constructor
      · rw [registry_commit, record.registry, files, ofFiles_concat]
      · rw [parseErrors_commit sources traversal
          (SourceFile.aboutComments_of_read read), record.errors, errors]
  | error failure =>
      rw [Traversal.visit_of_failed read]
      obtain ⟨diagnostic, excluded, code, -⟩ := exclusion_of_read read
      have files : (past ++ [path]).filterMap (readable? sources) =
          past.filterMap (readable? sources) := by
        simp [readable?, read]
      have errors : (past ++ [path]).filterMap (excluded? sources) =
          past.filterMap (excluded? sources) ++ [diagnostic] := by
        simp [excluded?, read, excluded]
      have found : parseErrors [diagnostic] = [diagnostic] := by
        simp [parseErrors, code]
      constructor
      · rw [files]
        exact record.registry
      · rw [excluded, Option.toList_some, parseErrors_append, found,
          record.errors, errors]

theorem Record.foldl_visit {sources : Sources} {past : List Text}
    {traversal : Traversal} (record : Record sources past traversal)
    (list : List Text) :
    Record sources (past ++ list)
      (list.foldl (Traversal.visit sources) traversal) := by
  induction list generalizing past traversal with
  | nil => rwa [List.append_nil]
  | cons path rest ih =>
      have later := ih (record.visit path)
      rwa [List.append_assoc, List.singleton_append] at later

theorem Record.wave {sources : Sources} {past : List Text}
    {traversal : Traversal} (record : Record sources past traversal) :
    Record sources (past ++ traversal.queue) (traversal.wave sources) := by
  have emptied : Record sources past { traversal with queue := [] } :=
    ⟨record.registry, record.errors⟩
  rw [wave_eq_foldl_visit]
  exact emptied.foldl_visit traversal.queue

/-! ## The whole run -/

theorem run_past {sources : Sources} {entries past : List Text}
    {traversal : Traversal} (search : Search sources entries past traversal)
    (record : Record sources past traversal) :
    (traversal.run sources).queue = [] ∧ ∃ order,
      Search sources entries order (traversal.run sources) ∧
        Record sources order (traversal.run sources) := by
  fun_induction run sources traversal generalizing past with
  | case1 traversal done => exact ⟨done, past, search, record⟩
  | case2 traversal waiting ih => exact ih search.wave record.wave

end Traversal

/-! ## Files and findings by path -/

section Keyed

variable {α : Type} {find : Text → Option α} {key : α → Text}

theorem filter_filterMap_of_not_mem
    (keyed : ∀ path a, find path = some a → key a = path) {order : List Text}
    {path : Text} (absent : path ∉ order) :
    (order.filterMap find).filter (key · == path) = [] := by
  rw [List.filter_eq_nil_iff]
  intro a member
  obtain ⟨other, inOrder, found⟩ := List.mem_filterMap.mp member
  rw [keyed other a found, beq_iff_eq]
  exact fun same => absent (same ▸ inOrder)

/-- What is found at a path of a list without repetitions is found once. -/
theorem filter_filterMap_of_mem
    (keyed : ∀ path a, find path = some a → key a = path) {order : List Text}
    (nodup : order.Nodup) {path : Text} (member : path ∈ order) :
    (order.filterMap find).filter (key · == path) = (find path).toList := by
  obtain ⟨front, back, rfl⟩ := List.append_of_mem member
  obtain ⟨-, behind, apart⟩ := List.nodup_append.mp nodup
  have notInFront : path ∉ front := fun inFront =>
    apart path inFront path List.mem_cons_self rfl
  have notInBack : path ∉ back := (List.nodup_cons.mp behind).1
  have here : ([path].filterMap find).filter (key · == path) =
      (find path).toList := by
    cases found : find path with
    | none => simp [found]
    | some a => simp [found, keyed path a found]
  rw [List.append_cons, List.filterMap_append, List.filterMap_append,
    List.filter_append, List.filter_append,
    filter_filterMap_of_not_mem keyed notInFront, here,
    filter_filterMap_of_not_mem keyed notInBack, List.nil_append,
    List.append_nil]

end Keyed

namespace Building

/-- The files with the given path. -/
def filesAt (building : Building) (path : Text) : List SourceFile :=
  building.registry.files.filter (·.id == path)

/-- The findings that the file with the given path cannot be read. -/
def parseErrorsAt (building : Building) (path : Text) : List Diagnostic :=
  building.diagnostics.filter fun diagnostic =>
    diagnostic.code == .parseError && diagnostic.location.file == path

/-- The file is there once, and nothing says that it cannot be read. -/
structure Includes (building : Building) (path : Text) (file : SourceFile) :
    Prop where
  once : building.filesAt path = [file]
  noError : building.parseErrorsAt path = []

/-- There is no file with this path, no name and no import comes from one, and
one finding says that it cannot be read. -/
structure Excludes (sources : Sources) (building : Building) (path : Text) :
    Prop where
  noFile : building.filesAt path = []
  noName : ∀ entry ∈ building.registry.names,
    (building.registry.files[entry.2.file]?).map (·.id) ≠ some path
  noImport : ∀ target, ¬ ∃ file ∈ building.registry.files,
    file.id = path ∧ file.Leads sources target
  oneError : ∃ diagnostic, building.parseErrorsAt path = [diagnostic]

theorem not_mem_of_filesAt {building : Building} {path : Text}
    (noFile : building.filesAt path = []) {file : SourceFile}
    (member : file ∈ building.registry.files) : file.id ≠ path := by
  intro same
  have kept : file ∈ building.filesAt path :=
    List.mem_filter.mpr ⟨member, by simp [same]⟩
  rw [noFile] at kept
  exact List.not_mem_nil kept

theorem excludes_of_filesAt {sources : Sources} {building : Building}
    {path : Text} (noFile : building.filesAt path = [])
    {diagnostic : Diagnostic}
    (oneError : building.parseErrorsAt path = [diagnostic]) :
    Excludes sources building path := by
  refine ⟨noFile, ?_, ?_, diagnostic, oneError⟩
  · intro entry _ same
    obtain ⟨file, at_place, isPath⟩ := Option.map_eq_some_iff.mp same
    exact not_mem_of_filesAt noFile (List.mem_of_getElem? at_place) isPath
  · rintro target ⟨file, member, isPath, -⟩
    exact not_mem_of_filesAt noFile member isPath

end Building

open Traversal

theorem id_of_readable? {sources : Sources} {path : Text} {file : SourceFile}
    (readable : readable? sources path = some file) : file.id = path := by
  rw [readable?] at readable
  split at readable
  · rename_i reading read
    rw [← Option.some.inj readable]
    exact SourceFile.id_of_read read
  · cases readable

theorem file_of_excluded? {sources : Sources} {path : Text}
    {diagnostic : Diagnostic}
    (excluded : excluded? sources path = some diagnostic) :
    diagnostic.location.file = path := by
  rw [excluded?] at excluded
  split at excluded
  · cases excluded
  · rename_i failure failed
    obtain ⟨other, exclusion, -, atPath⟩ := exclusion_of_read failed
    rw [exclusion] at excluded
    rwa [← Option.some.inj excluded]

/-- The files and findings of a building, given the order of the visits. -/
structure Visits (sources : Sources) (order : List Text) (building : Building) :
    Prop where
  nodup : order.Nodup
  registry : building.registry = ofFiles (order.filterMap (readable? sources))
  errors : parseErrors building.diagnostics =
    order.filterMap (excluded? sources)

namespace Visits

variable {sources : Sources} {order : List Text} {building : Building}

theorem filesAt_of_mem (visits : Visits sources order building) {path : Text}
    (member : path ∈ order) :
    building.filesAt path = (readable? sources path).toList := by
  rw [Building.filesAt, visits.registry, files_ofFiles]
  exact filter_filterMap_of_mem (fun _ _ => id_of_readable?) visits.nodup member

theorem filesAt_of_not_mem (visits : Visits sources order building)
    {path : Text} (absent : path ∉ order) : building.filesAt path = [] := by
  rw [Building.filesAt, visits.registry, files_ofFiles]
  exact filter_filterMap_of_not_mem (fun _ _ => id_of_readable?) absent

theorem parseErrorsAt_eq (visits : Visits sources order building)
    (path : Text) :
    building.parseErrorsAt path =
      (order.filterMap (excluded? sources)).filter
        (·.location.file == path) := by
  rw [← visits.errors, parseErrors, List.filter_filter, Building.parseErrorsAt]
  simp only [Bool.and_comm]

theorem parseErrorsAt_of_mem (visits : Visits sources order building)
    {path : Text} (member : path ∈ order) :
    building.parseErrorsAt path = (excluded? sources path).toList := by
  rw [visits.parseErrorsAt_eq]
  exact filter_filterMap_of_mem (fun _ _ => file_of_excluded?)
    visits.nodup member

theorem parseErrorsAt_of_not_mem (visits : Visits sources order building)
    {path : Text} (absent : path ∉ order) :
    building.parseErrorsAt path = [] := by
  rw [visits.parseErrorsAt_eq]
  exact filter_filterMap_of_not_mem (fun _ _ => file_of_excluded?) absent

theorem includes (visits : Visits sources order building) {path : Text}
    (member : path ∈ order) {reading : SourceFile.Reading}
    (read : SourceFile.read path (sources.text path) = .ok reading) :
    building.Includes path reading.file where
  once := by rw [visits.filesAt_of_mem member, readable?, read]; rfl
  noError := by rw [visits.parseErrorsAt_of_mem member, excluded?, read]; rfl

theorem excludes (visits : Visits sources order building) {path : Text}
    (member : path ∈ order) {failure : Failure}
    (failed : SourceFile.read path (sources.text path) = .error failure) :
    building.Excludes sources path := by
  obtain ⟨diagnostic, exclusion, -⟩ := exclusion_of_read failed
  have noFile : building.filesAt path = [] := by
    rw [visits.filesAt_of_mem member, readable?, failed]
    rfl
  have oneError : building.parseErrorsAt path = [diagnostic] := by
    rw [visits.parseErrorsAt_of_mem member, excluded?, failed]
    simp only [exclusion, Option.toList_some]
  exact Building.excludes_of_filesAt noFile oneError

end Visits

/-- The files that were visited are those that can be reached. -/
theorem exists_visits_build (sources : Sources) (entries : List Text) :
    ∃ order, Visits sources order (build sources entries) ∧
      ∀ path, path ∈ order ↔ Reached sources entries path := by
  obtain ⟨done, order, search, record⟩ :=
    run_past (search_start sources entries) (record_start sources entries)
  have nodup := search.frontier.nodup
  rw [done, List.append_nil] at nodup
  exact ⟨order, ⟨nodup, record.registry, record.errors⟩,
    search.mem_iff_reached done⟩

/-- What can be reached is what the search has named in the end. -/
theorem reached_iff_named (sources : Sources) (entries : List Text)
    (path : Text) :
    Reached sources entries path ↔
      (sources.contains path &&
        !((start sources entries).run sources).unseen.contains path) =
          true := by
  obtain ⟨done, order, search, -⟩ :=
    run_past (search_start sources entries) (record_start sources entries)
  have visited := search.mem_iff_reached done path
  have unseen := search.frontier.unseen path
  rw [done, List.append_nil] at unseen
  rw [Bool.and_eq_true, Bool.not_eq_true', Bool.eq_false_iff, Ne,
    List.contains_iff_mem, unseen, not_and, Decidable.not_not, visited]
  constructor
  · intro reached
    exact ⟨reached.present, fun _ => reached⟩
  · rintro ⟨present, reached⟩
    exact reached present

instance (sources : Sources) (entries : List Text) (path : Text) :
    Decidable (Reached sources entries path) :=
  decidable_of_iff _ (reached_iff_named sources entries path).symm

/-- Building comes to an end and has
then seen exactly the paths that can be reached.  Of these, a file that can be
read is in the registry once; a file that cannot be read is left out, with one
finding that says so.  Of other paths there is nothing, and all names stand for
declarations in files of the registry. -/
theorem build_reached (sources : Sources) (entries : List Text) :
    buildUnless false sources entries = .ok (build sources entries) ∧
    ((start sources entries).run sources).queue = [] ∧
    (∀ path, Reached sources entries path ↔
      sources.contains path = true ∧
      path ∉ ((start sources entries).run sources).unseen) ∧
    (∀ path reading, Reached sources entries path →
      SourceFile.read path (sources.text path) = .ok reading →
      (build sources entries).Includes path reading.file) ∧
    (∀ path failure, Reached sources entries path →
      SourceFile.read path (sources.text path) = .error failure →
      (build sources entries).Excludes sources path) ∧
    (∀ path, ¬ Reached sources entries path →
      (build sources entries).filesAt path = [] ∧
        (build sources entries).parseErrorsAt path = []) ∧
    (build sources entries).registry.Grounded := by
  obtain ⟨done, order, search, record⟩ :=
    run_past (search_start sources entries) (record_start sources entries)
  have visited := search.mem_iff_reached done
  have unseen := search.frontier.unseen
  have nodup := search.frontier.nodup
  rw [done, List.append_nil] at unseen nodup
  have visits : Visits sources order (build sources entries) :=
    ⟨nodup, record.registry, record.errors⟩
  refine ⟨rfl, done, ?_, ?_, ?_, ?_, ?_⟩
  · intro path
    constructor
    · intro reached
      have member := (visited path).mpr reached
      exact ⟨reached.present, fun still => ((unseen path).mp still).2 member⟩
    · rintro ⟨present, seen⟩
      rw [unseen] at seen
      rw [← visited]
      exact Decidable.not_not.mp fun absent => seen ⟨present, absent⟩
  · intro path reading reached read
    exact visits.includes ((visited path).mpr reached) read
  · intro path failure reached failed
    exact visits.excludes ((visited path).mpr reached) failed
  · intro path unreached
    have absent : path ∉ order :=
      fun member => unreached ((visited path).mp member)
    exact ⟨visits.filesAt_of_not_mem absent,
      visits.parseErrorsAt_of_not_mem absent⟩
  · rw [visits.registry]
    exact grounded_ofFiles _

/-- Two files that import each other, a malformed file that one of them imports,
and a file that only the malformed one imports. -/
def circle : Sources :=
  [("a".toList, "@import 'b', 'c';".toList),
    ("b".toList, "@import 'a'; .c-b \x7b\x7d".toList),
    ("c".toList, "@import 'd'; \x7d".toList),
    ("d".toList, ".c-d \x7b\x7d".toList)]

theorem build_reached_circle :
    (Reached circle ["a".toList] "b".toList ∧
      Reached circle ["a".toList] "c".toList ∧
      ¬ Reached circle ["a".toList] "d".toList) ∧
    (∃ file, (build circle ["a".toList]).Includes "b".toList file) ∧
    (build circle ["a".toList]).Excludes circle "c".toList ∧
    (build circle ["a".toList]).filesAt "d".toList = [] := by
  obtain ⟨-, -, seen, included, excluded, outside, -⟩ :=
    build_reached circle ["a".toList]
  have reachedB : Reached circle ["a".toList] "b".toList := by
    rw [seen]
    decide +kernel
  have reachedC : Reached circle ["a".toList] "c".toList := by
    rw [seen]
    decide +kernel
  have unreachedD : ¬ Reached circle ["a".toList] "d".toList := by
    rw [seen]
    decide +kernel
  refine ⟨⟨reachedB, reachedC, unreachedD⟩, ?_, ?_, (outside _ unreachedD).1⟩
  · cases read : SourceFile.read "b".toList (circle.text "b".toList) with
    | ok reading => exact ⟨reading.file, included _ reading reachedB read⟩
    | error failure =>
        have readable :
            (SourceFile.read "b".toList (circle.text "b".toList)).isOk =
              true := by
          decide +kernel
        rw [read] at readable
        cases readable
  · cases read : SourceFile.read "c".toList (circle.text "c".toList) with
    | ok reading =>
        have broken :
            (SourceFile.read "c".toList (circle.text "c".toList)).isOk =
              false := by
          decide +kernel
        rw [read] at broken
        cases broken
    | error failure => exact excluded _ failure reachedC read

end Registry

end StyleAudit
