import StyleAudit.Registry.Build

/-!
# Following imports finds what can be reached

A step of the search names some paths, and `Names` says which.  What a run of
steps names is the union over the steps, so a wave names what its files import.
When no file is waiting any more, the files that were visited are the entries
and whatever can be reached from them through files that can be read.
-/

namespace StyleAudit

/-- An import of the file that is to be followed leads to `target`. -/
def SourceFile.Leads (sources : Sources) (file : SourceFile) (target : Text) :
    Prop :=
  ∃ reference ∈ file.imports, reference.plainCss = false ∧
    Text.beginsWith "sass:".toList reference.target = false ∧
    sources.resolve? file.id reference.target = some target

namespace Registry

/-- The file at `path` can be read, and one of its imports leads to `target`. -/
def Imports (sources : Sources) (path target : Text) : Prop :=
  ∃ reading, SourceFile.read path (sources.text path) = .ok reading ∧
    reading.file.Leads sources target

/-- The least set of paths that holds the entries among the sources, and what
its readable members import. -/
inductive Reached (sources : Sources) (entries : List Text) : Text → Prop where
  | entry {path : Text} (listed : path ∈ entries)
    (present : sources.contains path = true) :
      Reached sources entries path
  | imported {path target : Text} (reached : Reached sources entries path)
      (imports : Imports sources path target) : Reached sources entries target

theorem Imports.present {sources : Sources} {path target : Text}
    (imports : Imports sources path target) :
    sources.contains target = true := by
  obtain ⟨reading, -, reference, -, -, -, resolved⟩ := imports
  exact List.find?_some resolved

theorem Reached.present {sources : Sources} {entries : List Text} {path : Text}
    (reached : Reached sources entries path) :
    sources.contains path = true := by
  cases reached with
  | entry _ present => exact present
  | imported _ imports => exact imports.present

namespace Traversal

/-! ## The search -/

section Search

variable {sources : Sources} {past : List Text}

/-- The sources are divided into those not seen yet and those that are waiting
or past, and each of the latter stands there once. -/
structure Frontier (sources : Sources) (past : List Text)
    (traversal : Traversal) : Prop where
  nodup : (past ++ traversal.queue).Nodup
  unseen : ∀ path, path ∈ traversal.unseen ↔
    sources.contains path = true ∧ path ∉ past ++ traversal.queue

/-- A step names exactly the given paths. -/
def Names (sources : Sources) (past : List Text) (before after : Traversal)
    (named : Text → Prop) : Prop :=
  Frontier sources past before →
    Frontier sources past after ∧
      ∀ path, path ∈ past ++ after.queue ↔ path ∈ past ++ before.queue ∨
        named path

theorem Names.trans {first second third : Traversal} {early late : Text → Prop}
    (begun : Names sources past first second early)
    (ended : Names sources past second third late) :
    Names sources past first third fun path => early path ∨ late path := by
  intro frontier
  obtain ⟨between, earlyNamed⟩ := begun frontier
  obtain ⟨after, lateNamed⟩ := ended between
  exact ⟨after, fun path => by rw [lateNamed, earlyNamed, or_assoc]⟩

theorem Names.of_iff {before after : Traversal} {named other : Text → Prop}
    (names : Names sources past before after named)
    (same : ∀ path, named path ↔ other path) :
    Names sources past before after other := by
  intro frontier
  obtain ⟨kept, exact⟩ := names frontier
  exact ⟨kept, fun path => by rw [exact, same]⟩

theorem names_nothing {before after : Traversal} {named : Text → Prop}
    (sameUnseen : after.unseen = before.unseen)
    (sameQueue : after.queue = before.queue) (nothing : ∀ path, ¬ named path) :
    Names sources past before after named := by
  intro frontier
  refine ⟨⟨?_, ?_⟩, ?_⟩
  · rw [sameQueue]
    exact frontier.nodup
  · rw [sameUnseen, sameQueue]
    exact frontier.unseen
  · intro path
    rw [sameQueue, or_iff_left (nothing path)]

theorem names_foldl {α : Type} {step : Traversal → α → Traversal}
    {finds : α → Text → Prop}
    (each : ∀ traversal a,
      Names sources past traversal (step traversal a) (finds a))
    (list : List α) (traversal : Traversal) :
    Names sources past traversal (list.foldl step traversal)
      fun path => ∃ a ∈ list, finds a path := by
  induction list generalizing traversal with
  | nil => exact names_nothing rfl rfl (by simp)
  | cons a rest ih =>
      exact ((each traversal a).trans (ih (step traversal a))).of_iff (by simp)

theorem names_discover {path : Text} (present : sources.contains path = true)
    (traversal : Traversal) :
    Names sources past traversal (traversal.discover path) (· = path) := by
  intro frontier
  by_cases unseen : path ∈ traversal.unseen
  · have fresh := ((frontier.unseen path).mp unseen).2
    have found : traversal.unseen.contains path = true :=
      List.contains_iff_mem.mpr unseen
    have grown : past ++ (traversal.queue ++ [path]) =
        (past ++ traversal.queue) ++ [path] :=
      (List.append_assoc past traversal.queue [path]).symm
    rw [discover, if_pos found]
    refine ⟨⟨?_, ?_⟩, ?_⟩
    · rw [grown, List.nodup_append]
      refine ⟨frontier.nodup, by simp, ?_⟩
      intro earlier inEarlier other inOther same
      rw [same, List.mem_singleton.mp inOther] at inEarlier
      exact fresh inEarlier
    · intro other
      rw [grown, List.mem_filter, frontier.unseen]
      simp [and_assoc]
    · intro other
      rw [grown, List.mem_append, List.mem_singleton]
  · have missing : ¬ traversal.unseen.contains path = true := by
      simpa using unseen
    have known : path ∈ past ++ traversal.queue := by
      rw [frontier.unseen] at unseen
      exact Decidable.not_not.mp fun fresh => unseen ⟨present, fresh⟩
    rw [discover, if_neg missing]
    refine ⟨frontier, fun other => ?_⟩
    constructor
    · exact .inl
    · rintro (earlier | rfl)
      · exact earlier
      · exact known

theorem names_enter (entry : Text) (traversal : Traversal) :
    Names sources past traversal (enter sources traversal entry)
      fun path => path = entry ∧ sources.contains path = true := by
  rw [enter]
  split
  · rename_i present
    refine (names_discover present traversal).of_iff fun path => ?_
    constructor
    · rintro rfl
      exact ⟨rfl, present⟩
    · exact And.left
  · rename_i absent
    refine names_nothing rfl rfl ?_
    rintro path ⟨rfl, present⟩
    exact absent present

theorem names_follow (file : SourceFile) (reference : ImportReference)
    (traversal : Traversal) :
    Names sources past traversal (follow sources file traversal reference)
      fun path =>
      reference.plainCss = false ∧
      Text.beginsWith "sass:".toList reference.target = false ∧
        sources.resolve? file.id reference.target = some path := by
  rw [follow]
  split
  · rename_i followed
    have goesOn : reference.plainCss = false ∧
        Text.beginsWith "sass:".toList reference.target = false := by
      rwa [isFollowed, Bool.and_eq_true, Bool.not_eq_true', Bool.not_eq_true']
        at followed
    split
    · rename_i target resolved
      refine (names_discover (List.find?_some resolved) traversal).of_iff
        fun path => ?_
      rw [resolved]
      constructor
      · rintro rfl
        exact ⟨goesOn.1, goesOn.2, rfl⟩
      · rintro ⟨-, -, same⟩
        exact (Option.some.inj same).symm
    · rename_i unresolved
      refine names_nothing rfl rfl ?_
      simp [unresolved]
  · rename_i passed
    refine names_nothing rfl rfl ?_
    rintro path ⟨notPlain, notBuiltIn, -⟩
    exact passed (by rw [isFollowed, notPlain, notBuiltIn]; rfl)

theorem names_commit (reading : SourceFile.Reading) (traversal : Traversal) :
    Names sources past traversal (traversal.commit sources reading)
      (reading.file.Leads sources) := by
  let noted :=
    { traversal with
      diagnostics := traversal.diagnostics ++ reading.diagnostics }
  have begun : Names sources past traversal noted fun _ => False :=
    names_nothing rfl rfl fun _ => id
  have followed : Names sources past noted
      (reading.file.imports.foldl (follow sources reading.file) noted)
      (reading.file.Leads sources) :=
    names_foldl
      (fun traversal reference => names_follow reading.file reference traversal)
      reading.file.imports noted
  have indexed : Names sources past
      (reading.file.imports.foldl (follow sources reading.file) noted)
      (traversal.commit sources reading) fun _ => False :=
    names_nothing rfl rfl fun _ => id
  exact (begun.trans (followed.trans indexed)).of_iff fun target => by
    rw [false_or, or_false]

/-- Reads a file and settles the result at once. -/
def visit (sources : Sources) (traversal : Traversal) (path : Text) :
    Traversal :=
  traversal.settle sources (path, SourceFile.read path (sources.text path))

theorem visit_of_read {sources : Sources} {path : Text}
    {reading : SourceFile.Reading}
    (read : SourceFile.read path (sources.text path) = .ok reading)
    (traversal : Traversal) :
    traversal.visit sources path = traversal.commit sources reading := by
  rw [visit, settle, read]

theorem visit_of_failed {sources : Sources} {path : Text} {failure : Failure}
    (failed : SourceFile.read path (sources.text path) = .error failure)
    (traversal : Traversal) :
    traversal.visit sources path = { traversal with
      diagnostics := traversal.diagnostics ++
        (exclusion path (sources.text path) failure.cause).toList } := by
  rw [visit, settle, failed]

/-- Reading does not depend on what is settled, so each file of a wave may as
well be settled as soon as it is read. -/
theorem wave_eq_foldl_visit (sources : Sources) (traversal : Traversal) :
    traversal.wave sources =
      traversal.queue.foldl (visit sources) { traversal with queue := [] } := by
  rw [wave, ← List.map_prod_left_eq_zip, List.foldl_map]
  rfl

private theorem names_visit (path : Text) (traversal : Traversal) :
    Names sources past traversal (visit sources traversal path)
      (Imports sources path) := by
  cases read : SourceFile.read path (sources.text path) with
  | ok reading =>
      rw [visit_of_read read]
      refine (names_commit reading traversal).of_iff fun target => ?_
      constructor
      · intro leads
        exact ⟨reading, read, leads⟩
      · rintro ⟨other, same, leads⟩
        rw [read] at same
        rwa [Except.ok.inj same]
  | error failure =>
      rw [visit_of_failed read]
      refine names_nothing rfl rfl ?_
      rintro target ⟨reading, same, -⟩
      rw [read] at same
      cases same

theorem names_wave_step {traversal : Traversal}
    (frontier : Frontier sources past traversal) :
    Frontier sources (past ++ traversal.queue) (traversal.wave sources) ∧
      ∀ path, path ∈ past ++ traversal.queue ++ (traversal.wave sources).queue ↔
        path ∈ past ++ traversal.queue ∨ ∃ visited ∈ traversal.queue,
          Imports sources visited path := by
  have emptied : Frontier sources (past ++ traversal.queue)
      { traversal with queue := [] } := by
    constructor
    · rw [List.append_nil]
      exact frontier.nodup
    · rw [List.append_nil]
      exact frontier.unseen
  have visited := names_foldl (fun traversal path => names_visit path traversal)
    traversal.queue { traversal with queue := [] } emptied
  rwa [List.append_nil, ← wave_eq_foldl_visit] at visited

/-- The state of the search between two waves. -/
structure Search (sources : Sources) (entries past : List Text)
    (traversal : Traversal) :
    Prop where
  frontier : Frontier sources past traversal
  sound : ∀ path ∈ past ++ traversal.queue, Reached sources entries path
  entered : ∀ path ∈ entries, sources.contains path = true →
    path ∈ past ++ traversal.queue
  closed : ∀ path ∈ past, ∀ target, Imports sources path target →
    target ∈ past ++ traversal.queue

theorem search_start (sources : Sources) (entries : List Text) :
    Search sources entries [] (start sources entries) := by
  have initial : Frontier sources [] { unseen := sources.paths } := by
    constructor
    · exact List.nodup_nil
    · intro path
      simp [Sources.contains]
  obtain ⟨frontier, named⟩ :=
    names_foldl (fun traversal entry => names_enter entry traversal) entries
      { unseen := sources.paths } initial
  refine ⟨frontier, ?_, ?_, nofun⟩
  · intro path member
    rcases (named path).mp member with nothing | ⟨entry, listed, rfl, present⟩
    · exact (List.not_mem_nil nothing).elim
    · exact .entry listed present
  · intro path listed present
    exact (named path).mpr (.inr ⟨path, listed, rfl, present⟩)

theorem Search.wave {entries : List Text} {traversal : Traversal}
    (search : Search sources entries past traversal) :
    Search sources entries (past ++ traversal.queue)
      (traversal.wave sources) := by
  obtain ⟨frontier, named⟩ := names_wave_step search.frontier
  refine ⟨frontier, ?_, ?_, ?_⟩
  · intro path member
    rcases (named path).mp member with earlier | ⟨visited, waiting, imports⟩
    · exact search.sound path earlier
    · exact .imported
        (search.sound visited (List.mem_append_right past waiting)) imports
  · intro path listed present
    exact (named path).mpr (.inl (search.entered path listed present))
  · intro path member target imports
    rw [named]
    rcases List.mem_append.mp member with before | waiting
    · exact .inl (search.closed path before target imports)
    · exact .inr ⟨path, waiting, imports⟩

/-- When nothing is waiting, the past is what can be reached. -/
theorem Search.mem_iff_reached {entries : List Text} {traversal : Traversal}
    (search : Search sources entries past traversal)
    (done : traversal.queue = []) (path : Text) :
    path ∈ past ↔ Reached sources entries path := by
  constructor
  · intro member
    exact search.sound path (List.mem_append_left traversal.queue member)
  · intro reached
    obtain ⟨-, -, entered, closed⟩ := search
    rw [done, List.append_nil] at entered closed
    induction reached with
    | entry listed present => exact entered _ listed present
    | imported _ imports ih => exact closed _ ih _ imports

end Search

end Traversal

end Registry

end StyleAudit
