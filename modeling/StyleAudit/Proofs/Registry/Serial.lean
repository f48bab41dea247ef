import StyleAudit.Proofs.Registry.Findings

/-!
# Waves do what a queue does

Building follows imports in waves.  Here files are taken from a queue one at a
time instead, and what has been named is kept as the list of names that it is.
A file that leaves the queue only adds to the end of it, so it makes no
difference to what it adds which files still wait; taking in the files of a wave
one by one therefore leaves the next wave in the queue.
-/

namespace StyleAudit

namespace Registry

/-- What is known in the middle of taking files from a queue. -/
structure Serial where
  registry : Registry := {}
  diagnostics : List Diagnostic := []
  /-- The files named so far, those that wait included. -/
  visited : List Text := []
  /-- The files that wait, the oldest first. -/
  queue : List Text := []
deriving DecidableEq, Repr

namespace Serial

open Traversal (isFollowed importFindings entryFindings clashFindings exclusion)

/-- The paths of a list that are named for the first time, in order. -/
def fresh (visited : List Text) : List Text → List Text
  | [] => []
  | path :: rest =>
    if visited.contains path then fresh visited rest
    else path :: fresh (visited ++ [path]) rest

/-- The source that an import of a file leads to, if it is to be followed. -/
def target? (sources : Sources) (file : SourceFile)
    (reference : ImportReference) : Option Text :=
  if isFollowed reference then sources.resolve? file.id reference.target
  else none

/-- The sources that the imports of a file lead to, in order. -/
def targets (sources : Sources) (file : SourceFile) : List Text :=
  file.imports.filterMap (target? sources file)

/-- Takes in the file at a path that has left the queue.  If it can be read, its
findings are added, the sources that it names for the first time go to the end
of the queue, and its declarations are indexed. -/
def visit (sources : Sources) (state : Serial) (path : Text) : Serial :=
  match SourceFile.read path (sources.text path) with
  | .ok reading =>
    let found := fresh state.visited (targets sources reading.file)
    { registry := state.registry.insert reading.file,
      diagnostics := state.diagnostics ++ (reading.diagnostics ++
        (reading.file.imports.flatMap (importFindings sources reading.file) ++
          clashFindings state.registry reading.file)),
      visited := state.visited ++ found,
      queue := state.queue ++ found }
  | .error failure =>
    { state with
      diagnostics := state.diagnostics ++
        (exclusion path (sources.text path) failure.cause).toList }

/-! ## The queue runs empty -/

/-- The sources that have not been named yet. -/
def remaining (sources : Sources) (visited : List Text) : List Text :=
  sources.paths.filter (!visited.contains ·)

/-- The number of files that are still to leave the queue, at most. -/
def size (sources : Sources) (state : Serial) : Nat :=
  (remaining sources state.visited).length + state.queue.length

theorem remaining_concat (sources : Sources) (visited : List Text)
    (path : Text) :
    remaining sources (visited ++ [path]) =
      (remaining sources visited).filter (· != path) := by
  rw [remaining, remaining, List.filter_filter]
  apply List.filter_congr
  intro other _
  by_cases same : other = path <;> simp [same]

private theorem length_remaining_concat_lt {sources : Sources}
    {visited : List Text} {path : Text} (present : path ∈ sources.paths)
    (new : path ∉ visited) :
    (remaining sources (visited ++ [path])).length <
      (remaining sources visited).length := by
  rw [remaining_concat, List.length_filter_lt_length_iff_exists]
  have unseen : path ∈ remaining sources visited :=
    List.mem_filter.mpr ⟨present, by simpa using new⟩
  exact ⟨path, unseen, by simp⟩

theorem length_remaining_fresh_le {sources : Sources} {paths : List Text}
    (present : ∀ path ∈ paths, path ∈ sources.paths) (visited : List Text) :
    (remaining sources (visited ++ fresh visited paths)).length +
      (fresh visited paths).length ≤ (remaining sources visited).length := by
  fun_induction fresh visited paths with
  | case1 visited => simp
  | case2 visited path rest seen ih =>
      exact ih fun other member =>
        present other (List.mem_cons_of_mem path member)
  | case3 visited path rest new ih =>
      have later :=
        ih fun other member => present other (List.mem_cons_of_mem path member)
      have less := length_remaining_concat_lt (present path List.mem_cons_self)
        (mt List.contains_iff_mem.mpr new)
      rw [List.append_cons, List.length_cons]
      omega

theorem mem_paths_of_target? {sources : Sources} {file : SourceFile}
    {reference : ImportReference} {path : Text}
    (leads : target? sources file reference = some path) :
    path ∈ sources.paths := by
  rw [target?] at leads
  split at leads
  · exact List.contains_iff_mem.mp (List.find?_some leads)
  · cases leads

private theorem mem_paths_of_mem_targets {sources : Sources} {file : SourceFile}
    {path : Text} (member : path ∈ targets sources file) :
    path ∈ sources.paths := by
  obtain ⟨reference, -, leads⟩ := List.mem_filterMap.mp member
  exact mem_paths_of_target? leads

private theorem size_visit_le (sources : Sources) (state : Serial)
    (path : Text) :
    (state.visit sources path).size sources ≤ state.size sources := by
  rw [visit]
  split
  · rename_i reading _
    have named : ∀ target ∈ targets sources reading.file,
        target ∈ sources.paths :=
      fun target member => mem_paths_of_mem_targets member
    have less := length_remaining_fresh_le named state.visited
    simp only [size, List.length_append]
    omega
  · exact Nat.le_refl _

/-- Takes files from the front of the queue until none waits. -/
def run (sources : Sources) : Serial → Serial
  | ⟨registry, diagnostics, visited, []⟩ => ⟨registry, diagnostics, visited, []⟩
  | ⟨registry, diagnostics, visited, path :: rest⟩ =>
    run sources (visit sources ⟨registry, diagnostics, visited, rest⟩ path)
termination_by state => state.size sources
decreasing_by
  have less := size_visit_le sources ⟨registry, diagnostics, visited, rest⟩ path
  simp only [size, List.length_cons] at less ⊢
  omega

/-- The entry files in a queue, each once, and what is found about the
others. -/
def start (sources : Sources) (entries : List Text) : Serial where
  diagnostics := entries.flatMap (entryFindings sources)
  visited := fresh [] (entries.filter sources.contains)
  queue := fresh [] (entries.filter sources.contains)

/-- Builds a registry one file at a time. -/
def build (sources : Sources) (entries : List Text) : Building :=
  let finished := (start sources entries).run sources
  ⟨finished.registry, finished.diagnostics⟩

/-! ## One file after another -/

theorem run_of_empty {sources : Sources} {state : Serial}
    (done : state.queue = []) :
    state.run sources = state := by
  obtain ⟨registry, diagnostics, visited, queue⟩ := state
  obtain rfl : queue = [] := done
  rw [run]

private theorem run_of_waiting {sources : Sources} {state : Serial}
    {path : Text} {rest : List Text} (waiting : state.queue = path :: rest) :
    state.run sources =
      run sources ({ state with queue := rest }.visit sources path) := by
  obtain ⟨registry, diagnostics, visited, queue⟩ := state
  obtain rfl : queue = path :: rest := waiting
  rw [run]

/-- A visit does not look at the files that wait; they stay in front of those
that it adds. -/
theorem visit_behind (sources : Sources) (state : Serial) (front : List Text)
    (path : Text) :
    { state with queue := front ++ state.queue }.visit sources path =
      { state.visit sources path with
        queue := front ++ (state.visit sources path).queue } := by
  unfold visit
  split
  · simp only [List.append_assoc]
  · rfl

/-- The files at the front of the queue can be taken in first, in their order,
before looking at the queue again.  The induction is on these files; the frame
lemma moves the others past each visit. -/
theorem run_foldl_visit (sources : Sources) {front back : List Text}
    {state : Serial} (waiting : state.queue = front ++ back) :
    state.run sources =
      run sources
        (front.foldl (visit sources) { state with queue := back }) := by
  induction front generalizing back state with
  | nil =>
      rw [List.foldl_nil, ← List.nil_append back, ← waiting]
  | cons path rest ih =>
      rw [List.cons_append] at waiting
      have moved := visit_behind sources { state with queue := back } rest path
      rw [run_of_waiting waiting, moved, ih rfl, List.foldl_cons]

/-! ## Naming files -/

theorem fresh_append (visited left right : List Text) :
    fresh visited (left ++ right) =
      fresh visited left ++ fresh (visited ++ fresh visited left) right := by
  fun_induction fresh visited left with
  | case1 visited => rw [List.nil_append, List.nil_append, List.append_nil]
  | case2 visited path rest seen ih =>
      rw [List.cons_append, fresh, if_pos seen, ih]
  | case3 visited path rest new ih =>
      rw [List.cons_append, fresh, if_neg new, ih, List.cons_append,
        List.append_cons visited path (fresh _ rest)]

/-- A step of the waves names the given paths: those that are new leave the
sources not yet seen and go to the next wave. -/
def Names (sources : Sources) (before after : Traversal) (paths : List Text) :
    Prop :=
  ∀ visited, before.unseen = remaining sources visited →
    after.unseen = remaining sources (visited ++ fresh visited paths) ∧
      after.queue = before.queue ++ fresh visited paths

section Naming

variable {sources : Sources}

theorem names_nothing {before after : Traversal}
    (sameUnseen : after.unseen = before.unseen)
    (sameQueue : after.queue = before.queue) :
    Names sources before after [] := by
  intro visited unseen
  rw [fresh, List.append_nil, List.append_nil, sameUnseen, sameQueue]
  exact ⟨unseen, rfl⟩

theorem Names.trans {first second third : Traversal} {early late : List Text}
    (begun : Names sources first second early)
    (ended : Names sources second third late) :
    Names sources first third (early ++ late) := by
  intro visited unseen
  obtain ⟨between, earlyQueue⟩ := begun visited unseen
  obtain ⟨after, lateQueue⟩ := ended _ between
  rw [fresh_append, ← List.append_assoc, ← List.append_assoc, after,
    lateQueue, earlyQueue]
  exact ⟨rfl, rfl⟩

theorem names_foldl {α : Type} {step : Traversal → α → Traversal}
    {target : α → Option Text}
    (each : ∀ traversal a,
      Names sources traversal (step traversal a) (target a).toList)
    (list : List α) (traversal : Traversal) :
    Names sources traversal (list.foldl step traversal)
      (list.filterMap target) := by
  induction list generalizing traversal with
  | nil => exact names_nothing rfl rfl
  | cons a rest ih =>
      have both := (each traversal a).trans (ih (step traversal a))
      have split : (a :: rest).filterMap target =
          (target a).toList ++ rest.filterMap target := by
        cases found : target a <;> simp [found]
      rw [split]
      exact both

theorem names_discover {path : Text} (present : path ∈ sources.paths)
    (traversal : Traversal) :
    Names sources traversal (traversal.discover path) [path] := by
  intro visited unseen
  have known : traversal.unseen.contains path = true ↔
      ¬ visited.contains path = true := by
    rw [unseen, List.contains_iff_mem, remaining, List.mem_filter,
      Bool.not_eq_true, Bool.not_eq_true']
    exact and_iff_right present
  rw [Traversal.discover]
  by_cases seen : visited.contains path = true
  · rw [if_neg fun new => known.mp new seen, fresh, if_pos seen, fresh,
      List.append_nil, List.append_nil]
    exact ⟨unseen, rfl⟩
  · rw [if_pos (known.mpr seen), fresh, if_neg seen, fresh,
      remaining_concat, ← unseen]
    exact ⟨rfl, rfl⟩

theorem names_enter (traversal : Traversal) (entry : Text) :
    Names sources traversal (Traversal.enter sources traversal entry)
      (if sources.contains entry then some entry else none).toList := by
  rw [Traversal.enter]
  split
  · rename_i present
    exact names_discover (List.contains_iff_mem.mp present) traversal
  · exact names_nothing rfl rfl

theorem names_follow (file : SourceFile) (traversal : Traversal)
    (reference : ImportReference) :
    Names sources traversal (Traversal.follow sources file traversal reference)
      (target? sources file reference).toList := by
  have leads : ∀ path, target? sources file reference = some path →
      path ∈ sources.paths :=
    fun path => mem_paths_of_target?
  rw [Traversal.follow]
  rw [target?] at leads ⊢
  split
  · rename_i followed
    rw [if_pos followed] at leads
    split
    · rename_i path resolved
      rw [resolved]
      exact names_discover (leads path resolved) traversal
    · rename_i unresolved
      rw [unresolved]
      exact names_nothing rfl rfl
  · exact names_nothing rfl rfl

theorem names_commit (traversal : Traversal) (reading : SourceFile.Reading) :
    Names sources traversal (traversal.commit sources reading)
      (targets sources reading.file) :=
  names_foldl (names_follow reading.file) reading.file.imports
    { traversal with
      diagnostics := traversal.diagnostics ++ reading.diagnostics }

end Naming

/-! ## Waves and the queue agree -/

/-- The waves and the queue know the same. -/
structure Agrees (sources : Sources) (traversal : Traversal) (state : Serial) :
    Prop where
  registry : traversal.registry = state.registry
  diagnostics : traversal.diagnostics = state.diagnostics
  unseen : traversal.unseen = remaining sources state.visited
  queue : traversal.queue = state.queue

section Agreement

variable {sources : Sources} {traversal : Traversal} {state : Serial}

theorem agrees_start (sources : Sources) (entries : List Text) :
    Agrees sources (Traversal.start sources entries)
      (start sources entries) := by
  have kept : entries.filterMap
      (fun entry => if sources.contains entry then some entry else none) =
        entries.filter sources.contains := by
    rw [← List.filterMap_eq_filter]
    rfl
  have named : Names sources
      { unseen := sources.paths } (Traversal.start sources entries) _ :=
    names_foldl names_enter entries { unseen := sources.paths }
  have all : sources.paths = remaining sources [] :=
    (List.filter_eq_self.mpr fun _ _ => rfl).symm
  rw [kept] at named
  obtain ⟨unseen, queue⟩ := named [] all
  exact ⟨Traversal.registry_start sources entries,
    Traversal.diagnostics_start sources entries, unseen, queue⟩

theorem Agrees.visit (agrees : Agrees sources traversal state) (path : Text) :
    Agrees sources (traversal.visit sources path)
      (state.visit sources path) := by
  rw [Traversal.visit, Traversal.settle, Serial.visit]
  cases SourceFile.read path (sources.text path) with
  | ok reading =>
      obtain ⟨unseen, queue⟩ :=
        names_commit traversal reading state.visited agrees.unseen
      constructor
      · rw [Traversal.registry_commit, agrees.registry]
      · rw [Traversal.diagnostics_commit, agrees.diagnostics, agrees.registry]
      · exact unseen
      · rw [queue, agrees.queue]
  | error failure =>
      exact ⟨agrees.registry, congrArg (· ++ _) agrees.diagnostics,
        agrees.unseen, agrees.queue⟩

theorem Agrees.foldl_visit (agrees : Agrees sources traversal state)
    (paths : List Text) :
    Agrees sources (paths.foldl (Traversal.visit sources) traversal)
      (paths.foldl (Serial.visit sources) state) := by
  induction paths generalizing traversal state with
  | nil => exact agrees
  | cons path rest ih => exact ih (agrees.visit path)

theorem Agrees.run (agrees : Agrees sources traversal state) :
    Agrees sources (traversal.run sources) (state.run sources) := by
  fun_induction Traversal.run sources traversal generalizing state with
  | case1 traversal done =>
      rw [run_of_empty (agrees.queue.symm.trans done)]
      exact agrees
  | case2 traversal waiting ih =>
      have emptied : Agrees sources { traversal with queue := [] }
          { state with queue := [] } :=
        ⟨agrees.registry, agrees.diagnostics, agrees.unseen, rfl⟩
      have wave := emptied.foldl_visit traversal.queue
      have whole : state.queue = traversal.queue ++ [] := by
        rw [agrees.queue, List.append_nil]
      rw [run_foldl_visit sources whole]
      rw [← Traversal.wave_eq_foldl_visit] at wave
      exact ih wave

end Agreement

end Serial

theorem build_eq_serial_build (sources : Sources) (entries : List Text) :
    build sources entries = Serial.build sources entries := by
  have agrees := (Serial.agrees_start sources entries).run
  rw [build, Serial.build, agrees.registry, agrees.diagnostics]

/-- Following imports in waves is following them one file at a time.  Unless the
run is cancelled, the registry and the findings, in their order, are those of
taking the oldest waiting file from a queue until none waits. -/
theorem build_eq_serial (sources : Sources) (entries : List Text) :
    buildUnless false sources entries = .ok (Serial.build sources entries) := by
  rw [← build_eq_serial_build]
  rfl

end Registry

end StyleAudit
