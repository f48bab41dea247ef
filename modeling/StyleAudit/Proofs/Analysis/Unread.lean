import StyleAudit.Analysis
import StyleAudit.Proofs.Registry.Serial

/-!
# What is not read does not matter

An analysis asks for the texts of the files that it visits; of the others it
wants to know no more than that they are there.  Which files are visited depends
on the texts in turn.  So two projects are followed side by side: as long as
they have done the same, the next file is one that can be reached in the first
of them, and what it says is the same in both.
-/

namespace StyleAudit

open Registry (Reached)

namespace Sources

/-- The projects have the same paths, and the same text at every path that can
be reached in the first of them. -/
structure AgreeOnReached (entries : List Text) (left right : Sources) :
    Prop where
  paths : ∀ path, path ∈ left.paths ↔ path ∈ right.paths
  texts : ∀ path, Reached left entries path → left.text path = right.text path

section SamePaths

variable {left right : Sources}
  (samePaths : ∀ path, path ∈ left.paths ↔ path ∈ right.paths)

include samePaths

theorem contains_congr : left.contains = right.contains := by
  funext path
  rw [Bool.eq_iff_iff, contains, contains, List.contains_iff_mem,
    List.contains_iff_mem]
  exact samePaths path

theorem resolve?_congr : left.resolve? = right.resolve? := by
  funext importer target
  rw [resolve?, resolve?, contains_congr samePaths]

end SamePaths

end Sources

namespace Registry

namespace Serial

open Traversal (enter follow entryFindings importFindings)

/-! ## Steps that look at paths only -/

section SamePaths

variable {left right : Sources}
  (samePaths : ∀ path, path ∈ left.paths ↔ path ∈ right.paths)

include samePaths

theorem entryFindings_congr (entry : Text) :
    entryFindings left entry = entryFindings right entry := by
  rw [entryFindings, entryFindings, enter, enter,
    Sources.contains_congr samePaths]

theorem importFindings_congr (file : SourceFile) (reference : ImportReference) :
    importFindings left file reference =
      importFindings right file reference := by
  rw [importFindings, importFindings, follow, follow,
    Sources.resolve?_congr samePaths]

private theorem targets_congr (file : SourceFile) :
    targets left file = targets right file := by
  have each : target? left file = target? right file := by
    funext reference
    rw [target?, target?, Sources.resolve?_congr samePaths]
  rw [targets, targets, each]

theorem start_congr (entries : List Text) :
    start left entries = start right entries := by
  have findings : entryFindings left = entryFindings right :=
    funext (entryFindings_congr samePaths)
  rw [start, start, findings, Sources.contains_congr samePaths]

/-- A visit looks at one text. -/
theorem visit_congr (state : Serial) {path : Text}
    (sameText : left.text path = right.text path) :
    state.visit left path = state.visit right path := by
  have findings : importFindings left = importFindings right := by
    funext file reference
    exact importFindings_congr samePaths file reference
  rw [visit, visit, sameText]
  cases SourceFile.read path (right.text path) with
  | ok reading => simp only [targets_congr samePaths, findings]
  | error failure => rfl

end SamePaths

/-! ## What waits can be reached -/

theorem mem_of_mem_fresh {visited paths : List Text} {path : Text}
    (member : path ∈ fresh visited paths) : path ∈ paths := by
  fun_induction fresh visited paths with
  | case1 => exact member
  | case2 visited first rest seen ih =>
      exact List.mem_cons_of_mem first (ih member)
  | case3 visited first rest new ih =>
      rcases List.mem_cons.mp member with rfl | later
      · exact List.mem_cons_self
      · exact List.mem_cons_of_mem first (ih later)

theorem leads_of_mem_targets {sources : Sources} {file : SourceFile}
    {target : Text} (member : target ∈ targets sources file) :
    file.Leads sources target := by
  obtain ⟨reference, imported, leads⟩ := List.mem_filterMap.mp member
  rw [target?] at leads
  split at leads
  · rename_i followed
    rw [Traversal.isFollowed, Bool.and_eq_true, Bool.not_eq_true',
      Bool.not_eq_true'] at followed
    exact ⟨reference, imported, followed.1, followed.2, leads⟩
  · cases leads

/-- All files that wait can be reached. -/
def Waiting (sources : Sources) (entries : List Text) (state : Serial) : Prop :=
  ∀ path ∈ state.queue, Reached sources entries path

theorem waiting_start (sources : Sources) (entries : List Text) :
    (start sources entries).Waiting sources entries := by
  intro path member
  obtain ⟨listed, present⟩ := List.mem_filter.mp (mem_of_mem_fresh member)
  exact .entry listed present

theorem Waiting.visit {sources : Sources} {entries : List Text} {state : Serial}
    (waiting : state.Waiting sources entries) {path : Text}
    (reached : Reached sources entries path) :
    (state.visit sources path).Waiting sources entries := by
  intro target member
  rw [Serial.visit] at member
  split at member
  · rename_i reading read
    rcases List.mem_append.mp member with before | found
    · exact waiting target before
    · exact reached.imported
        ⟨reading, read, leads_of_mem_targets (mem_of_mem_fresh found)⟩
  · exact waiting target member

/-! ## Two runs side by side -/

/-- The induction is on the first run.  The second one has the same files
waiting, so it takes the same file next and finds the same in it. -/
theorem run_congr {left right : Sources} {entries : List Text}
    (agree : left.AgreeOnReached entries right) {state : Serial}
    (waiting : state.Waiting left entries) :
    state.run left = state.run right := by
  fun_induction run left state with
  | case1 registry diagnostics visited => rw [run]
  | case2 registry diagnostics visited path rest ih =>
      have reached : Reached left entries path :=
        waiting path List.mem_cons_self
      have later : Waiting left entries
          ⟨registry, diagnostics, visited, rest⟩ :=
        fun other member => waiting other (List.mem_cons_of_mem path member)
      have next : run right ⟨registry, diagnostics, visited, path :: rest⟩ =
          run right
            (visit right ⟨registry, diagnostics, visited, rest⟩ path) := by
        rw [run]
      rw [ih (later.visit reached), next,
        visit_congr agree.paths _ (agree.texts path reached)]

private theorem build_congr {left right : Sources} {entries : List Text}
    (agree : left.AgreeOnReached entries right) :
    build left entries = build right entries := by
  rw [build, build, run_congr agree (waiting_start left entries),
    start_congr agree.paths]

end Serial

private theorem queue_start_congr {left right : Sources}
    (samePaths : ∀ path, path ∈ left.paths ↔ path ∈ right.paths)
    (entries : List Text) :
    (Traversal.start left entries).queue =
      (Traversal.start right entries).queue := by
  rw [(Serial.agrees_start left entries).queue,
    (Serial.agrees_start right entries).queue, Serial.start_congr samePaths]

end Registry

namespace Analysis

open Registry (build buildUnless)

/-- Two projects that have the same paths, and the same texts where the first
can be reached, have the same registry with the same findings in the same order,
and the same report under all settings; if one is cancelled, so is the other. -/
theorem run_eq_of_agreeOnReached {left right : Sources} {entries : List Text}
    (agree : left.AgreeOnReached entries right) :
    build left entries = build right entries ∧
    (∀ settings, run settings left entries = run settings right entries) ∧
    ∀ cancelled,
      buildUnless cancelled left entries = buildUnless cancelled right entries ∧
      ∀ settings, runUnless cancelled settings left entries =
        runUnless cancelled settings right entries := by
  have same : build left entries = build right entries := by
    rw [Registry.build_eq_serial_build, Registry.build_eq_serial_build,
      Registry.Serial.build_congr agree]
  have reports : ∀ settings,
      run settings left entries = run settings right entries := by
    intro settings
    rw [run, run, same]
  refine ⟨same, reports, ?_⟩
  intro cancelled
  constructor
  · rw [buildUnless, buildUnless, same, Registry.queue_start_congr agree.paths]
  · intro settings
    rw [runUnless, runUnless, reports settings]

/-- A file that imports another one, and a third with the given text. -/
def spare (text : String) : Sources :=
  [("a".toList, "@import 'b'; @include c-b;".toList),
    ("b".toList, "@mixin c-b \x7b\x7d".toList), ("c".toList, text.toList)]

/-- Nothing imports the third file, so it may as well be malformed. -/
theorem run_eq_of_agreeOnReached_spare :
    spare ".c-c \x7b\x7d" ≠ spare "\x7d" ∧
    (∀ path, Reached (spare ".c-c \x7b\x7d") ["a".toList] path ↔
      path = "a".toList ∨ path = "b".toList) ∧
    build (spare ".c-c \x7b\x7d") ["a".toList] =
      build (spare "\x7d") ["a".toList] := by
  have reached : ∀ path, Reached (spare ".c-c \x7b\x7d") ["a".toList] path ↔
      path = "a".toList ∨ path = "b".toList := by
    intro path
    constructor
    · intro isReached
      have named : ∀ path ∈ (spare ".c-c \x7b\x7d").paths,
          Reached (spare ".c-c \x7b\x7d") ["a".toList] path →
            path = "a".toList ∨ path = "b".toList := by
        decide +kernel
      exact named path (List.contains_iff_mem.mp isReached.present) isReached
    · rintro (rfl | rfl) <;> decide +kernel
  have agree : (spare ".c-c \x7b\x7d").AgreeOnReached ["a".toList]
      (spare "\x7d") := by
    refine ⟨fun _ => Iff.rfl, ?_⟩
    intro path isReached
    rcases (reached path).mp isReached with rfl | rfl <;> rfl
  exact ⟨by decide, reached, (run_eq_of_agreeOnReached agree).1⟩

end Analysis

end StyleAudit
