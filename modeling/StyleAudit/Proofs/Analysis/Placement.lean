import StyleAudit.Analysis
import StyleAudit.Proofs.Diagnostic.Order
import StyleAudit.Proofs.Registry.Duplicates

/-!
# Every finding is where it says

Findings are about comments, imports, declarations and includes, or about the
place at which a text stops being well formed.  All of these were found by
walking over the text of a source.  Notes point to declarations that a name
belongs to, and these are placed as well.
-/

namespace StyleAudit

/-- The location is in a source, and was found by walking over its text. -/
structure Location.Placed (sources : Sources) (location : Location) : Prop where
  present : sources.contains location.file = true
  span : Span.IsExact (sources.text location.file) location.span

theorem Location.IsExact.placed {sources : Sources} {path : Text}
    {location : Location} (isExact : location.IsExact path (sources.text path))
    (present : sources.contains path = true) : location.Placed sources := by
  obtain ⟨rfl, span⟩ := isExact
  exact ⟨present, span⟩

/-! ## What a finding says -/

/-- How the span of a finding was found, by the rule that the finding belongs
to. -/
def Code.Measures (source : Text) (span : Span) : Code → Prop
  | .unknownEntry => span = .first
  | .malformedTag => Span.IsReckoned source span
  | .duplicateTag => Span.IsReckoned source span
  | _ => Span.IsExact source span

/-- Was the span of a finding of this rule found by walking to both of its
ends? -/
def Code.isWalked : Code → Bool
  | .unknownEntry => false
  | .malformedTag => false
  | .duplicateTag => false
  | _ => true

theorem Code.measures_of_isWalked {code : Code} (walked : code.isWalked = true)
    {source : Text} {span : Span} (isExact : Span.IsExact source span) :
    code.Measures source span := by
  cases code with
  | unknownEntry => cases walked
  | malformedTag => cases walked
  | duplicateTag => cases walked
  | _ => exact isExact

theorem Code.Measures.real {code : Code} {source : Text} {span : Span}
    (measures : code.Measures source span) (known : code ≠ .unknownEntry) :
    Span.Real source span := by
  cases code with
  | unknownEntry => exact absurd rfl known
  | malformedTag => exact Span.IsReckoned.real measures
  | duplicateTag => exact Span.IsReckoned.real measures
  | _ => exact Span.IsExact.real measures

/-- The finding is in a source unless it is about an entry that is none, and its
span was found in the text of that source. -/
structure Diagnostic.Located (sources : Sources) (diagnostic : Diagnostic) :
    Prop where
  present : diagnostic.code ≠ .unknownEntry →
    sources.contains diagnostic.location.file = true
  measures : diagnostic.code.Measures (sources.text diagnostic.location.file)
    diagnostic.location.span

theorem Location.Placed.located {sources : Sources} {diagnostic : Diagnostic}
    (placed : diagnostic.location.Placed sources)
    (walked : diagnostic.code.isWalked = true) :
    diagnostic.Located sources :=
  ⟨fun _ => placed.present, Code.measures_of_isWalked walked placed.span⟩

/-- The finding is placed in the sources and has no notes. -/
structure Diagnostic.Simple (sources : Sources) (diagnostic : Diagnostic) :
    Prop where
  located : diagnostic.Located sources
  alone : diagnostic.related = []

/-- The notes of a finding with a code and a message.  A note points to the
declaration that a name belongs to, and the name stands in the message of the
finding or of the note. -/
inductive Registry.Explains (registry : Registry) :
    Code → String → List Note → Prop
  | alone (code : Code) (message : String) : Explains registry code message []
  | earlier {name : Text}
    {found : Declaration} (looked : registry.lookup? name = some found) :
      Explains registry .duplicateDeclaration
        s!"`{name.shown}` is already declared"
          [⟨found.location, "first declared here"⟩]
  | otherKind (message : String) {name : Text} {found : Declaration}
      (looked : registry.lookup? name = some found) :
      Explains registry .unresolvedReference message
        [⟨found.location, s!"`{name.shown}` declared here"⟩]
  | interface {code : Code} (message : String) {name : Text}
    {found : Declaration}
      (looked : registry.lookup? name = some found)
      (compared : code = .interfaceConformance ∨ code = .typeMismatch) :
      Explains registry code message [Conformance.interfaceNote found name]

/-! ## Names of declarations -/

namespace Naming

/-- The finding is about the name of one of some declarations. -/
def Names (declarations : List Declaration) (diagnostic : Diagnostic) : Prop :=
  ∃ declaration ∈ declarations, ∃ violation : Violation,
    diagnostic = violation.toDiagnostic declaration.location

theorem Names.mono {fewer more : List Declaration} {diagnostic : Diagnostic}
    (names : Names fewer diagnostic) (within : fewer ⊆ more) :
    Names more diagnostic := by
  obtain ⟨declaration, member, violation, same⟩ := names
  exact ⟨declaration, within member, violation, same⟩

mutual

private theorem names_levelDiagnostics (settings : Settings)
    {diagnostic : Diagnostic} :
    ∀ (level : Nat) (declaration : Declaration),
      diagnostic ∈ levelDiagnostics settings level declaration →
      Names declaration.walk diagnostic
  | level, ⟨kind, name, signature, location, doc, children, nesting, includes⟩,
      member => by
      rw [levelDiagnostics] at member
      rw [Declaration.walk]
      rcases List.mem_append.mp member with own | inside
      · obtain ⟨violation, -, rfl⟩ := List.mem_map.mp own
        exact ⟨_, List.mem_cons_self, violation, rfl⟩
      · exact (names_levelDiagnosticsList settings _ children inside).mono
          (List.subset_cons_self _ _)

theorem names_levelDiagnosticsList (settings : Settings)
    {diagnostic : Diagnostic} :
    ∀ (level : Nat) (declarations : List Declaration),
      diagnostic ∈ levelDiagnosticsList settings level declarations →
      Names (Declaration.walkList declarations) diagnostic
  | _, [], member => by
      rw [levelDiagnosticsList] at member
      exact (List.not_mem_nil member).elim
  | level, declaration :: rest, member => by
      rw [levelDiagnosticsList] at member
      rw [Declaration.walkList]
      rcases List.mem_append.mp member with here | later
      · exact (names_levelDiagnostics settings level declaration here).mono
          (List.subset_append_left _ _)
      · exact (names_levelDiagnosticsList settings level rest later).mono
          (List.subset_append_right _ _)

end

theorem names_check {settings : Settings} {declaration : Declaration}
    {diagnostic : Diagnostic}
    (member : diagnostic ∈ check settings declaration) :
    Names declaration.walk diagnostic := by
  have inside : Declaration.walkList declaration.children ⊆
      declaration.walk := by
    rw [Declaration.walk_eq]
    exact List.subset_cons_self _ _
  rw [check, List.append_assoc] at member
  rcases List.mem_append.mp member with own | member
  · obtain ⟨violation, -, rfl⟩ := List.mem_map.mp own
    exact ⟨declaration, declaration.mem_walk_self, violation, rfl⟩
  · rcases List.mem_append.mp member with reopened | deep
    · rw [reopenedDiagnostics] at reopened
      split at reopened
      · exact (List.not_mem_nil reopened).elim
      · obtain ⟨part, kept, found⟩ := List.mem_flatMap.mp reopened
        obtain ⟨violation, -, rfl⟩ := List.mem_map.mp found
        exact ⟨part,
          inside (Declaration.mem_walkList (List.mem_filter.mp kept).1),
          violation, rfl⟩
    · exact (names_levelDiagnosticsList settings _ _ deep).mono inside

end Naming

theorem Violation.isWalked_code (violation : Violation) :
    violation.code.isWalked = true := by
  cases violation <;> rfl

/-! ## Conformance to interfaces -/

namespace Conformance

/-- The finding is about what a declaration claims to implement. -/
structure About (registry : Registry) (declaration : Declaration)
    (diagnostic : Diagnostic) :
    Prop where
  location : diagnostic.location = declaration.location
  walked : diagnostic.code.isWalked = true
  notes : registry.Explains diagnostic.code diagnostic.message
    diagnostic.related

section Check

variable {settings : Settings} {registry : Registry}
  {declaration interface : Declaration} {name : Text} {diagnostic : Diagnostic}

private theorem about_memberDiagnostic? {doc : Doc.Block}
    {member : Contract.Member} (looked : registry.lookup? name = some interface)
    (found : memberDiagnostic? settings declaration doc interface name member =
      some diagnostic) :
    About registry declaration diagnostic := by
  rw [memberDiagnostic?] at found
  split at found
  · rw [← Option.some.inj found]
    exact ⟨rfl, rfl, .interface _ looked (.inl rfl)⟩
  · split at found
    · split at found
      · cases found
      · rw [← Option.some.inj found]
        exact ⟨rfl, rfl, .interface _ looked (.inr rfl)⟩
    · cases found

private theorem about_modifierDiagnostic? {modifier : Doc.Modifier}
    (looked : registry.lookup? name = some interface)
    (found : modifierDiagnostic? declaration interface name modifier =
      some diagnostic) :
    About registry declaration diagnostic := by
  rw [modifierDiagnostic?] at found
  split at found
  · cases found
  · rw [← Option.some.inj found]
    exact ⟨rfl, rfl, .interface _ looked (.inl rfl)⟩

private theorem about_compare {doc interfaceDoc : Doc.Block}
    (looked : registry.lookup? name = some interface)
    (found : diagnostic ∈ compare settings declaration doc interface
      interfaceDoc name) :
    About registry declaration diagnostic := by
  rcases List.mem_append.mp found with members | modifiers
  · obtain ⟨member, -, wrong⟩ := List.mem_filterMap.mp members
    exact about_memberDiagnostic? looked wrong
  · obtain ⟨modifier, -, wrong⟩ := List.mem_filterMap.mp modifiers
    exact about_modifierDiagnostic? looked wrong

theorem about_check
    (member : diagnostic ∈ check settings registry declaration) :
    About registry declaration diagnostic := by
  unfold check at member
  split at member
  · exact (List.not_mem_nil member).elim
  · split at member
    · exact (List.not_mem_nil member).elim
    · split at member
      · rw [List.mem_singleton.mp member]
        exact ⟨rfl, rfl, .alone _ _⟩
      · rename_i found looked
        split at member
        · split at member
          · exact (List.not_mem_nil member).elim
          · exact about_compare looked member
        · rw [List.mem_singleton.mp member]
          exact ⟨rfl, rfl, .otherKind _ looked⟩

end Check

end Conformance

/-! ## The files of a registry -/

/-- Everything in the file is placed in the sources. -/
structure SourceFile.Placed (sources : Sources) (file : SourceFile) : Prop where
  declarations : ∀ declaration ∈ Declaration.walkList file.declarations,
    declaration.location.Placed sources
  imports : ∀ reference ∈ file.imports, reference.location.Placed sources
  includes : ∀ reference ∈ file.includes, reference.location.Placed sources

theorem SourceFile.Reading.Placed.file {sources : Sources} {path : Text}
    {reading : Reading} (placed : reading.Placed path (sources.text path))
    (present : sources.contains path = true) : reading.file.Placed sources := by
  constructor
  · intro declaration member
    exact (placed.declarations declaration member).placed present
  · intro reference member
    exact (placed.imports reference member).placed present
  · intro reference member
    exact (placed.includes reference member).placed present

theorem SourceFile.Remark.simple {sources : Sources} {path : Text}
    {diagnostic : Diagnostic}
    (remark : Remark path (sources.text path) diagnostic)
    (present : sources.contains path = true) : diagnostic.Simple sources := by
  obtain ⟨rfl, about, alone⟩ := remark
  refine ⟨⟨fun _ => present, ?_⟩, alone⟩
  rcases about with ⟨code, isExact⟩ | ⟨code | code, isReckoned⟩
  · rw [code]
    exact isExact
  · rw [code]
    exact isReckoned
  · rw [code]
    exact isReckoned

namespace Registry

/-- All files are placed in the sources. -/
def Placed (sources : Sources) (registry : Registry) : Prop :=
  ∀ file ∈ registry.files, file.Placed sources

section Placed

variable {sources : Sources} {registry : Registry}

theorem Placed.declaration (placed : registry.Placed sources)
    {declaration : Declaration}
    (member : declaration ∈ registry.allDeclarations) :
    declaration.location.Placed sources := by
  rw [allDeclarations, declarations, Declaration.walkList_eq_flatMap,
    List.flatMap_assoc] at member
  obtain ⟨file, inFiles, inFile⟩ := List.mem_flatMap.mp member
  rw [← Declaration.walkList_eq_flatMap] at inFile
  exact (placed file inFiles).declarations declaration inFile

theorem Placed.resolve? (placed : registry.Placed sources)
    {reference : DeclarationReference} {declaration : Declaration}
    (resolved : registry.resolve? reference = some declaration) :
    declaration.location.Placed sources := by
  obtain ⟨file, isFile, inFile⟩ := Option.bind_eq_some_iff.mp resolved
  apply (placed file (List.mem_of_getElem? isFile)).declarations
  exact Declaration.mem_walkList (List.mem_of_getElem? inFile)

theorem Placed.lookup? (placed : registry.Placed sources) {name : Text}
    {found : Declaration} (looked : registry.lookup? name = some found) :
    found.location.Placed sources := by
  obtain ⟨reference, -, resolved⟩ := Option.bind_eq_some_iff.mp looked
  exact placed.resolve? resolved

theorem Explains.placed {code : Code} {message : String} {notes : List Note}
    (explains : registry.Explains code message notes)
    (placed : registry.Placed sources) :
    ∀ note ∈ notes, note.location.Placed sources := by
  intro note member
  cases explains with
  | alone => exact (List.not_mem_nil member).elim
  | earlier looked =>
      rw [List.mem_singleton.mp member]
      exact placed.lookup? looked
  | otherKind _ looked =>
      rw [List.mem_singleton.mp member]
      exact placed.lookup? looked
  | interface _ looked =>
      rw [List.mem_singleton.mp member]
      exact placed.lookup? looked

end Placed

/-! ## Building a registry -/

namespace Traversal

/-- What was added is placed in the sources, and so is what was found.  Only
names that are taken are left aside. -/
structure Placed (sources : Sources) (registry : Registry)
    (found : List Diagnostic) :
    Prop where
  files : registry.Placed sources
  findings : ∀ diagnostic ∈ found, diagnostic.code ≠ .duplicateDeclaration →
    diagnostic.Simple sources

section Visits

variable {sources : Sources} {entries : List Text}

theorem simple_of_mem_entryFindings {entry : Text} {diagnostic : Diagnostic}
    (member : diagnostic ∈ entryFindings sources entry) :
    diagnostic.Simple sources := by
  obtain ⟨code, location, alone⟩ := of_mem_entryFindings member
  refine ⟨⟨fun known => absurd code known, ?_⟩, alone⟩
  rw [code, location]
  rfl

private theorem simple_of_mem_importFindings {file : SourceFile}
    (placed : file.Placed sources) {reference : ImportReference}
    (imported : reference ∈ file.imports) {diagnostic : Diagnostic}
    (member : diagnostic ∈ importFindings sources file reference) :
    diagnostic.Simple sources := by
  obtain ⟨code, location, alone⟩ := of_mem_importFindings member
  refine ⟨Location.Placed.located ?_ ?_, alone⟩
  · rw [location]
    exact placed.imports reference imported
  · rw [code]
    rfl

/-- The place at which a text stops being well formed is found again from its
line and column. -/
theorem simple_of_mem_exclusion {path : Text}
    (present : sources.contains path = true) {failure : Failure}
    (failed : SourceFile.read path (sources.text path) = .error failure)
    {diagnostic : Diagnostic}
    (member : diagnostic ∈
      (exclusion path (sources.text path) failure.cause).toList) :
    diagnostic.Simple sources := by
  obtain ⟨front, begins, detail, sourceLine, cause⟩ :=
    SourceFile.failure_of_read failed
  rw [cause, exclusion, Position.ofLineColumn_advance begins] at member
  rw [List.mem_singleton.mp member]
  exact ⟨⟨fun _ => present, Span.isExact_point begins⟩, rfl⟩

/-- Where the findings about a clash are is left open here, for the finished
registry tells. -/
theorem preserved_placed (sources : Sources) (entries : List Text) :
    Preserved sources entries (Placed sources) where
  started := by
    refine ⟨nofun, ?_⟩
    intro diagnostic member _
    obtain ⟨entry, -, found⟩ := List.mem_flatMap.mp member
    exact simple_of_mem_entryFindings found
  added := by
    intro registry found path reading reached read placed
    have remarks := SourceFile.placed_of_read read
    have file : reading.file.Placed sources := remarks.file reached.present
    constructor
    · intro other member
      rcases List.mem_append.mp member with old | new
      · exact placed.files other old
      · rw [List.mem_singleton.mp new]
        exact file
    · intro diagnostic member other
      simp only [List.mem_append] at member
      rcases member with old | remark | imported | clashing
      · exact placed.findings diagnostic old other
      · exact (remarks.diagnostics diagnostic remark).simple reached.present
      · obtain ⟨reference, inFile, wrong⟩ := List.mem_flatMap.mp imported
        exact simple_of_mem_importFindings file inFile wrong
      · obtain ⟨clash, -, rfl⟩ := List.mem_map.mp clashing
        exact absurd rfl other
  leftOut := by
    intro registry found path failure reached failed placed
    refine ⟨placed.files, ?_⟩
    intro diagnostic member other
    rcases List.mem_append.mp member with old | new
    · exact placed.findings diagnostic old other
    · exact simple_of_mem_exclusion reached.present failed new

end Visits

end Traversal

end Registry

/-! ## All findings -/

namespace Analysis

open Registry (build)

variable {settings : Settings} {sources : Sources} {entries : List Text}
  {diagnostic : Diagnostic}

/-- What a finding says about places is right. -/
structure Justified (sources : Sources) (registry : Registry)
    (diagnostic : Diagnostic) :
    Prop where
  located : diagnostic.Located sources
  notes : registry.Explains diagnostic.code diagnostic.message
    diagnostic.related

theorem placed_build (sources : Sources) (entries : List Text) :
    (build sources entries).registry.Placed sources :=
  (Registry.Traversal.preserved_placed sources entries).build.files

theorem justified_of_mem_build
    (member : diagnostic ∈ (build sources entries).diagnostics) :
    Justified sources (build sources entries).registry diagnostic := by
  have placed := (Registry.Traversal.preserved_placed sources entries).build
  have reported := (Registry.Traversal.preserved_reported sources entries).build
  by_cases code : diagnostic.code = .duplicateDeclaration
  · obtain ⟨place, inPlaces, repeats⟩ := reported.exists_repeats member code
    obtain ⟨first, looked, related⟩ := repeats.related
    have resolved := Registry.mem_places_iff.mp inPlaces
    constructor
    · apply Location.Placed.located
      · rw [repeats.location]
        exact placed.files.resolve? resolved
      · rw [code]
        rfl
    · rw [code, repeats.message, related]
      exact .earlier looked
  · have simple := placed.findings diagnostic member code
    refine ⟨simple.located, ?_⟩
    rw [simple.alone]
    exact .alone _ _

private theorem justified_of_mem_naming {registry : Registry}
    (placed : registry.Placed sources) {declaration : Declaration}
    (declared : declaration ∈ registry.declarations)
    (member : diagnostic ∈ Naming.check settings declaration) :
    Justified sources registry diagnostic := by
  obtain ⟨inner, inside, violation, rfl⟩ := Naming.names_check member
  have anywhere : inner ∈ registry.allDeclarations := by
    rw [Registry.allDeclarations, Declaration.walkList_eq_flatMap]
    exact List.mem_flatMap.mpr ⟨declaration, declared, inside⟩
  exact ⟨Location.Placed.located (placed.declaration anywhere)
    violation.isWalked_code, .alone _ _⟩

private theorem justified_of_mem_conformance {registry : Registry}
    (placed : registry.Placed sources)
    (member : diagnostic ∈ Conformance.checkAll settings registry) :
    Justified sources registry diagnostic := by
  rcases List.mem_append.mp member with checked | included
  · obtain ⟨declaration, declared, found⟩ := List.mem_flatMap.mp checked
    have about := Conformance.about_check found
    refine ⟨Location.Placed.located ?_ about.walked, about.notes⟩
    rw [about.location]
    exact placed.declaration declared
  · obtain ⟨file, inFiles, found⟩ := List.mem_flatMap.mp included
    obtain ⟨reference, inFile, wrong⟩ := List.mem_filterMap.mp found
    simp only [Conformance.includeDiagnostic?] at wrong
    split at wrong
    · rw [← Option.some.inj wrong]
      exact ⟨Location.Placed.located
        ((placed file inFiles).includes reference inFile) rfl, .alone _ _⟩
    · cases wrong

theorem justified_of_mem_findings
    (member : diagnostic ∈ findings settings (build sources entries)) :
    Justified sources (build sources entries).registry diagnostic := by
  have placed := placed_build sources entries
  rw [findings, List.append_assoc] at member
  rcases List.mem_append.mp member with built | member
  · exact justified_of_mem_build built
  · rcases List.mem_append.mp member with named | conforming
    · obtain ⟨declaration, declared, found⟩ := List.mem_flatMap.mp named
      exact justified_of_mem_naming placed declared found
    · exact justified_of_mem_conformance placed conforming

end Analysis

/-- The location is in a source, where its span lies and begins as it says. -/
structure Location.Real (sources : Sources) (location : Location) : Prop where
  present : sources.contains location.file = true
  span : Span.Real (sources.text location.file) location.span

namespace Analysis

/-- A finding, unless it is about an entry that is no source, and each of its
notes are in a source.  They begin and end between characters of its text, and
the line and the column are those of the beginning. -/
theorem real_of_mem_run {settings : Settings} {sources : Sources}
    {entries : List Text} {diagnostic : Diagnostic}
    (member : diagnostic ∈ (run settings sources entries).diagnostics) :
    (diagnostic.code ≠ .unknownEntry → diagnostic.location.Real sources) ∧
      ∀ note ∈ diagnostic.related, note.location.Real sources := by
  have justified := justified_of_mem_findings (Diagnostic.mem_finish.mp member)
  constructor
  · intro known
    exact ⟨justified.located.present known,
      justified.located.measures.real known⟩
  · intro note inNotes
    have placed :=
      justified.notes.placed (placed_build sources entries) note inNotes
    exact ⟨placed.present, placed.span.real⟩

/-- Two files that declare one name, in one of them behind a comment that is
longer in bytes than in characters. -/
def pair : Sources :=
  [("a".toList, "/* é */ .c-x \x7b\x7d".toList),
    ("b".toList, "@import 'a';\n.c-x \x7b\x7d".toList)]

/-- What is found in the two files. -/
def pairFinding : Diagnostic :=
  { severity := .error, code := .duplicateDeclaration,
    message := "`c-x` is already declared",
    location := ⟨"a".toList, ⟨⟨9, 1, 9⟩, ⟨16, 1, 16⟩⟩⟩,
    related :=
      [⟨⟨"b".toList, ⟨⟨13, 2, 1⟩, ⟨20, 2, 8⟩⟩⟩, "first declared here"⟩] }

theorem real_of_mem_run_pair :
    pairFinding ∈ (run {} pair ["b".toList]).diagnostics ∧
      pairFinding.location.Real pair ∧
      ∀ note ∈ pairFinding.related, note.location.Real pair := by
  have member : pairFinding ∈ (run {} pair ["b".toList]).diagnostics := by
    decide +kernel
  obtain ⟨own, notes⟩ := real_of_mem_run member
  exact ⟨member, own nofun, notes⟩

end Analysis

end StyleAudit
