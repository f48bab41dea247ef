import Mathlib.Data.List.Nodup
import StyleAudit.Conformance.Check
import StyleAudit.Proofs.Registry.Duplicates
import StyleAudit.Proofs.Registry.Reachability
import StyleAudit.Proofs.SourceFile.Included
import StyleAudit.Proofs.Text.Words

/-!
# Which includes are reported

An include is reported exactly if the name behind its module has an accepted
type prefix and no declaration of the project has it.  A mixin may be declared
under another name than its own, or not at all, so an include can be reported
although the mixin is there.
-/

namespace StyleAudit

/-! ## Files of a project -/

namespace SourceFile

/-- The nodes at the top of a file. -/
def nodes (file : SourceFile) : List Node :=
  match Stylesheet.read file.text with
  | .ok sheet => sheet.nodes
  | .error _ => []

theorem nodes_of_read {file : SourceFile} {sheet : Stylesheet}
    (parsed : Stylesheet.read file.text = .ok sheet) :
    file.nodes = sheet.nodes := by
  rw [nodes, parsed]

/-- No two nodes of a file have the same span. -/
theorem node_eq_of_span_eq {file : SourceFile} {left right : Node}
    (hasLeft : left ∈ Node.walkList file.nodes)
    (hasRight : right ∈ Node.walkList file.nodes)
    (same : left.span = right.span) : left = right := by
  have distinct : ((Node.walkList file.nodes).map Node.span).Nodup := by
    rw [nodes]
    split
    · rename_i sheet parsed
      exact Stylesheet.nodup_spans_of_read parsed
    · rw [Node.walkList]
      exact List.nodup_nil
  exact List.inj_on_of_nodup_map distinct hasLeft hasRight same

end SourceFile

namespace Registry

open Traversal (readable?)

variable {sources : Sources} {entries : List Text}

theorem readable?_of_mem_files {file : SourceFile}
    (member : file ∈ (build sources entries).registry.files) :
    readable? sources file.id = some file := by
  obtain ⟨order, visits, -⟩ := exists_visits_build sources entries
  rw [visits.registry, files_ofFiles] at member
  obtain ⟨path, -, readable⟩ := List.mem_filterMap.mp member
  rw [id_of_readable? readable]
  exact readable

/-- No two files of a project have the same identifier. -/
theorem file_eq_of_id_eq {left right : SourceFile}
    (hasLeft : left ∈ (build sources entries).registry.files)
    (hasRight : right ∈ (build sources entries).registry.files)
    (same : left.id = right.id) :
    left = right := by
  have readLeft := readable?_of_mem_files hasLeft
  rw [same, readable?_of_mem_files hasRight] at readLeft
  exact (Option.some.inj readLeft).symm

theorem exists_sheet_of_mem_files {file : SourceFile}
    (member : file ∈ (build sources entries).registry.files) :
    ∃ sheet, Stylesheet.read file.text = .ok sheet ∧
      file = (SourceFile.ofStylesheet file.id file.text sheet).file := by
  have readable := readable?_of_mem_files member
  rw [readable?] at readable
  split at readable
  · rename_i reading done
    obtain ⟨sheet, parsed, rfl⟩ := SourceFile.exists_sheet_of_read done
    rw [← Option.some.inj readable]
    exact ⟨sheet, parsed, rfl⟩
  · cases readable

theorem includes_of_mem_files {file : SourceFile}
    (member : file ∈ (build sources entries).registry.files) :
    file.includes = Node.included file.id file.nodes := by
  obtain ⟨sheet, parsed, same⟩ := exists_sheet_of_mem_files member
  rw [SourceFile.nodes_of_read parsed, same]
  exact SourceFile.includes_ofStylesheet file.id file.text sheet

theorem exists_declaration_of_mem_files {file : SourceFile}
    (member : file ∈ (build sources entries).registry.files) {rule : AtRule}
    {comment : Option Comment} {body : Option (List Node)} {span : Span}
    (present : .atRule rule comment body span ∈ file.nodes)
    (declared : SourceFile.Draft.isDeclared rule comment = true) :
    ∃ declaration ∈ (build sources entries).registry.declarations,
      declaration.name = SourceFile.Draft.atRuleName rule comment := by
  obtain ⟨sheet, parsed, same⟩ := exists_sheet_of_mem_files member
  rw [SourceFile.nodes_of_read parsed] at present
  obtain ⟨declaration, inFile, named⟩ :=
    @SourceFile.exists_declaration_of_isDeclared file.id file.text _ _ _ _ _
      present declared
  rw [← same] at inFile
  exact ⟨declaration, List.mem_flatMap.mpr ⟨file, member, inFile⟩, named⟩

/-- A name is declared exactly if some declaration has it. -/
theorem contains_build_iff {name : Text} :
    (build sources entries).registry.contains name = true ↔
      ∃ declaration ∈ (build sources entries).registry.declarations,
        declaration.name = name := by
  have indexed := (Traversal.preserved_reported sources entries).build.indexed
  constructor
  · intro contained
    rw [contains, indexed.find?_eq, Option.isSome_map, List.find?_isSome]
      at contained
    obtain ⟨place, inRow, named⟩ := contained
    refine ⟨place.2, ?_, eq_of_beq named⟩
    rw [← map_snd_places]
    exact List.mem_map_of_mem inRow
  · rintro ⟨declaration, member, rfl⟩
    exact indexed.contains_of_mem member

end Registry

/-! ## Mixins -/

theorem DeclarationKind.isSome_ofName? {name : Text}
    (prefixed : ['c', '-'] <+: name ∨ ['u', '-'] <+: name) :
    (DeclarationKind.ofName? name).isSome = true := by
  rcases prefixed with ⟨rest, rfl⟩ | ⟨rest, rfl⟩ <;> rfl

namespace Node

/-- The name of the mixin that the node defines. -/
def mixin? : Node → Option Text
  | .atRule head _ _ _ =>
    if head.keyword = "mixin".toList then head.name else none
  | .rule _ _ _ _ | .importing _ _ _ | .including _ _ _ _ => none

/-- A mixin of the given name is declared under it: the mixin is documented or
has one of the two fixed type prefixes, and its doc block gives no other
name. -/
structure KeepsName (node : Node) (name : Text) : Prop where
  noticed : node.doc.isSome ∨ ['c', '-'] <+: name ∨ ['u', '-'] <+: name
  kept : ∀ comment ∈ node.doc, ∀ other ∈ (Doc.extract comment.text).block.name,
    other = name

theorem exists_atRule_of_mixin? {node : Node} {name : Text}
    (mixin : node.mixin? = some name) :
    ∃ rule comment body span, node = .atRule rule comment body span ∧
      rule.keyword = "mixin".toList ∧ rule.name = some name := by
  cases node with
  | atRule rule comment body span =>
      rw [mixin?] at mixin
      split at mixin
      · rename_i keyword
        exact ⟨rule, comment, body, span, rfl, keyword, mixin⟩
      · cases mixin
  | rule selector comment children span => cases mixin
  | importing kind targets span => cases mixin
  | including called arguments body span => cases mixin

variable {rule : AtRule} {comment : Option Comment} {body : Option (List Node)}
  {span : Span} {name : Text}

theorem KeepsName.isDeclared
    (keeps : (atRule rule comment body span).KeepsName name)
    (keyword : rule.keyword = "mixin".toList) (named : rule.name = some name) :
    SourceFile.Draft.isDeclared rule comment = true := by
  have noticed : (comment.isSome ||
      (rule.name.bind DeclarationKind.ofName?).isSome) = true := by
    rw [Bool.or_eq_true, named, Option.bind_some]
    exact keeps.noticed.imp_right DeclarationKind.isSome_ofName?
  simp only [SourceFile.Draft.isDeclared, keyword, noticed, beq_self_eq_true,
    Bool.true_or, Bool.and_self]

theorem KeepsName.atRuleName
    (keeps : (atRule rule comment body span).KeepsName name)
    (named : rule.name = some name) :
    SourceFile.Draft.atRuleName rule comment = name := by
  rw [SourceFile.Draft.atRuleName, named]
  cases given : comment.bind fun comment =>
    (Doc.extract comment.text).block.name with
  | none => rfl
  | some other =>
      obtain ⟨documenting, isComment, isName⟩ :=
        Option.bind_eq_some_iff.mp given
      exact keeps.kept documenting isComment other isName

end Node

/-! ## Reports -/

namespace Conformance

theorem mixinName_plain {name : Text} (single : '.' ∉ name) :
    mixinName name = name := by
  rw [mixinName, Text.splitLast?_eq_none single]
  rfl

theorem mixinName_qualified {name : Text} (single : '.' ∉ name)
    (qualifier : Text) :
    mixinName (qualifier ++ '.' :: name) = name := by
  rw [mixinName, Text.splitLast?_append_cons single]
  rfl

/-- Something that is included in the given place is reported. -/
def ReportsInclude (settings : Settings) (registry : Registry)
    (location : Location) : Prop :=
  ∃ diagnostic ∈ checkIncludes settings registry, diagnostic.location = location

/-- What is included by that name is not known: it is looked for, and no
declaration has it. -/
structure Unknown (settings : Settings) (registry : Registry) (called : Text) :
    Prop where
  prefixed : hasTypePrefix settings (mixinName called) = true
  undeclared : ∀ declaration ∈ registry.declarations,
    declaration.name ≠ mixinName called

theorem includeDiagnostic?_eq_some_iff {settings : Settings} {sources : Sources}
    {entries : List Text} (reference : IncludeReference) {location : Location} :
    (∃ diagnostic,
      includeDiagnostic? settings (Registry.build sources entries).registry
        reference =
        some diagnostic ∧ diagnostic.location = location) ↔
      Unknown settings (Registry.build sources entries).registry
        reference.name ∧
        reference.location = location := by
  have declared :=
    @Registry.contains_build_iff sources entries (mixinName reference.name)
  rw [includeDiagnostic?]
  constructor
  · rintro ⟨diagnostic, found, rfl⟩
    split at found
    · rename_i unknown
      rw [Bool.and_eq_true, Bool.not_eq_true'] at unknown
      rw [← Option.some.inj found]
      refine ⟨⟨unknown.1, fun declaration member named => ?_⟩, rfl⟩
      rw [declared.mpr ⟨declaration, member, named⟩] at unknown
      exact Bool.noConfusion unknown.2
    · cases found
  · rintro ⟨unknown, rfl⟩
    have absent : (Registry.build sources entries).registry.contains
        (mixinName reference.name) = false := by
      rw [Bool.eq_false_iff, Ne, declared]
      rintro ⟨declaration, member, named⟩
      exact unknown.undeclared declaration member named
    rw [unknown.prefixed, absent]
    exact ⟨_, rfl, rfl⟩

/-- An include is reported exactly if its name is not known. -/
theorem reportsInclude_iff {settings : Settings} {sources : Sources}
    {entries : List Text} {file : SourceFile}
    (registered : file ∈ (Registry.build sources entries).registry.files)
    {called : Text} {arguments : Option Text} {body : Option (List Node)}
    {place : Span}
    (included : .including called arguments body place ∈
      Node.walkList file.nodes) :
    ReportsInclude settings (Registry.build sources entries).registry
      ⟨file.id, place⟩ ↔
      Unknown settings (Registry.build sources entries).registry called := by
  constructor
  · rintro ⟨diagnostic, member, located⟩
    obtain ⟨other, otherRegistered, inOther⟩ := List.mem_flatMap.mp member
    obtain ⟨reference, recorded, found⟩ := List.mem_filterMap.mp inOther
    obtain ⟨unknown, location⟩ :=
      (includeDiagnostic?_eq_some_iff reference).mp ⟨diagnostic, found, located⟩
    rw [Registry.includes_of_mem_files otherRegistered] at recorded
    obtain ⟨otherArguments, otherBody, span, present, written⟩ :=
      Node.mem_included_iff.mp recorded
    obtain ⟨sameId, sameSpan⟩ := Location.mk.inj (location.symm.trans written)
    obtain rfl := Registry.file_eq_of_id_eq registered otherRegistered sameId
    have sameNode := SourceFile.node_eq_of_span_eq included present sameSpan
    rwa [(Node.including.inj sameNode).1]
  · intro unknown
    have recorded : ⟨called, ⟨file.id, place⟩⟩ ∈ file.includes := by
      rw [Registry.includes_of_mem_files registered]
      exact Node.mem_included_iff.mpr ⟨arguments, body, place, included, rfl⟩
    obtain ⟨diagnostic, found, located⟩ :=
      (includeDiagnostic?_eq_some_iff ⟨called, ⟨file.id, place⟩⟩).mpr
        ⟨unknown, rfl⟩
    have inFile := List.mem_filterMap.mpr ⟨_, recorded, found⟩
    exact ⟨diagnostic, List.mem_flatMap.mpr ⟨file, registered, inFile⟩, located⟩

/-- A mixin that keeps its name is known by it. -/
theorem exists_declaration_of_keepsName {sources : Sources}
    {entries : List Text} {home : SourceFile}
    (registered : home ∈ (Registry.build sources entries).registry.files)
    {mixin : Node} {name : Text} (present : mixin ∈ home.nodes)
    (defines : mixin.mixin? = some name) (keeps : mixin.KeepsName name) :
    ∃ declaration ∈ (Registry.build sources entries).registry.declarations,
      declaration.name = name := by
  obtain ⟨rule, comment, body, span, rfl, keyword, named⟩ :=
    Node.exists_atRule_of_mixin? defines
  obtain ⟨declaration, member, sameName⟩ :=
    Registry.exists_declaration_of_mem_files registered present
      (keeps.isDeclared keyword named)
  rw [keeps.atRuleName named] at sameName
  exact ⟨declaration, member, sameName⟩

/-- A mixin that is declared under its own name can be included from everywhere.
An include is reported exactly if its name is looked for and no declaration has
it.  So an include of a mixin at the top of some file, with or without a module
in front, is not reported if the name holds no dot and, in case it is looked
for, the mixin is declared under it. -/
theorem include_known_of_keepsName {settings : Settings} {sources : Sources}
    {entries : List Text} {file : SourceFile}
    (registered : file ∈ (Registry.build sources entries).registry.files)
    {called : Text} {arguments : Option Text} {body : Option (List Node)}
    {place : Span}
    (included : .including called arguments body place ∈
      Node.walkList file.nodes) :
    (ReportsInclude settings (Registry.build sources entries).registry
      ⟨file.id, place⟩ ↔
      Unknown settings (Registry.build sources entries).registry called) ∧
    ∀ home ∈ (Registry.build sources entries).registry.files,
      ∀ mixin ∈ home.nodes, ∀ name, mixin.mixin? = some name → '.' ∉ name →
      (hasTypePrefix settings name = true → mixin.KeepsName name) →
      (called = name ∨ ∃ qualifier, called = qualifier ++ '.' :: name) →
      ¬ ReportsInclude settings (Registry.build sources entries).registry
        ⟨file.id, place⟩ := by
  refine ⟨reportsInclude_iff registered included, ?_⟩
  intro home homeRegistered mixin present name defines single keeps
    written reported
  have bare : mixinName called = name := by
    rcases written with rfl | ⟨qualifier, rfl⟩
    · exact mixinName_plain single
    · exact mixinName_qualified single qualifier
  have unknown := (reportsInclude_iff registered included).mp reported
  have looked := unknown.prefixed
  have undeclared := unknown.undeclared
  rw [bare] at looked undeclared
  obtain ⟨declaration, member, named⟩ :=
    exists_declaration_of_keepsName homeRegistered present defines
      (keeps looked)
  exact undeclared declaration member named

/-- The settings of a project with a type prefix of its own. -/
def ownPrefix : Settings :=
  { allowedPrefixes := [['c'], ['u'], ['x']] }

/-- A file with a documented mixin, and one that includes it inside of two
blocks. -/
def lender : Sources :=
  [("a".toList,
    "@use 'm'; .c-d \x7b @media y \x7b @include m.x-b; \x7d \x7d".toList),
    ("m".toList, "/** Shared. */ @mixin x-b \x7b\x7d".toList)]

theorem include_known_of_keepsName_qualified :
    hasTypePrefix ownPrefix "x-b".toList = true ∧
    ∃ file ∈ (Registry.build lender ["a".toList]).registry.files,
      .including "m.x-b".toList none none ⟨⟨28, 1, 29⟩, ⟨43, 1, 44⟩⟩ ∈
        Node.walkList file.nodes ∧
      ¬ ReportsInclude ownPrefix (Registry.build lender ["a".toList]).registry
        ⟨file.id, ⟨⟨28, 1, 29⟩, ⟨43, 1, 44⟩⟩⟩ := by
  obtain ⟨file, registered, included⟩ :
      ∃ file ∈ (Registry.build lender ["a".toList]).registry.files,
        .including "m.x-b".toList none none ⟨⟨28, 1, 29⟩, ⟨43, 1, 44⟩⟩ ∈
          Node.walkList file.nodes := by
    decide +kernel
  obtain ⟨home, homeRegistered, mixin, present, defines, documented, kept⟩ :
      ∃ home ∈ (Registry.build lender ["a".toList]).registry.files,
        ∃ mixin ∈ home.nodes, mixin.mixin? = some "x-b".toList ∧
        mixin.doc.isSome = true ∧
          ∀ comment ∈ mixin.doc,
            ∀ other ∈ (Doc.extract comment.text).block.name,
              other = "x-b".toList := by
    decide +kernel
  obtain ⟨-, silent⟩ :=
    @include_known_of_keepsName ownPrefix _ _ _ registered _ _ _ _ included
  refine ⟨by decide, file, registered, included, ?_⟩
  exact silent home homeRegistered mixin present "x-b".toList
    defines (by decide) (fun _ => ⟨.inl documented, kept⟩) (.inr ⟨['m'], rfl⟩)

/-- A mixin of the given name stands at the top of a file, and an include of it
is reported. -/
def Misses (settings : Settings) (sources : Sources) (entries : List Text)
    (name : Text) : Prop :=
  (∃ home ∈ (Registry.build sources entries).registry.files,
    ∃ mixin ∈ home.nodes, mixin.mixin? = some name) ∧
  ∃ file ∈ (Registry.build sources entries).registry.files,
    ∃ reference ∈ Node.included file.id file.nodes,
      reference.name = name ∧
        ReportsInclude settings (Registry.build sources entries).registry
          reference.location

/-- A mixin is missed if only the settings know its type prefix, if its doc
block gives it another name, or if its name holds a dot. -/
theorem misses_mixins :
    Misses ownPrefix
      [(['a'], "@mixin x-a \x7b\x7d .c-b \x7b @include x-a; \x7d".toList)]
      [['a']] "x-a".toList ∧
    Misses {}
      [(['a'],
        "/** @name c-b */ @mixin c-a \x7b\x7d .c-d \x7b @include c-a; \x7d".toList)]
      [['a']] "c-a".toList ∧
    Misses {}
      [(['a'],
        "@mixin c-a\\.u-b \x7b\x7d .c-d \x7b @include c-a\\.u-b; \x7d".toList)]
          [['a']]
      "c-a\\.u-b".toList := by
  unfold Misses ReportsInclude
  refine ⟨?_, ?_, ?_⟩ <;> decide +kernel

end Conformance

end StyleAudit
