import StyleAudit.SourceFile.Contents
import StyleAudit.Stylesheet.Basic

/-!
# Reading source files

The nodes at the top of a stylesheet become its declarations.  A rule is
declared if it is documented or names a class; a mixin or function, if it is
documented or its name has a type prefix; any at-rule, if it is documented as an
interface.  Rules in conditional at-rules count as standing at the top.  An
undocumented rule for a class that an earlier rule of the file declares does not
declare it again: it reopens it.
-/

namespace StyleAudit

namespace SourceFile

/-- What is known of a file in the middle of reading it. -/
structure Draft where
  declarations : List Declaration := []
  imports : List ImportReference := []
  includes : List IncludeReference := []
  diagnostics : List Diagnostic := []
deriving Repr

/-- Changes the first member of a list that has a property. -/
def updateFirst {α : Type} (found : α → Bool) (change : α → α) : List α → List α
  | [] => []
  | a :: rest =>
    if found a then change a :: rest else a :: updateFirst found change rest

/-- Is the declaration a rule that a rule for the class `name` reopens? -/
def isReopenedBy (name : Text) (declaration : Declaration) : Bool :=
  declaration.name == name && !declaration.isAtRule

/-- The kind of a declaration: the one its doc block gives, the one its name
tells, an object if it is a function that is documented to return something, or
unknown. -/
def declaredKind (doc : Option Doc.Block) (name : Text) (isFunction : Bool) :
    DeclarationKind :=
  ((doc.bind (·.kind)).or (DeclarationKind.ofName? name)).getD
    (if isFunction && (doc.bind (·.returns)).isSome then .object else .unknown)

namespace Draft

/-- Adds a declaration with the given block. -/
def declare (draft : Draft) (declaration : Declaration) (contents : Contents) :
    Draft :=
  { draft with
    declarations := draft.declarations ++
      [{ declaration with
          children := contents.children,
          includes := contents.includes }],
    includes := draft.includes ++ contents.references,
    diagnostics := draft.diagnostics ++ contents.diagnostics }

/-- Declares a rule. -/
def declareRule (draft : Draft) (file selector : Text) (doc : Option Doc.Block)
    (children : List Node) (span : Span) : Draft :=
  let name :=
    ((doc.bind (·.name)).or (Selector.firstClass? selector)).getD selector
  let kind := declaredKind doc name false
  draft.declare
    { kind, name, signature := selector, location := ⟨file, span⟩, doc,
      children := [], nesting := .root, includes := [] }
    (blockContents file name kind children)

/-- Reopens an earlier rule: the block becomes a part of it, and what the block
includes is credited to it. -/
def reopen (draft : Draft) (file selector : Text) (earlier : Declaration)
    (children : List Node) (span : Span) : Draft :=
  let contents := blockContents file earlier.name earlier.kind children
  let part : Declaration :=
    { kind := earlier.kind, name := earlier.name, signature := selector,
      location := ⟨file, span⟩, doc := none, children := contents.children,
      nesting := .reopened, includes := [] }
  { draft with
    declarations := updateFirst (isReopenedBy earlier.name)
      (fun declaration =>
        { declaration with
          children := declaration.children ++ [part],
          includes := declaration.includes ++ contents.includes })
      draft.declarations,
    includes := draft.includes ++ contents.references,
    diagnostics := draft.diagnostics ++ contents.diagnostics }

/-- Adds a rule at the top of the file. -/
def addRule (draft : Draft) (file selector : Text) (comment : Option Comment)
    (children : List Node) (span : Span) : Draft :=
  let (doc, diagnostics) := readDoc file comment
  let noted := { draft with diagnostics := draft.diagnostics ++ diagnostics }
  let name := Selector.firstClass? selector
  let earlier :=
    name.bind fun name => draft.declarations.find? (isReopenedBy name)
  match doc, earlier with
  | none, some earlier => noted.reopen file selector earlier children span
  | _, _ =>
    if doc.isSome || name.isSome then
      noted.declareRule file selector doc children span
    else
      { noted with includes := noted.includes ++ blockReferences file children }

/-- Is the at-rule declared? -/
def isDeclared (rule : AtRule) (comment : Option Comment) : Bool :=
  let callable := rule.keyword == "mixin".toList ||
    rule.keyword == "function".toList
  let prefixed := (rule.name.bind DeclarationKind.ofName?).isSome
  (callable && (comment.isSome || prefixed)) ||
    comment.any fun comment => (Doc.extract comment.text).block.isInterface

/-- Declares an at-rule. -/
def declareAtRule (draft : Draft) (file : Text) (rule : AtRule)
    (comment : Option Comment) (body : List Node) (span : Span) : Draft :=
  let (doc, diagnostics) := readDoc file comment
  let name := ((doc.bind (·.name)).or rule.name).getD rule.prelude
  let kind := declaredKind doc name (rule.keyword == "function".toList)
  let noted := { draft with diagnostics := draft.diagnostics ++ diagnostics }
  noted.declare
    { kind, name,
      signature := Text.trimEnd ('@' :: rule.keyword ++ ' ' :: rule.prelude),
      location := ⟨file, span⟩, doc, children := [], nesting := .root,
      includes := [] }
    (blockContents file name kind body)

/-- Notes that the comment on an at-rule documents nothing. -/
def noteIdleDoc (draft : Draft) (file : Text) (rule : AtRule)
    (comment : Option Comment) : Draft :=
  { draft with
    diagnostics := draft.diagnostics ++ comment.toList.map fun comment =>
      { severity := .info, code := .orphanComment,
        message :=
          s!"doc comment on @{rule.keyword.shown} does not document a declaration",
        location := ⟨file, comment.span⟩ } }

/-- Adds the stylesheets that an import names. -/
def addImports (draft : Draft) (file : Text) (kind : ImportKind)
    (targets : List ImportTarget) : Draft :=
  { draft with
    imports := draft.imports ++ targets.map fun target =>
      { target := target.path, kind, plainCss := target.plainCss,
        location := ⟨file, target.span⟩ } }

/-- The at-rules whose rules count as standing outside of them. -/
def isConditional (rule : AtRule) : Bool :=
  ["media", "supports", "layer", "container", "at-root"].any fun word =>
    rule.keyword == word.toList

mutual

/-- Adds a node at the top of the file. -/
def addNode (file : Text) (draft : Draft) : Node → Draft
  | .rule selector comment children span =>
    draft.addRule file selector comment children span
  | .atRule rule comment none span =>
    if isDeclared rule comment then
      draft.declareAtRule file rule comment [] span
    else draft.noteIdleDoc file rule comment
  | .atRule rule comment (some body) span =>
    if isDeclared rule comment then
      draft.declareAtRule file rule comment body span
    else
      let noted := draft.noteIdleDoc file rule comment
      if isConditional rule then addNodes file noted body
      else
        { noted with includes := noted.includes ++ blockReferences file body }
  | .importing kind targets _ => draft.addImports file kind targets
  | .including name arguments body span =>
    { draft with
      includes := draft.includes ++
        nodeReferences file (.including name arguments body span) }

/-- Adds nodes at the top of the file. -/
def addNodes (file : Text) (draft : Draft) : List Node → Draft
  | [] => draft
  | node :: rest => addNodes file (addNode file draft node) rest

end

end Draft

/-- What is said about a comment that documents nothing. -/
def orphanMessage : OrphanReason → String
  | .superseded =>
    "comment is followed by another comment and documents nothing"
  | .notDeclarable => "doc comment is not followed by a declaration"
  | .trailing => "doc comment at the end of a block documents nothing"

/-- The diagnostic for a comment that documents nothing. -/
def orphanDiagnostic (file : Text) (orphan : Orphan) : Diagnostic :=
  { severity := .info, code := .orphanComment,
    message := orphanMessage orphan.reason, location := ⟨file, orphan.span⟩ }

/-- A file together with what was found while reading it. -/
structure Reading where
  file : SourceFile
  diagnostics : List Diagnostic
deriving DecidableEq, Repr

/-- The file with the given stylesheet. -/
def ofStylesheet (id text : Text) (sheet : Stylesheet) : Reading :=
  let draft := Draft.addNodes id
    { diagnostics := sheet.orphans.map (orphanDiagnostic id) } sheet.nodes
  { file :=
      { id, text, declarations := draft.declarations, imports := draft.imports,
        includes := draft.includes },
    diagnostics := draft.diagnostics }

/-- Reads a file. -/
def read (id text : Text) : Except Failure Reading :=
  match Stylesheet.read text with
  | .ok sheet => .ok (ofStylesheet id text sheet)
  | .error failure =>
    .error
      { failure with
        context := some { file := some id, stage := some "parse" } }

end SourceFile

end StyleAudit
