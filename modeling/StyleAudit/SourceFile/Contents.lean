import StyleAudit.Diagnostic.Basic
import StyleAudit.Doc.Extract
import StyleAudit.Selector
import StyleAudit.SourceFile.Basic

/-!
# What the block of a declaration holds

Rules in the block of a declaration are declarations inside it, however many
at-rules and include blocks stand in between.  Each include is recorded, and
credited to the innermost declaration.
-/

namespace StyleAudit

namespace SourceFile

/-- A doc comment read for a declaration of a file, with what is wrong with
it. -/
def readDoc (file : Text) : Option Comment → Option Doc.Block × List Diagnostic
  | none => (none, [])
  | some comment =>
    let extraction := Doc.extract comment.text
    (some extraction.block,
      extraction.issues.map fun issue =>
        { severity := .warning,
          code :=
            if issue.cause.isRepeated then .duplicateTag else .malformedTag,
          message := issue.cause.message,
          location := ⟨file, issue.locate comment.span⟩ })

/-- What a block adds to the declaration around it and to the file. -/
structure Contents where
  /-- The declarations directly inside. -/
  children : List Declaration := []
  /-- The mixins credited to the declaration. -/
  includes : List Text := []
  /-- All includes, in order. -/
  references : List IncludeReference := []
  diagnostics : List Diagnostic := []
deriving Repr

namespace Contents

/-- The contents of one part of a block and then of another. -/
def append (left right : Contents) : Contents :=
  { children := left.children ++ right.children,
    includes := left.includes ++ right.includes,
    references := left.references ++ right.references,
    diagnostics := left.diagnostics ++ right.diagnostics }

/-- A single include. -/
def ofInclude (file name : Text) (span : Span) : Contents :=
  { includes := [name], references := [⟨name, ⟨file, span⟩⟩] }

end Contents

/-- Where a rule with the given selector stands in the rule around it. -/
def nestingOf (selector : Text) : Nesting :=
  match Selector.suffix? selector with
  | some (.element _) => .element
  | some (.modifier _) => .modifier
  | none => .nested

/-- The name of a rule inside another: the one its doc block gives, the outer
name with the suffix of its selector, its first class, or its selector. -/
def childName (outer selector : Text) (doc : Option Doc.Block) : Text :=
  (((doc.bind (·.name)).or
    ((Selector.suffix? selector).map fun suffix => outer ++ suffix.text)).or
      (Selector.firstClass? selector)).getD selector

/-- The kind of a rule inside another: the one its doc block gives, or the outer
one. -/
def childKind (outer : DeclarationKind) (doc : Option Doc.Block) :
    DeclarationKind :=
  (doc.bind (·.kind)).getD outer

mutual

/-- What a node adds to the declaration around it, which has the given name and
kind. -/
def nodeContents (file name : Text) (kind : DeclarationKind) : Node → Contents
  | .rule selector comment children span =>
    let (doc, diagnostics) := readDoc file comment
    let own := childName name selector doc
    let inner := blockContents file own (childKind kind doc) children
    { children :=
        [{ kind := childKind kind doc, name := own, signature := selector,
           location := ⟨file, span⟩, doc, children := inner.children,
           nesting := nestingOf selector, includes := inner.includes }],
      references := inner.references,
      diagnostics := diagnostics ++ inner.diagnostics }
  | .including included _ (some body) span =>
    (Contents.ofInclude file included span).append
      (blockContents file name kind body)
  | .including included _ none span => .ofInclude file included span
  | .atRule _ _ (some body) _ => blockContents file name kind body
  | .atRule _ _ none _ => {}
  | .importing _ _ _ => {}

/-- What the nodes of a block add to the declaration around it. -/
def blockContents (file name : Text) (kind : DeclarationKind) :
    List Node → Contents
  | [] => {}
  | node :: rest =>
    (nodeContents file name kind node).append
      (blockContents file name kind rest)

end

mutual

/-- The includes in a node that belongs to no declaration. -/
def nodeReferences (file : Text) : Node → List IncludeReference
  | .rule _ _ children _ => blockReferences file children
  | .including name _ (some body) span =>
    ⟨name, ⟨file, span⟩⟩ :: blockReferences file body
  | .including name _ none span => [⟨name, ⟨file, span⟩⟩]
  | .atRule _ _ (some body) _ => blockReferences file body
  | .atRule _ _ none _ => []
  | .importing _ _ _ => []

/-- The includes in nodes that belong to no declaration. -/
def blockReferences (file : Text) : List Node → List IncludeReference
  | [] => []
  | node :: rest => nodeReferences file node ++ blockReferences file rest

end

end SourceFile

end StyleAudit
