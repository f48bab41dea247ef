import StyleAudit.ClassName.Check
import StyleAudit.Declaration.Basic

/-!
# The names of declarations

A declaration at the top of a file is checked by its selector, or by its name if
it is a mixin or a function.  Later blocks of it are checked by their selectors,
and the elements inside it by how deep they stand.  Interfaces and objects may
be named freely.
-/

namespace StyleAudit

namespace Naming

/-- May declarations of this kind be named freely? -/
def isFree (kind : DeclarationKind) : Bool :=
  kind == .interface || kind == .object

/-- What is wrong with the name of a declaration. -/
def ownViolations (settings : Settings) (declaration : Declaration) :
    List Violation :=
  let kind := declaration.kind
  if isFree kind then []
  else if declaration.isAtRule then
    if kind = .component ∨ kind = .utility then
      ClassName.violations settings kind declaration.name
    else []
  else if (Selector.classNames declaration.signature).isEmpty &&
      !settings.validateBareSelectors then []
  else Selector.violations settings kind declaration.signature

/-- What is wrong with the selectors of the later blocks of a declaration. -/
def reopenedDiagnostics (settings : Settings) (declaration : Declaration) :
    List Diagnostic :=
  if isFree declaration.kind then []
  else
    (declaration.children.filter (·.nesting = .reopened)).flatMap fun part =>
      (Selector.violations settings declaration.kind part.signature).map
        (·.toDiagnostic part.location)

/-- The number of elements around and including a declaration that stands at a
level. -/
def levelOf (nesting : Nesting) (level : Nat) : Nat :=
  match nesting with
  | .element => level + 1
  | .modifier | .reopened => level
  | .root | .nested => 0

/-- Does an element stand too deep? -/
def levelViolation? (settings : Settings) (name : Text) (nesting : Nesting)
    (level : Nat) : Option Violation :=
  if nesting = .element ∧ settings.maxElementDepth < level then
    let parts := ClassName.parse settings name
    if settings.maxElementDepth < parts.elements.length then
      some (ClassName.elementCount settings name parts)
    else some (.elementLevel name level settings.maxElementDepth)
  else none

mutual

/-- The elements that stand too deep in a declaration which stands at a level,
itself included. -/
def levelDiagnostics (settings : Settings) (level : Nat) :
    Declaration → List Diagnostic
  | ⟨_, name, _, location, _, children, nesting, _⟩ =>
    ((levelViolation? settings name nesting (levelOf nesting level)).toList.map
      (·.toDiagnostic location)) ++
      levelDiagnosticsList settings (levelOf nesting level) children

/-- The elements that stand too deep in declarations which stand at a level. -/
def levelDiagnosticsList (settings : Settings) (level : Nat) :
    List Declaration → List Diagnostic
  | [] => []
  | declaration :: rest =>
    levelDiagnostics settings level declaration ++
      levelDiagnosticsList settings level rest

end

/-- The level at which the block of a declaration begins: a rule for an element
already stands inside it. -/
def baseLevel (settings : Settings) (declaration : Declaration) : Nat :=
  if declaration.isAtRule then 0
  else (ClassName.parse settings declaration.name).elements.length

/-- What is wrong with the names in a declaration at the top of a file. -/
def check (settings : Settings) (declaration : Declaration) : List Diagnostic :=
  (ownViolations settings declaration).map
    (·.toDiagnostic declaration.location) ++
    reopenedDiagnostics settings declaration ++
    levelDiagnosticsList settings (baseLevel settings declaration)
      declaration.children

end Naming

end StyleAudit
