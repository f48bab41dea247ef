import StyleAudit.Diagnostic.Basic
import StyleAudit.Text.Order

/-!
# Settings

What a project may choose: the type prefixes and namespaces of its class names,
how deep elements may nest, and how serious two kinds of finding are.
-/

namespace StyleAudit

/-- The choices of a project. -/
structure Settings where
  /-- The accepted type prefixes, sorted. -/
  allowedPrefixes : List Text := [['c'], ['u']]
  /-- How many elements a class name may nest. -/
  maxElementDepth : Nat := 1
  /-- Is an unknown interface an error? -/
  unresolvedImplementsAsError : Bool := true
  /-- How serious a difference between two member types is. -/
  typeMismatchSeverity : Severity := .warning
  /-- The known namespaces after a type prefix, sorted. -/
  namespaces : List Text := []
  /-- Are selectors without a class checked too? -/
  validateBareSelectors : Bool := false
deriving DecidableEq, Repr

namespace Settings

/-- How serious an unknown interface is. -/
def unresolvedImplementsSeverity (settings : Settings) : Severity :=
  if settings.unresolvedImplementsAsError then .error else .warning

/-- Is the prefix one of the accepted ones? -/
def allows (settings : Settings) (typePrefix : Text) : Bool :=
  settings.allowedPrefixes.contains typePrefix

/-- The settings with other type prefixes. -/
def withPrefixes (settings : Settings) (prefixes : List Text) : Settings :=
  { settings with allowedPrefixes := Text.sortedSet prefixes }

/-- The settings with other namespaces. -/
def withNamespaces (settings : Settings) (names : List Text) : Settings :=
  { settings with namespaces := Text.sortedSet names }

/-- The settings with one more namespace. -/
def addNamespace (settings : Settings) (name : Text) : Settings :=
  { settings with namespaces := Text.insertSorted name settings.namespaces }

end Settings

end StyleAudit
