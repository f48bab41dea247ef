import StyleAudit.Position

/-!
# Diagnostics

A diagnostic is one finding about a stylesheet: how serious it is, which rule it
belongs to, what is wrong, where, and, where the rule can tell, a corrected
name.
-/

namespace StyleAudit

/-- How serious a finding is, the most serious first. -/
inductive Severity where
  | error
  | warning
  | info
deriving DecidableEq, Repr

namespace Severity

/-- All severities, in order. -/
def all : List Severity :=
  [.error, .warning, .info]

/-- The place of the severity in the order. -/
def rank : Severity → Nat
  | .error => 0
  | .warning => 1
  | .info => 2

/-- The word for the severity. -/
def label : Severity → String
  | .error => "error"
  | .warning => "warning"
  | .info => "info"

/-- The severity with the given word. -/
def ofLabel? (label : String) : Option Severity :=
  all.find? (·.label == label)

end Severity

/-- The rule that a finding belongs to, in the order in which findings at one
place are listed. -/
inductive Code where
  | parseError
  | unknownEntry
  | unresolvedImport
  | orphanComment
  | malformedTag
  | duplicateTag
  | missingPrefix
  | unknownPrefix
  | prefixKindMismatch
  | invalidSegment
  | elementDepth
  | multipleModifiers
  | duplicateDeclaration
  | unresolvedReference
  | unresolvedInclude
  | interfaceConformance
  | typeMismatch
deriving DecidableEq, Repr

namespace Code

/-- All codes, in order. -/
def all : List Code :=
  [.parseError, .unknownEntry, .unresolvedImport, .orphanComment, .malformedTag,
    .duplicateTag, .missingPrefix, .unknownPrefix, .prefixKindMismatch,
    .invalidSegment, .elementDepth, .multipleModifiers, .duplicateDeclaration,
    .unresolvedReference, .unresolvedInclude, .interfaceConformance,
    .typeMismatch]

/-- The place of the code in the order. -/
def rank : Code → Nat
  | .parseError => 0
  | .unknownEntry => 1
  | .unresolvedImport => 2
  | .orphanComment => 3
  | .malformedTag => 4
  | .duplicateTag => 5
  | .missingPrefix => 6
  | .unknownPrefix => 7
  | .prefixKindMismatch => 8
  | .invalidSegment => 9
  | .elementDepth => 10
  | .multipleModifiers => 11
  | .duplicateDeclaration => 12
  | .unresolvedReference => 13
  | .unresolvedInclude => 14
  | .interfaceConformance => 15
  | .typeMismatch => 16

/-- The hyphenated word for the code. -/
def label : Code → String
  | .parseError => "parse-error"
  | .unknownEntry => "unknown-entry"
  | .unresolvedImport => "unresolved-import"
  | .orphanComment => "orphan-comment"
  | .malformedTag => "malformed-tag"
  | .duplicateTag => "duplicate-tag"
  | .missingPrefix => "missing-prefix"
  | .unknownPrefix => "unknown-prefix"
  | .prefixKindMismatch => "prefix-kind-mismatch"
  | .invalidSegment => "invalid-segment"
  | .elementDepth => "element-depth"
  | .multipleModifiers => "multiple-modifiers"
  | .duplicateDeclaration => "duplicate-declaration"
  | .unresolvedReference => "unresolved-reference"
  | .unresolvedInclude => "unresolved-include"
  | .interfaceConformance => "interface-conformance"
  | .typeMismatch => "type-mismatch"

/-- The code with the given word. -/
def ofLabel? (label : String) : Option Code :=
  all.find? (·.label == label)

/-- The name of the rule, for people. -/
def ruleName : Code → String
  | .parseError => "file excluded due to parse error"
  | .unknownEntry => "unknown entry file"
  | .unresolvedImport => "unresolved import"
  | .orphanComment => "orphan comment"
  | .malformedTag => "malformed tag"
  | .duplicateTag => "duplicate tag"
  | .missingPrefix => "missing type prefix"
  | .unknownPrefix => "unknown type prefix"
  | .prefixKindMismatch => "prefix does not match declared type"
  | .invalidSegment => "invalid identifier segment"
  | .elementDepth => "element nesting depth exceeded"
  | .multipleModifiers => "multiple modifiers"
  | .duplicateDeclaration => "duplicate declaration"
  | .unresolvedReference => "unresolved reference"
  | .unresolvedInclude => "unresolved include"
  | .interfaceConformance => "interface conformance violation"
  | .typeMismatch => "type mismatch"

end Code

/-- A second place that a finding is about. -/
structure Note where
  /-- The place. -/
  location : Location
  /-- What the place is. -/
  message : String
deriving DecidableEq, Repr

/-- One finding. -/
structure Diagnostic where
  /-- How serious the finding is. -/
  severity : Severity
  /-- The rule it belongs to. -/
  code : Code
  /-- What is wrong. -/
  message : String
  /-- Where it is. -/
  location : Location
  /-- Other places involved. -/
  related : List Note := []
  /-- A corrected name. -/
  suggestion : Option Text := none
deriving DecidableEq, Repr

namespace Diagnostic

/-- Is the finding an error? -/
def isError (diagnostic : Diagnostic) : Bool :=
  diagnostic.severity == .error

/-- The finding on one line. -/
def shown (diagnostic : Diagnostic) : String :=
  s!"{diagnostic.location.shown}: {diagnostic.severity.label}[{diagnostic.code.label}]: " ++
    diagnostic.message

end Diagnostic

end StyleAudit
