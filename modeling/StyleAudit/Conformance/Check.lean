import StyleAudit.Conformance.Contract
import StyleAudit.Registry.Basic
import StyleAudit.Settings

/-!
# Conformance to interfaces

A declaration that claims to implement an interface must have its members, with
the types that the interface gives them, and its modifiers.  What it has beyond
these does not matter.
-/

namespace StyleAudit

namespace Conformance

/-- The diagnostic for a name that is no interface. -/
def notAnInterface (settings : Settings) (declaration : Declaration)
    (name : Text) (found : Declaration) : Diagnostic :=
  { severity := settings.unresolvedImplementsSeverity,
    code := .unresolvedReference,
    message :=
      s!"`{declaration.name.shown}` implements `{name.shown}`, which is a " ++
      s!"{found.kind.word.shown} and not an interface",
    location := declaration.location,
    related := [⟨found.location, s!"`{name.shown}` declared here"⟩] }

/-- The diagnostic for a name that is not declared. -/
def unknownInterface (settings : Settings) (declaration : Declaration)
    (name : Text) : Diagnostic :=
  { severity := settings.unresolvedImplementsSeverity,
    code := .unresolvedReference,
    message :=
      s!"`{declaration.name.shown}` implements unknown interface `{name.shown}`",
    location := declaration.location }

/-- The note that tells where an interface is. -/
def interfaceNote (interface : Declaration) (name : Text) : Note :=
  ⟨interface.location, s!"interface `{name.shown}` declared here"⟩

/-- What is wrong with a member of an implementer. -/
def memberDiagnostic? (settings : Settings) (declaration : Declaration)
    (doc : Doc.Block) (interface : Declaration) (name : Text)
    (member : Contract.Member) : Option Diagnostic :=
  if !doc.hasMember member.name then
    some
      { severity := if member.required then .error else .warning,
        code := .interfaceConformance,
        message := s!"missing member: {member.name.shown} " ++
          s!"(`{declaration.name.shown}` implements `{name.shown}`)",
        location := declaration.location,
        related := [interfaceNote interface name] }
  else
    match member.type, doc.memberType? member.name with
    | some expected, some actual =>
      if expected = actual then none
      else
        some
          { severity := settings.typeMismatchSeverity, code := .typeMismatch,
            message :=
              s!"member `{member.name.shown}` has type `{actual.shown}` but " ++
              s!"`{name.shown}` expects `{expected.shown}`",
            location := declaration.location,
            related := [interfaceNote interface name] }
    | _, _ => none

/-- Does an implementer lack a modifier? -/
def modifierDiagnostic? (declaration : Declaration) (interface : Declaration)
    (name : Text) (modifier : Doc.Modifier) : Option Diagnostic :=
  if declaration.modifierNames.contains modifier.name then none
  else
    some
      { severity := .error, code := .interfaceConformance,
        message := s!"missing modifier: {modifier.name.shown} " ++
          s!"(`{declaration.name.shown}` implements `{name.shown}`)",
        location := declaration.location,
        related := [interfaceNote interface name] }

/-- What an implementer lacks of an interface that has a doc block. -/
def compare (settings : Settings) (declaration : Declaration) (doc : Doc.Block)
    (interface : Declaration) (interfaceDoc : Doc.Block) (name : Text) :
    List Diagnostic :=
  (Contract.ofBlock interfaceDoc).filterMap
      (memberDiagnostic? settings declaration doc interface name) ++
    interfaceDoc.modifiers.filterMap
      (modifierDiagnostic? declaration interface name)

/-- Checks a declaration against the interface that it claims to implement. -/
def check (settings : Settings) (registry : Registry)
    (declaration : Declaration) : List Diagnostic :=
  match declaration.doc with
  | none => []
  | some doc =>
    match doc.implements with
    | none => []
    | some name =>
      match registry.lookup? name with
      | none => [unknownInterface settings declaration name]
      | some found =>
        if found.isInterface then
          match found.doc with
          | none => []
          | some interfaceDoc =>
            compare settings declaration doc found interfaceDoc name
        else [notAnInterface settings declaration name found]

/-- The name of a mixin without the module in front of it. -/
def mixinName (name : Text) : Text :=
  ((Text.splitLast? '.' name).map Prod.snd).getD name

/-- Does the name have an accepted type prefix? -/
def hasTypePrefix (settings : Settings) (name : Text) : Bool :=
  (Text.splitFirst? (· == '-') name).any fun parts => settings.allows parts.1

/-- The diagnostic for an include of a mixin that is not declared.  Only names
with a type prefix are looked up. -/
def includeDiagnostic? (settings : Settings) (registry : Registry)
    (reference : IncludeReference) : Option Diagnostic :=
  let name := mixinName reference.name
  if hasTypePrefix settings name && !registry.contains name then
    some
      { severity := .warning, code := .unresolvedInclude,
        message :=
          s!"`@include {reference.name.shown}` refers to an undeclared mixin",
        location := reference.location }
  else none

/-- Checks everything that the files of a registry include. -/
def checkIncludes (settings : Settings) (registry : Registry) :
    List Diagnostic :=
  registry.files.flatMap fun file =>
    file.includes.filterMap (includeDiagnostic? settings registry)

/-- Checks all declarations of a registry, then all includes. -/
def checkAll (settings : Settings) (registry : Registry) : List Diagnostic :=
  registry.allDeclarations.flatMap (check settings registry) ++
    checkIncludes settings registry

end Conformance

end StyleAudit
