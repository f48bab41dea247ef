import StyleAudit.MessagePack.Encode
import StyleAudit.MessagePack.Record
import StyleAudit.Registry.Basic

/-!
# Registries laid out in MessagePack

A registry is laid out as one value: records are maps from the names of their
fields, in order, and choices stand there by their words.  The names of the
fields of each record stand here once, for writing and for reading.
-/

namespace StyleAudit

namespace Snapshot

open MessagePack (Value)

/-- Offsets and numbers of things stay below this. -/
def wordBound : Nat := 0x10000000000000000

/-- Lines and columns stay below this. -/
def halfWordBound : Nat := 0x100000000

/-- A record whose fields have the given names. -/
def record (names : List String) (values : List Value) : Value :=
  .ofFields (names.zip values)

def registryFields : List String := ["files", "names"]

def referenceFields : List String := ["file", "index"]

def fileFields : List String :=
  ["id", "text", "declarations", "imports", "includes"]

def declarationFields : List String :=
  ["kind", "name", "signature", "span", "doc", "children",
    "nesting", "includes"]

def locationFields : List String := ["file", "span"]

def spanFields : List String :=
  ["start", "end", "line", "column", "end_line", "end_column"]

def blockFields : List String :=
  ["kind", "name", "description", "params", "props", "modifiers",
    "implements", "returns", "extensions"]

def parameterFields : List String :=
  ["name", "ty", "optional", "default", "description"]

def propertyFields : List String := ["name", "ty", "description"]

def modifierFields : List String := ["name", "description"]

def importFields : List String := ["target", "kind", "plain_css", "span"]

def includeFields : List String := ["name", "span"]

/-- The word for an import kind. -/
def importWord : ImportKind → Text
  | .load => "Import".toList
  | .use => "Use".toList
  | .forward => "Forward".toList

/-- The word for a nesting. -/
def nestingWord : Nesting → Text
  | .root => "Root".toList
  | .element => "Element".toList
  | .modifier => "Modifier".toList
  | .nested => "Nested".toList
  | .reopened => "Reopened".toList

def packSpan (span : Span) : Value :=
  record spanFields
    [.unsigned span.start.offset, .unsigned span.stop.offset,
      .unsigned span.start.line, .unsigned span.start.column,
      .unsigned span.stop.line, .unsigned span.stop.column]

def packLocation (location : Location) : Value :=
  record locationFields [.ofText location.file, packSpan location.span]

def packParameter (parameter : Doc.Parameter) : Value :=
  record parameterFields
    [.ofText parameter.name, .ofOption .ofText parameter.type,
      .bool parameter.optional, .ofOption .ofText parameter.default,
      .ofText parameter.description]

def packProperty (property : Doc.Property) : Value :=
  record propertyFields
    [.ofText property.name, .ofOption .ofText property.type,
      .ofText property.description]

def packModifier (modifier : Doc.Modifier) : Value :=
  record modifierFields [.ofText modifier.name, .ofText modifier.description]

def packBlock (block : Doc.Block) : Value :=
  record blockFields
    [.ofOption (fun kind => .ofText kind.word) block.kind,
      .ofOption .ofText block.name, .ofText block.description,
      .ofList packParameter block.parameters,
      .ofList packProperty block.properties,
      .ofList packModifier block.modifiers,
      .ofOption .ofText block.implements, .ofOption .ofText block.returns,
      .ofEntries (.ofList .ofText) block.extensions]

mutual

/-- A declaration with all that is inside it. -/
def packDeclaration : Declaration → Value
  | ⟨kind, name, signature, location, doc, children, nesting, includes⟩ =>
    record declarationFields
      [.ofText kind.word, .ofText name, .ofText signature,
        packLocation location, .ofOption packBlock doc,
        .array (packDeclarations children), .ofText (nestingWord nesting),
        .ofList .ofText includes]

/-- Declarations one by one. -/
def packDeclarations : List Declaration → List Value
  | [] => []
  | declaration :: rest => packDeclaration declaration :: packDeclarations rest

end

def packImport (reference : ImportReference) : Value :=
  record importFields
    [.ofText reference.target, .ofText (importWord reference.kind),
      .bool reference.plainCss, packLocation reference.location]

def packInclude (reference : IncludeReference) : Value :=
  record includeFields [.ofText reference.name, packLocation reference.location]

def packFile (file : SourceFile) : Value :=
  record fileFields
    [.ofText file.id, .ofText file.text,
      .array (packDeclarations file.declarations),
      .ofList packImport file.imports, .ofList packInclude file.includes]

def packReference (reference : DeclarationReference) : Value :=
  record referenceFields [.unsigned reference.file, .unsigned reference.index]

/-- A registry as one value. -/
def pack (registry : Registry) : Value :=
  record registryFields
    [.ofList packFile registry.files, .ofEntries packReference registry.names]

/-- The message of a registry. -/
def encode (registry : Registry) : Bytes :=
  MessagePack.encode (pack registry)

end Snapshot

end StyleAudit
