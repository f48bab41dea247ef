import StyleAudit.MessagePack.Decode
import StyleAudit.Snapshot.Basic
import StyleAudit.Snapshot.Write

/-!
# Reading snapshots

The registry that is laid out in a message.  Bytes after the message are left
alone.  With writing this makes a codec for snapshots.
-/

namespace StyleAudit

namespace Snapshot

open MessagePack (Value Record)

/-- How deep the values of a snapshot may nest. -/
def depthLimit : Nat := 1023

/-- A kind of declaration. -/
def unpackKind? : Value → Option DeclarationKind :=
  Value.choice? (DeclarationKind.all.map fun kind => (kind.word, kind))

/-- A kind of import. -/
def unpackImportKind? : Value → Option ImportKind :=
  Value.choice?
    ([.load, .use, .forward].map fun kind => (importWord kind, kind))

/-- A nesting. -/
def unpackNesting? : Value → Option Nesting :=
  Value.choice?
    ([.root, .element, .modifier, .nested, .reopened].map fun nesting =>
      (nestingWord nesting, nesting))

def unpackSpan? (value : Value) : Option Span := do
  let fields ← Record.ofValue? spanFields value
  let start ← fields.required? 0 (Value.natural? wordBound)
  let stop ← fields.required? 1 (Value.natural? wordBound)
  let line ← fields.required? 2 (Value.natural? halfWordBound)
  let column ← fields.required? 3 (Value.natural? halfWordBound)
  let stopLine ← fields.required? 4 (Value.natural? halfWordBound)
  let stopColumn ← fields.required? 5 (Value.natural? halfWordBound)
  pure ⟨⟨start, line, column⟩, ⟨stop, stopLine, stopColumn⟩⟩

def unpackLocation? (value : Value) : Option Location := do
  let fields ← Record.ofValue? locationFields value
  pure ⟨← fields.required? 0 Value.text?, ← fields.required? 1 unpackSpan?⟩

def unpackParameter? (value : Value) : Option Doc.Parameter := do
  let fields ← Record.ofValue? parameterFields value
  pure ⟨← fields.required? 0 Value.text?, ← fields.optional? 1 Value.text?,
    ← fields.required? 2 Value.bool?, ← fields.optional? 3 Value.text?,
    ← fields.required? 4 Value.text?⟩

def unpackProperty? (value : Value) : Option Doc.Property := do
  let fields ← Record.ofValue? propertyFields value
  pure ⟨← fields.required? 0 Value.text?, ← fields.optional? 1 Value.text?,
    ← fields.required? 2 Value.text?⟩

def unpackModifier? (value : Value) : Option Doc.Modifier := do
  let fields ← Record.ofValue? modifierFields value
  pure ⟨← fields.required? 0 Value.text?, ← fields.required? 1 Value.text?⟩

def unpackBlock? (value : Value) : Option Doc.Block := do
  let fields ← Record.ofValue? blockFields value
  pure ⟨← fields.optional? 0 unpackKind?, ← fields.optional? 1 Value.text?,
    ← fields.required? 2 Value.text?,
    ← fields.required? 3 (Value.list? unpackParameter?),
    ← fields.required? 4 (Value.list? unpackProperty?),
    ← fields.required? 5 (Value.list? unpackModifier?),
    ← fields.optional? 6 Value.text?, ← fields.optional? 7 Value.text?,
    ← fields.required? 8 (Value.entries? (Value.list? Value.text?))⟩

/-- A declaration in which declarations nest less than so deep. -/
def unpackDeclaration? : (depth : Nat) → Value → Option Declaration
  | 0, _ => none
  | depth + 1, value => do
    let fields ← Record.ofValue? declarationFields value
    pure ⟨← fields.required? 0 unpackKind?, ← fields.required? 1 Value.text?,
      ← fields.required? 2 Value.text?, ← fields.required? 3 unpackLocation?,
      ← fields.optional? 4 unpackBlock?,
      ← fields.required? 5 (Value.list? (unpackDeclaration? depth)),
      ← fields.required? 6 unpackNesting?,
      ← fields.required? 7 (Value.list? Value.text?)⟩

def unpackImport? (value : Value) : Option ImportReference := do
  let fields ← Record.ofValue? importFields value
  pure
    ⟨← fields.required? 0 Value.text?, ← fields.required? 1 unpackImportKind?,
      ← fields.required? 2 Value.bool?, ← fields.required? 3 unpackLocation?⟩

def unpackInclude? (value : Value) : Option IncludeReference := do
  let fields ← Record.ofValue? includeFields value
  pure ⟨← fields.required? 0 Value.text?, ← fields.required? 1 unpackLocation?⟩

def unpackFile? (value : Value) : Option SourceFile := do
  let fields ← Record.ofValue? fileFields value
  pure ⟨← fields.required? 0 Value.text?, ← fields.required? 1 Value.text?,
    ← fields.required? 2 (Value.list? (unpackDeclaration? depthLimit)),
    ← fields.required? 3 (Value.list? unpackImport?),
    ← fields.required? 4 (Value.list? unpackInclude?)⟩

def unpackReference? (value : Value) : Option DeclarationReference := do
  let fields ← Record.ofValue? referenceFields value
  pure ⟨← fields.required? 0 (Value.natural? wordBound),
    ← fields.required? 1 (Value.natural? wordBound)⟩

/-- The registry that a value stands for. -/
def unpack? (value : Value) : Option Registry := do
  let fields ← Record.ofValue? registryFields value
  pure ⟨← fields.required? 0 (Value.list? unpackFile?),
    ← fields.required? 1 (Value.entries? unpackReference?)⟩

/-- The registry at the front of bytes, if they hold one. -/
def decode? (bytes : Bytes) : Option Registry := do
  let (value, _) ← MessagePack.decode depthLimit bytes
  unpack? value

/-- Registries in MessagePack.  Why bytes cannot be read is not told. -/
def messagePack : Codec where
  write registry := .ok (encode registry)
  read bytes :=
    match decode? bytes with
    | some registry => .ok registry
    | none => .error ""

/-- The registry that a snapshot in MessagePack keeps. -/
def decode (bytes : Bytes) : Except Failure Registry :=
  restore messagePack bytes

end Snapshot

end StyleAudit
