import StyleAudit.MessagePack.Value

/-!
# Reading MessagePack

A value is read from the front of the bytes, and what follows it is handed back.
Arrays, maps and extensions may nest only so deep; an extension counts although
nothing is read inside it.
-/

namespace StyleAudit

namespace MessagePack

/-- Something that is read from the front of bytes. -/
abbrev Reader (α : Type) := Bytes → Option (α × Bytes)

namespace Reader

/-- A number without sign in so many bytes. -/
def natural (width : Nat) : Reader Nat := fun bytes =>
  (Bytes.split? width bytes).map fun parts => (Bytes.toNat parts.1, parts.2)

/-- The same thing so many times. -/
def many {α : Type} (reader : Reader α) : (count : Nat) → Reader (List α)
  | 0, bytes => some ([], bytes)
  | count + 1, bytes => do
    let (item, rest) ← reader bytes
    let (items, rest) ← many reader count rest
    pure (item :: items, rest)

/-- One thing, then another. -/
def pair {α β : Type} (first : Reader α) (second : Reader β) : Reader (α × β) :=
  fun bytes => do
  let (a, rest) ← first bytes
  let (b, rest) ← second rest
  pure ((a, b), rest)

end Reader

/-- What follows the size of a value.  Where nesting has reached its limit there
is no reader for what is inside, and arrays, maps and extensions are refused,
empty ones too. -/
def decodeSized (inner : Option (Reader Value)) : (shape : Shape) →
    (size : Nat) → Reader Value
  | .text, size =>
    fun bytes => (Bytes.split? size bytes).map fun parts =>
      (.text parts.1, parts.2)
  | .binary, size => fun bytes =>
    (Bytes.split? size bytes).map fun parts => (.binary parts.1, parts.2)
  | .extension, size => fun bytes => do
    let _ ← inner
    let (payload, rest) ← Bytes.split? (size + 1) bytes
    pure (.extension payload, rest)
  | .array, size => fun bytes => do
    let (items, rest) ← (← inner).many size bytes
    pure (.array items, rest)
  | .map, size => fun bytes => do
    let (entries, rest) ← (Reader.pair (← inner) (← inner)).many size bytes
    pure (.map entries, rest)

/-- What follows the first byte of a value. -/
def decodeMarked (inner : Option (Reader Value)) : Marker → Reader Value
  | .nil => fun bytes => some (.nil, bytes)
  | .bool value => fun bytes => some (.bool value, bytes)
  | .fixed n => fun bytes => some (.unsigned n, bytes)
  | .fixedNegative n => fun bytes => some (.signed n, bytes)
  | .unsigned width => fun bytes =>
    (Reader.natural width bytes).map fun parts => (.unsigned parts.1, parts.2)
  | .signed width => fun bytes =>
    (Bytes.split? width bytes).map fun parts =>
      (.signed (Bytes.toInt parts.1), parts.2)
  | .float width => fun bytes =>
    (Bytes.split? width bytes).map fun parts => (.float parts.1, parts.2)
  | .sized shape size => decodeSized inner shape size
  | .measured shape width => fun bytes => do
    let (size, rest) ← Reader.natural width bytes
    decodeSized inner shape size rest

/-- A value, given how to read what is inside it. -/
def decodeWith (inner : Option (Reader Value)) : Reader Value
  | [] => none
  | byte :: rest => do decodeMarked inner (← Marker.ofByte? byte) rest

/-- A value in which arrays, maps and extensions nest at most so deep. -/
def decode : (depth : Nat) → Reader Value
  | 0 => decodeWith none
  | depth + 1 => decodeWith (some (decode depth))

end MessagePack

end StyleAudit
