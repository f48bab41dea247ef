import StyleAudit.MessagePack.Value
import StyleAudit.Text.Order

/-!
# Records in MessagePack

How structured data is laid out in a message.  A record is a map from the names
of its fields, or an array of all its fields in order; a choice is the name of
what is chosen, or its number.  Fields that a record does not know are passed
over.  Binary data may stand where a list or a record does: each byte is then a
number, and a record takes as many bytes as it has fields and leaves the others
alone.
-/

namespace StyleAudit

namespace MessagePack

/-- The bytes of a text. -/
def textBytes (text : Text) : Bytes :=
  text.flatMap String.utf8EncodeChar

/-- The text that bytes stand for, if they are well formed. -/
def ofTextBytes? (bytes : Bytes) : Option Text :=
  bytes.toByteArray.utf8Decode?.map Array.toList

namespace Value

/-! ### Writing -/

/-- A text as a value. -/
def ofText (text : Text) : Value :=
  .text (textBytes text)

/-- A value, or nothing. -/
def ofOption {α : Type} (write : α → Value) : Option α → Value
  | none => .nil
  | some a => write a

/-- A list as a value. -/
def ofList {α : Type} (write : α → Value) (list : List α) : Value :=
  .array (list.map write)

/-- Keys with their values. -/
def ofEntries {α : Type} (write : α → Value) (entries : List (Text × α)) :
    Value :=
  .map (entries.map fun entry => (ofText entry.1, write entry.2))

/-- A record, field by field. -/
def ofFields (fields : List (String × Value)) : Value :=
  .map (fields.map fun field => (ofText field.1.toList, field.2))

/-! ### Reading -/

/-- A text. -/
def text? : Value → Option Text
  | .text bytes => ofTextBytes? bytes
  | .binary bytes => ofTextBytes? bytes
  | _ => none

/-- A truth value. -/
def bool? : Value → Option Bool
  | .bool value => some value
  | _ => none

/-- A natural number below a bound, with or without a sign in front. -/
def natural? (bound : Nat) : Value → Option Nat
  | .unsigned n => if n < bound then some n else none
  | .signed n => if 0 ≤ n ∧ n.toNat < bound then some n.toNat else none
  | _ => none

/-- A value that may be absent. -/
def option? {α : Type} (read : Value → Option α) : Value → Option (Option α)
  | .nil => some none
  | value => (read value).map some

/-- The numbers that bytes are. -/
def ofBytes (bytes : Bytes) : List Value :=
  bytes.map fun byte => .unsigned byte.toNat

/-- A list. -/
def list? {α : Type} (read : Value → Option α) : Value → Option (List α)
  | .array items => items.mapM read
  | .binary bytes => (ofBytes bytes).mapM read
  | _ => none

/-- Keys with their values, sorted by key.  Of equal keys the last one
counts. -/
def entries? {α : Type} (read : Value → Option α) :
    Value → Option (List (Text × α))
  | .map entries =>
    (entries.mapM fun (entry : Value × Value) => do
      pure (← entry.1.text?, ← read entry.2)).map Text.sortedEntries
  | _ => none

/-- The place of a name in a list of names, when it is given by name or by
number. -/
def place? (names : List Text) : Value → Option Nat
  | .text bytes => names.findIdx? fun name => textBytes name == bytes
  | .binary bytes => names.findIdx? fun name => textBytes name == bytes
  | .unsigned n => if n < names.length then some n else none
  | _ => none

/-- One of several choices: its name or number, alone or as the only key of a
map to nothing. -/
def choice? {α : Type} (choices : List (Text × α)) (value : Value) : Option α :=
  let tag := match value with
    | .map [(key, .nil)] => key
    | other => other
  (tag.place? (choices.map (·.1))).bind fun place => choices[place]?.map (·.2)

/-- Can the value be the name of a field? -/
def isFieldName : Value → Bool
  | .text _ => true
  | .binary _ => true
  | .unsigned _ => true
  | _ => false

end Value

/-- The fields of a record, by their places. -/
abbrev Record := List (Nat × Value)

namespace Record

/-- The fields that the entries of a map give, none of them twice. -/
def ofEntries? (names : List Text) : Record → List (Value × Value) →
    Option Record
  | record, [] => some record
  | record, (key, value) :: rest =>
    if key.isFieldName then
      match key.place? names with
      | none => ofEntries? names record rest
      | some place =>
        if (record.lookup place).isSome then none
        else ofEntries? names (record ++ [(place, value)]) rest
    else none

/-- The record whose fields are given in order. -/
def ofItems (count : Nat) (items : List Value) : Record :=
  (List.range count).zip items

/-- The record with fields of the given names. -/
def ofValue? (names : List String) : Value → Option Record
  | .map entries => ofEntries? (names.map String.toList) [] entries
  | .array items =>
    if items.length = names.length then some (ofItems names.length items)
    else none
  | .binary bytes =>
    if names.length ≤ bytes.length then
      some (ofItems names.length (Value.ofBytes bytes))
    else none
  | _ => none

/-- A field that must be there. -/
def required? {α : Type} (record : Record) (place : Nat)
    (read : Value → Option α) : Option α :=
  (record.lookup place).bind read

/-- A field that may be absent. -/
def optional? {α : Type} (record : Record) (place : Nat)
    (read : Value → Option α) : Option (Option α) :=
  match record.lookup place with
  | none => some none
  | some value => value.option? read

end Record

end MessagePack

end StyleAudit
