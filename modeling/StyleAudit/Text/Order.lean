import StyleAudit.Text.Basic

/-!
# The order of texts

Texts are ordered character by character, by code point, a text before its
extensions.  This is also the order of their UTF-8 encodings.  Sets of texts are
kept as sorted lists.
-/

namespace StyleAudit

namespace Text

/-- Compares two texts by their code points. -/
def compare : Text → Text → Ordering
  | [], [] => .eq
  | [], _ :: _ => .lt
  | _ :: _, [] => .gt
  | a :: left, b :: right =>
    (Ord.compare a.toNat b.toNat).then (compare left right)

/-- Adds a text to a sorted list that holds each text once. -/
def insertSorted (text : Text) : List Text → List Text
  | [] => [text]
  | first :: rest =>
    match compare text first with
    | .lt => text :: first :: rest
    | .eq => first :: rest
    | .gt => first :: insertSorted text rest

/-- The texts of a list in order, each once. -/
def sortedSet (texts : List Text) : List Text :=
  texts.foldr insertSorted []

/-- Puts a value under a key of a list that is sorted by key, in place of the
value that was there. -/
def insertEntry {α : Type} (key : Text) (value : α) : List (Text × α) →
    List (Text × α)
  | [] => [(key, value)]
  | (other, kept) :: rest =>
    match compare key other with
    | .lt => (key, value) :: (other, kept) :: rest
    | .eq => (key, value) :: rest
    | .gt => (other, kept) :: insertEntry key value rest

/-- Keys with their values, sorted by key.  Of equal keys the last one
counts. -/
def sortedEntries {α : Type} (entries : List (Text × α)) : List (Text × α) :=
  entries.foldl (fun sorted entry => insertEntry entry.1 entry.2 sorted) []

end Text

end StyleAudit
