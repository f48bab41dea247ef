import StyleAudit.Diagnostic.Basic
import StyleAudit.Text.Order

/-!
# The order of diagnostics

Diagnostics are listed by place, then by severity, code and message, and at last
by what else can tell them apart.  The order is a total preorder: it does not
look at the byte offset of the start, nor at the line and column of the end.
-/

namespace StyleAudit

namespace Location

/-- Compares two locations by file, line and column. -/
def compare (left right : Location) : Ordering :=
  (Text.compare left.file right.file).then <|
    (Ord.compare left.span.start.line right.span.start.line).then <|
      Ord.compare left.span.start.column right.span.start.column

end Location

namespace Note

/-- Compares two notes by place, then by message. -/
def compare (left right : Note) : Ordering :=
  (Location.compare left.location right.location).then <|
    Text.compare left.message.toList right.message.toList

/-- Compares two lists of notes, a list before its extensions. -/
def compareList : List Note → List Note → Ordering
  | [], [] => .eq
  | [], _ :: _ => .lt
  | _ :: _, [] => .gt
  | a :: left, b :: right => (Note.compare a b).then (compareList left right)

end Note

namespace Diagnostic

/-- Compares two suggestions: none comes before any. -/
def compareSuggestion : Option Text → Option Text → Ordering
  | none, none => .eq
  | none, some _ => .lt
  | some _, none => .gt
  | some left, some right => Text.compare left right

/-- Compares two diagnostics. -/
def compare (left right : Diagnostic) : Ordering :=
  (Location.compare left.location right.location).then <|
    (Ord.compare left.severity.rank right.severity.rank).then <|
      (Ord.compare left.code.rank right.code.rank).then <|
        (Text.compare left.message.toList right.message.toList).then <|
          (Ord.compare left.location.span.stop.offset
            right.location.span.stop.offset).then <|
            (compareSuggestion left.suggestion right.suggestion).then <|
              Note.compareList left.related right.related

/-- Does the left diagnostic come before the right one, or at the same place in
the order? -/
def le (left right : Diagnostic) : Bool :=
  (compare left right).isLE

end Diagnostic

end StyleAudit
