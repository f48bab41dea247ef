import StyleAudit.Text.Basic

/-!
# Paths

Files are named by slash-separated paths.  A path is in normal form when none of
its segments is empty, a dot or two dots.
-/

namespace StyleAudit

namespace Path

/-- The directory of a file: what stands in front of the last slash. -/
def directory (path : Text) : Text :=
  ((Text.splitLast? '/' path).map Prod.fst).getD []

/-- Adds a segment to a normal path, given by its segments, last first.  Two
dots take the last segment away; there must be one. -/
def push? (segments : List Text) (segment : Text) : Option (List Text) :=
  if segment = [] ∨ segment = ['.'] then some segments
  else if segment = ['.', '.'] then
    match segments with
    | [] => none
    | _ :: rest => some rest
  else some (segment :: segments)

/-- The normal form of a path, unless the path climbs out of its root. -/
def normalize? (path : Text) : Option Text :=
  ((Text.splitOn '/' path).foldlM push? []).map fun segments =>
    Text.join ['/'] segments.reverse

end Path

end StyleAudit
