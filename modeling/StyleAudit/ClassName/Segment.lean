import StyleAudit.Text.Basic

/-!
# Segments of class names

A class name is put together from segments.  A segment is well formed when it is
made of lowercase letters, digits and hyphens, begins with a letter and does not
end with a hyphen.
-/

namespace StyleAudit

namespace Segment

/-- The characters of a well-formed segment. -/
def isChar (c : Char) : Bool :=
  c.isLower || c.isDigit || c == '-'

/-- Is the segment well formed? -/
def isValid (segment : Text) : Bool :=
  (segment.head?.any (·.isLower)) && !(segment.getLast? == some '-') &&
    segment.all isChar

/-- The character that stands for `c` in a corrected segment: its lowercase
form, or a hyphen for an underscore.  Beyond ASCII only the Kelvin sign has a
lowercase form that a segment may hold; every other character there is left
alone, and a segment that holds it is not well formed anyway. -/
def correctChar (c : Char) : Char :=
  if c = '_' then '-' else if c.toNat = 0x212A then 'k' else c.toLower

/-- The segment with its characters corrected. -/
def correct (segment : Text) : Text :=
  segment.map correctChar

end Segment

end StyleAudit
