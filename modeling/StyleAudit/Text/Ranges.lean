/-!
# Sets of characters given by ranges of code points

A Unicode property is published as a list of ranges of code points.  A property
of characters is kept in that form here, and a character has the property when
one of the ranges holds its code point.
-/

namespace StyleAudit

namespace Text

/-- Ranges of code points, both ends included. -/
abbrev Ranges := List (Nat × Nat)

/-- Does one of the ranges hold the code point of the character? -/
def Ranges.contains (ranges : Ranges) (c : Char) : Bool :=
  ranges.any fun range => range.1 ≤ c.toNat && c.toNat ≤ range.2

end Text

end StyleAudit
