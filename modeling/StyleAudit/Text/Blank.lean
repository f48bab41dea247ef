import StyleAudit.Text.Ranges

/-!
# Blank characters

The characters with the Unicode property `White_Space`.  They separate tokens in
a stylesheet and are trimmed from the texts of a doc comment.
-/

namespace StyleAudit

namespace Text

/-- The ranges of the Unicode property `White_Space`. -/
def blankRanges : Ranges :=
  [(0x9, 0xD), (0x20, 0x20), (0x85, 0x85), (0xA0, 0xA0), (0x1680, 0x1680),
    (0x2000, 0x200A), (0x2028, 0x2029), (0x202F, 0x202F), (0x205F, 0x205F),
    (0x3000, 0x3000)]

/-- Is the character white space? -/
def isBlank (c : Char) : Bool :=
  blankRanges.contains c

theorem isBlank_newline : isBlank '\n' = true := by decide

theorem isBlank_space : isBlank ' ' = true := by decide

end Text

end StyleAudit
