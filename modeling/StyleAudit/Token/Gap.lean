import StyleAudit.Text.Basic

/-!
# Gaps between tokens

Between two tokens stand blanks and plain line comments.  A line that begins
with exactly three slashes is a doc comment and no gap.
-/

namespace StyleAudit

namespace Token

/-- Does the text begin with a doc line: three slashes, but not four? -/
def isDocLine : Text → Bool
  | '/' :: '/' :: '/' :: '/' :: _ => false
  | '/' :: '/' :: '/' :: _ => true
  | _ => false

/-- Does the text begin with a plain line comment? -/
def isLineComment (text : Text) : Bool :=
  Text.beginsWith ['/', '/'] text && !isDocLine text

/-- The number of characters of the gap at the front of a text.  The flag tells
whether the text begins inside a line comment. -/
def gapLength : Bool → Text → Nat
  | _, [] => 0
  | true, c :: rest => 1 + gapLength (c != '\n') rest
  | false, c :: rest =>
    if Text.isBlank c then 1 + gapLength false rest
    else if isLineComment (c :: rest) then 1 + gapLength true rest
    else 0

/-- The gap at the front of a text. -/
def leadingGap (text : Text) : Text :=
  text.take (gapLength false text)

/-- The text behind the gap at its front. -/
def afterGap (text : Text) : Text :=
  text.drop (gapLength false text)

@[simp] theorem leadingGap_append_afterGap (text : Text) :
    leadingGap text ++ afterGap text = text :=
  List.take_append_drop ..

theorem length_afterGap_le (text : Text) :
    (afterGap text).length ≤ text.length := by
  simp [afterGap]

end Token

end StyleAudit
