import StyleAudit.Text.Alphanumeric
import StyleAudit.Text.Basic

/-!
# Names in selectors

A selector names classes behind dots.  A rule inside another rule may also
extend the name of that rule, by an element or by a modifier.
-/

namespace StyleAudit

namespace Selector

/-- The characters of a class name in the selector of a declaration; a backslash
counts among them. -/
def isDeclaredChar (c : Char) : Bool :=
  Text.isNameChar c || c == '\\'

/-- The class name at the front of a text, unless the text begins with a
digit. -/
def classAt? (inName : Char → Bool) (text : Text) : Option Text :=
  match text with
  | [] => none
  | c :: _ =>
    if inName c && !c.isDigit then some (text.takeWhile inName) else none

/-- The first class that a selector names. -/
def firstClass? : Text → Option Text
  | [] => none
  | c :: rest =>
    if c = '.' then (classAt? isDeclaredChar rest).or (firstClass? rest)
    else firstClass? rest

/-- The classes named from inside a stretch that is passed over up to `close`,
or from outside of any. -/
def classNamesFrom (close : Option Char) : Text → List Text
  | [] => []
  | c :: rest =>
    match close with
    | some stop => classNamesFrom (if c = stop then none else some stop) rest
    | none =>
      if c = '[' then classNamesFrom (some ']') rest
      else if c = '#' ∧ Text.beginsWith ['{'] rest then
        classNamesFrom (some '}') rest
      else if c = '.' then
        (classAt? Text.isNameChar rest).toList ++ classNamesFrom none rest
      else classNamesFrom none rest

/-- The classes that a selector names outside of attributes and
interpolations. -/
def classNames (selector : Text) : List Text :=
  classNamesFrom none selector

/-- The first stretch of name characters in a selector. -/
def firstIdentifier? (selector : Text) : Option Text :=
  match selector.dropWhile (!Text.isNameChar ·) with
  | [] => none
  | c :: rest => some (Text.nameRun (c :: rest))

/-- What a nested selector adds to the name of the rule around it. -/
inductive Suffix where
  | element (name : Text)
  | modifier (name : Text)
deriving DecidableEq, Repr

namespace Suffix

/-- The suffix as it stands in a class name. -/
def text : Suffix → Text
  | .element name => '_' :: '_' :: name
  | .modifier name => '-' :: '-' :: name

end Suffix

/-- The name at the front of a text. -/
def partAt? (text : Text) : Option Text :=
  if (Text.nameRun text).isEmpty then none else some (Text.nameRun text)

/-- What a nested selector adds to the name of the rule around it, if it begins
with that name. -/
def suffix? (selector : Text) : Option Suffix :=
  match Text.dropFront? ['&', '_', '_'] selector with
  | some rest => (partAt? rest).map .element
  | none =>
    (Text.dropFront? ['&', '-', '-'] selector).bind fun rest =>
      (partAt? rest).map .modifier

end Selector

end StyleAudit
