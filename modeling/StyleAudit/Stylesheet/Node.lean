import StyleAudit.Token.Basic

/-!
# Nodes of a stylesheet

The tree that a stylesheet is read as: rules, at-rules, imports and includes.
Properties and other statements are not kept.
-/

namespace StyleAudit

/-- A comment in its place. -/
structure Comment where
  /-- How the comment is written. -/
  style : CommentStyle
  /-- The comment with its marks. -/
  text : Text
  /-- Where the comment is. -/
  span : Span
deriving DecidableEq, Repr

/-- The at-rules that load other stylesheets. -/
inductive ImportKind where
  /-- `@import` -/
  | load
  /-- `@use` -/
  | use
  /-- `@forward` -/
  | forward
deriving DecidableEq, Repr

namespace ImportKind

/-- The kind of import that a keyword stands for. -/
def ofKeyword? (keyword : Text) : Option ImportKind :=
  if keyword = "import".toList then some .load
  else if keyword = "use".toList then some .use
  else if keyword = "forward".toList then some .forward
  else none

end ImportKind

/-- One stylesheet that an import names. -/
structure ImportTarget where
  /-- The path as written. -/
  path : Text
  /-- Is the import left to the browser? -/
  plainCss : Bool
  /-- Where the path is. -/
  span : Span
deriving DecidableEq, Repr

/-- What stands in front of the block of an at-rule. -/
structure AtRule where
  /-- The keyword, without its sign. -/
  keyword : Text
  /-- The word behind the keyword. -/
  name : Option Text
  /-- The parameter list behind the name. -/
  parameters : Option Text
  /-- All that stands behind the keyword, blanks made single. -/
  prelude : Text
deriving DecidableEq, Repr

/-- A part of a stylesheet. -/
inductive Node where
  | rule (selector : Text) (doc : Option Comment) (children : List Node)
    (span : Span)
  | atRule (rule : AtRule) (doc : Option Comment) (body : Option (List Node))
    (span : Span)
  | importing (kind : ImportKind) (targets : List ImportTarget) (span : Span)
  | including (name : Text) (arguments : Option Text)
    (body : Option (List Node)) (span : Span)
deriving Repr

namespace Node

/-- The nodes directly inside a node. -/
def children : Node → List Node
  | .rule _ _ children _ => children
  | .atRule _ _ body _ => body.getD []
  | .importing _ _ _ => []
  | .including _ _ body _ => body.getD []

/-- Where the node is. -/
def span : Node → Span
  | .rule _ _ _ span => span
  | .atRule _ _ _ span => span
  | .importing _ _ span => span
  | .including _ _ _ span => span

/-- The comment that documents the node. -/
def doc : Node → Option Comment
  | .rule _ doc _ _ | .atRule _ doc _ _ => doc
  | .importing _ _ _ | .including _ _ _ _ => none

/-! ### Equality -/

mutual

/-- Decides whether two nodes are equal. -/
def decEq : (left right : Node) → Decidable (left = right)
  | .rule selector doc children span, .rule selector' doc' children' span' =>
    match decEqList children children' with
    | .isTrue same =>
      decidable_of_decidable_of_iff
        (p := selector = selector' ∧ doc = doc' ∧ span = span')
        (by simp [same])
    | .isFalse different => .isFalse (by simp [different])
  | .atRule head doc body span, .atRule head' doc' body' span' =>
    match decEqBody body body' with
    | .isTrue same =>
      decidable_of_decidable_of_iff
        (p := head = head' ∧ doc = doc' ∧ span = span')
        (by simp [same])
    | .isFalse different => .isFalse (by simp [different])
  | .importing kind targets span, .importing kind' targets' span' =>
    decidable_of_decidable_of_iff
      (p := kind = kind' ∧ targets = targets' ∧ span = span')
      (by simp)
  | .including name arguments body span,
    .including name' arguments' body' span' =>
    match decEqBody body body' with
    | .isTrue same =>
      decidable_of_decidable_of_iff
        (p := name = name' ∧ arguments = arguments' ∧ span = span')
        (by simp [same])
    | .isFalse different => .isFalse (by simp [different])
  | .rule .., .atRule .. | .rule .., .importing ..
  | .rule .., .including .. => .isFalse (by simp)
  | .atRule .., .rule .. | .atRule .., .importing ..
  | .atRule .., .including .. => .isFalse (by simp)
  | .importing .., .rule .. | .importing .., .atRule ..
  | .importing .., .including .. => .isFalse (by simp)
  | .including .., .rule .. | .including .., .atRule ..
  | .including .., .importing .. => .isFalse (by simp)

/-- Decides whether two blocks are equal. -/
def decEqBody : (left right : Option (List Node)) → Decidable (left = right)
  | none, none => .isTrue rfl
  | none, some _ | some _, none => .isFalse (by simp)
  | some left, some right =>
    match decEqList left right with
    | .isTrue same => .isTrue (by simp [same])
    | .isFalse different => .isFalse (by simp [different])

/-- Decides whether two lists of nodes are equal. -/
def decEqList : (left right : List Node) → Decidable (left = right)
  | [], [] => .isTrue rfl
  | [], _ :: _ | _ :: _, [] => .isFalse (by simp)
  | a :: left, b :: right =>
    match decEq a b with
    | .isTrue same =>
      match decEqList left right with
      | .isTrue rest => .isTrue (by simp [same, rest])
      | .isFalse different => .isFalse (by simp [different])
    | .isFalse different => .isFalse (by simp [different])

end

instance : DecidableEq Node :=
  decEq

end Node

end StyleAudit
