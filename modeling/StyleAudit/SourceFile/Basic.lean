import StyleAudit.Declaration.Basic
import StyleAudit.Stylesheet.Node

/-!
# Source files

What is known of a stylesheet once it has been read: its declarations, the
stylesheets it imports and the mixins it includes.
-/

namespace StyleAudit

/-- A stylesheet that a file imports. -/
structure ImportReference where
  /-- The path as written. -/
  target : Text
  kind : ImportKind
  /-- Is the import left to the browser? -/
  plainCss : Bool
  location : Location
deriving DecidableEq, Repr

/-- A mixin that a file includes. -/
structure IncludeReference where
  name : Text
  location : Location
deriving DecidableEq, Repr

/-- A stylesheet that has been read. -/
structure SourceFile where
  /-- The identifier of the file. -/
  id : Text
  text : Text
  /-- The declarations at the top of the file, in order. -/
  declarations : List Declaration
  imports : List ImportReference
  /-- Everything that is included anywhere in the file, in order. -/
  includes : List IncludeReference
deriving DecidableEq, Repr

end StyleAudit
