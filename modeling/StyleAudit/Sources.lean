import StyleAudit.Path

/-!
# Sources and imports

The stylesheets of a project are given by their paths.  An import names a
stylesheet loosely: the path is tried from the directory of the importing file
and from the root, with and without the usual endings.
-/

namespace StyleAudit

/-- The texts of a project, by path. -/
abbrev Sources := List (Text × Text)

namespace Sources

/-- The paths of the sources. -/
def paths (sources : Sources) : List Text :=
  sources.map (·.1)

/-- Is there a source with this path? -/
def contains (sources : Sources) (path : Text) : Bool :=
  sources.paths.contains path

/-- The text of a source; empty if there is none. -/
def text (sources : Sources) (path : Text) : Text :=
  (sources.lookup path).getD []

/-- The files that an import of `base` may mean, the likeliest first. -/
def candidates (base : Text) : List Text :=
  let underscored := match Text.splitLast? '/' base with
    | some (parent, stem) => parent ++ '/' :: '_' :: stem
    | none => '_' :: base
  [base, base ++ ".scss".toList, underscored ++ ".scss".toList,
    base ++ ".css".toList, base ++ "/index.scss".toList,
    base ++ "/_index.scss".toList]

/-- The paths from which an import is tried: beside the importing file, and at
the root. -/
def bases (importer target : Text) : List Text :=
  if (Path.directory importer).isEmpty then [target]
  else [Path.directory importer ++ '/' :: target, target]

/-- The source that an import means. -/
def resolve? (sources : Sources) (importer target : Text) : Option Text :=
  (((bases importer target).flatMap candidates).filterMap Path.normalize?).find?
    sources.contains

end Sources

end StyleAudit
