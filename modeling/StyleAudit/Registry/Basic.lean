import StyleAudit.SourceFile.Basic

/-!
# Registries

A registry holds the files of a project and an index of the names that they
declare.  A name belongs to the first declaration that has it.
-/

namespace StyleAudit

/-- The place of a declaration at the top of a file. -/
structure DeclarationReference where
  /-- The number of the file. -/
  file : Nat
  /-- The number of the declaration in its file. -/
  index : Nat
deriving DecidableEq, Repr

/-- Names with the declarations that they belong to, sorted by name. -/
abbrev NameIndex := List (Text × DeclarationReference)

namespace NameIndex

/-- The declaration that a name belongs to. -/
def find? (names : NameIndex) (name : Text) : Option DeclarationReference :=
  names.lookup name

/-- Gives a name to a declaration. -/
def insert (names : NameIndex) (name : Text)
    (reference : DeclarationReference) : NameIndex :=
  Text.insertEntry name reference names

/-- Names the declarations of a file, from the declaration with the given number
on.  A name that is taken stays where it is. -/
def addAll (file : Nat) : (index : Nat) → NameIndex →
    List Declaration → NameIndex
  | _, names, [] => names
  | index, names, declaration :: rest =>
    match names.find? declaration.name with
    | some _ => addAll file (index + 1) names rest
    | none =>
      addAll file (index + 1) (names.insert declaration.name ⟨file, index⟩) rest

/-- The declarations of a file whose name is taken, each with the declaration
that has it. -/
def clashes (file : Nat) :
    (index : Nat) → NameIndex → List Declaration →
      List (DeclarationReference × Declaration)
  | _, _, [] => []
  | index, names, declaration :: rest =>
    match names.find? declaration.name with
    | some first => (first, declaration) :: clashes file (index + 1) names rest
    | none =>
      clashes file (index + 1) (names.insert declaration.name ⟨file, index⟩)
        rest

end NameIndex

/-- The files of a project and the names that they declare. -/
structure Registry where
  /-- The files, in the order in which they were reached. -/
  files : List SourceFile := []
  names : NameIndex := []
deriving DecidableEq, Repr

namespace Registry

/-- The file with the given path. -/
def file? (registry : Registry) (id : Text) : Option SourceFile :=
  registry.files.find? (·.id == id)

/-- The declaration at a place. -/
def resolve? (registry : Registry) (reference : DeclarationReference) :
    Option Declaration :=
  registry.files[reference.file]?.bind fun file =>
    file.declarations[reference.index]?

/-- The declaration that a name belongs to. -/
def lookup? (registry : Registry) (name : Text) : Option Declaration :=
  (registry.names.find? name).bind registry.resolve?

/-- Is the name declared? -/
def contains (registry : Registry) (name : Text) : Bool :=
  (registry.names.find? name).isSome

/-- The declarations at the top of all files. -/
def declarations (registry : Registry) : List Declaration :=
  registry.files.flatMap (·.declarations)

/-- All declarations, those inside others included. -/
def allDeclarations (registry : Registry) : List Declaration :=
  Declaration.walkList registry.declarations

/-- The interfaces, by name. -/
def interfaces (registry : Registry) : List (Text × Declaration) :=
  registry.names.filterMap fun entry =>
    ((registry.resolve? entry.2).filter (·.isInterface)).map fun declaration =>
      (entry.1, declaration)

/-- Adds a file and names its declarations. -/
def insert (registry : Registry) (file : SourceFile) : Registry :=
  { files := registry.files ++ [file],
    names := NameIndex.addAll registry.files.length 0 registry.names
      file.declarations }

/-- The declarations of a file that is to be added whose name is taken. -/
def clashes (registry : Registry) (file : SourceFile) :
    List (DeclarationReference × Declaration) :=
  NameIndex.clashes registry.files.length 0 registry.names file.declarations

end Registry

end StyleAudit
