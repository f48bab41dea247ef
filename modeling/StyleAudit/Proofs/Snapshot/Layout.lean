import StyleAudit.Proofs.MessagePack.Layout
import StyleAudit.Proofs.SourceFile.Placement
import StyleAudit.Proofs.Text.Order
import StyleAudit.Snapshot.Write

/-!
# How registries are laid out

A registry can be kept when every number and every length in it has a place in
a message, and when what is sorted by key is sorted.  For each kind of data it
is said how values stand for it, field by field, and that what is written for
it is such a value.
-/

namespace StyleAudit

open MessagePack

/-! ## What can be kept -/

@[mk_iff]
structure Position.Storable (position : Position) : Prop where
  offset : position.offset < Snapshot.wordBound
  line : position.line < Snapshot.halfWordBound
  column : position.column < Snapshot.halfWordBound

instance : DecidablePred Position.Storable :=
  fun _ => decidable_of_iff _ (Position.storable_iff _).symm

@[mk_iff]
structure Location.Storable (location : Location) : Prop where
  file : location.file.Short
  start : location.span.start.Storable
  stop : location.span.stop.Storable

instance : DecidablePred Location.Storable :=
  fun _ => decidable_of_iff _ (Location.storable_iff _).symm

namespace Doc

@[mk_iff]
structure Parameter.Storable (parameter : Parameter) : Prop where
  name : parameter.name.Short
  type : ∀ text ∈ parameter.type, text.Short
  default : ∀ text ∈ parameter.default, text.Short
  description : parameter.description.Short

instance : DecidablePred Parameter.Storable :=
  fun _ => decidable_of_iff _ (Parameter.storable_iff _).symm

@[mk_iff]
structure Property.Storable (property : Property) : Prop where
  name : property.name.Short
  type : ∀ text ∈ property.type, text.Short
  description : property.description.Short

instance : DecidablePred Property.Storable :=
  fun _ => decidable_of_iff _ (Property.storable_iff _).symm

@[mk_iff]
structure Modifier.Storable (modifier : Modifier) : Prop where
  name : modifier.name.Short
  description : modifier.description.Short

instance : DecidablePred Modifier.Storable :=
  fun _ => decidable_of_iff _ (Modifier.storable_iff _).symm

@[mk_iff]
structure Block.Storable (block : Block) : Prop where
  name : ∀ text ∈ block.name, text.Short
  description : block.description.Short
  parameters : Bounded Parameter.Storable block.parameters
  properties : Bounded Property.Storable block.properties
  modifiers : Bounded Modifier.Storable block.modifiers
  implements : ∀ text ∈ block.implements, text.Short
  returns : ∀ text ∈ block.returns, text.Short
  extensions : Bounded (fun entry => entry.1.Short ∧ Bounded Text.Short entry.2)
    block.extensions
  sorted : Text.Ascending block.extensions

instance : DecidablePred Block.Storable :=
  fun _ => decidable_of_iff _ (Block.storable_iff _).symm

end Doc

/-- The declaration can be kept, if those inside it can. -/
@[mk_iff]
structure Declaration.Storable (declaration : Declaration) : Prop where
  name : declaration.name.Short
  signature : declaration.signature.Short
  location : declaration.location.Storable
  doc : ∀ block ∈ declaration.doc, block.Storable
  children : declaration.children.length < 2 ^ 32
  includes : Bounded Text.Short declaration.includes

instance : DecidablePred Declaration.Storable :=
  fun _ => decidable_of_iff _ (Declaration.storable_iff _).symm

@[mk_iff]
structure ImportReference.Storable (reference : ImportReference) : Prop where
  target : reference.target.Short
  location : reference.location.Storable

instance : DecidablePred ImportReference.Storable :=
  fun _ => decidable_of_iff _ (ImportReference.storable_iff _).symm

@[mk_iff]
structure IncludeReference.Storable (reference : IncludeReference) : Prop where
  name : reference.name.Short
  location : reference.location.Storable

instance : DecidablePred IncludeReference.Storable :=
  fun _ => decidable_of_iff _ (IncludeReference.storable_iff _).symm

@[mk_iff]
structure SourceFile.Storable (file : SourceFile) : Prop where
  id : file.id.Short
  text : file.text.Short
  roots : file.declarations.length < 2 ^ 32
  declarations : ∀ declaration ∈ Declaration.walkList file.declarations,
    declaration.Storable
  imports : Bounded ImportReference.Storable file.imports
  includes : Bounded IncludeReference.Storable file.includes

instance : DecidablePred SourceFile.Storable :=
  fun _ => decidable_of_iff _ (SourceFile.storable_iff _).symm

@[mk_iff]
structure DeclarationReference.Storable (reference : DeclarationReference) :
    Prop where
  file : reference.file < Snapshot.wordBound
  index : reference.index < Snapshot.wordBound

instance : DecidablePred DeclarationReference.Storable :=
  fun _ => decidable_of_iff _ (DeclarationReference.storable_iff _).symm

/-- The numbers and lengths in the registry have a place in a message, and what
is sorted by key is sorted. -/
@[mk_iff]
structure Registry.Storable (registry : Registry) : Prop where
  files : Bounded SourceFile.Storable registry.files
  names : Bounded (fun entry => entry.1.Short ∧ entry.2.Storable) registry.names
  sorted : Text.Ascending registry.names

instance : DecidablePred Registry.Storable :=
  fun _ => decidable_of_iff _ (Registry.storable_iff _).symm

namespace Snapshot

/-! ## How each kind of data is laid out -/

def spanLayout : Layout Span := fun value span =>
  Layout.record spanFields
    [(Layout.natural · span.start.offset), (Layout.natural · span.stop.offset),
      (Layout.natural · span.start.line), (Layout.natural · span.start.column),
      (Layout.natural · span.stop.line), (Layout.natural · span.stop.column)]
    value

def locationLayout : Layout Location := fun value location =>
  Layout.record locationFields
    [(Layout.text · location.file), (spanLayout · location.span)] value

def parameterLayout : Layout Doc.Parameter := fun value parameter =>
  Layout.record parameterFields
    [(Layout.text · parameter.name),
      (Layout.option Layout.text · parameter.type),
      (Layout.bool · parameter.optional),
      (Layout.option Layout.text · parameter.default),
      (Layout.text · parameter.description)] value

def propertyLayout : Layout Doc.Property := fun value property =>
  Layout.record propertyFields
    [(Layout.text · property.name),
      (Layout.option Layout.text · property.type),
      (Layout.text · property.description)] value

def modifierLayout : Layout Doc.Modifier := fun value modifier =>
  Layout.record modifierFields
    [(Layout.text · modifier.name), (Layout.text · modifier.description)] value

def blockLayout : Layout Doc.Block := fun value block =>
  Layout.record blockFields
    [(Layout.option (Layout.choice DeclarationKind.word) · block.kind),
      (Layout.option Layout.text · block.name),
      (Layout.text · block.description),
      (Layout.list parameterLayout · block.parameters),
      (Layout.list propertyLayout · block.properties),
      (Layout.list modifierLayout · block.modifiers),
      (Layout.option Layout.text · block.implements),
      (Layout.option Layout.text · block.returns),
      (Layout.entries (Layout.list Layout.text) · block.extensions)] value

/-- Declarations that nest less than so deep. -/
def declarationLayout : (depth : Nat) → Layout Declaration
  | 0 => fun _ _ => False
  | depth + 1 => fun value declaration =>
    Layout.record declarationFields
      [(Layout.choice DeclarationKind.word · declaration.kind),
        (Layout.text · declaration.name), (Layout.text · declaration.signature),
        (locationLayout · declaration.location),
        (Layout.option blockLayout · declaration.doc),
        (Layout.list (declarationLayout depth) · declaration.children),
        (Layout.choice nestingWord · declaration.nesting),
        (Layout.list Layout.text · declaration.includes)] value

def importLayout : Layout ImportReference := fun value reference =>
  Layout.record importFields
    [(Layout.text · reference.target),
      (Layout.choice importWord · reference.kind),
      (Layout.bool · reference.plainCss),
      (locationLayout · reference.location)] value

def includeLayout : Layout IncludeReference := fun value reference =>
  Layout.record includeFields
    [(Layout.text · reference.name), (locationLayout · reference.location)]
    value

def fileLayout : Layout SourceFile := fun value file =>
  Layout.record fileFields
    [(Layout.text · file.id), (Layout.text · file.text),
      (fun inner => ∃ depth,
        Layout.list (declarationLayout depth) inner file.declarations),
      (Layout.list importLayout · file.imports),
      (Layout.list includeLayout · file.includes)] value

def referenceLayout : Layout DeclarationReference := fun value reference =>
  Layout.record referenceFields
    [(Layout.natural · reference.file), (Layout.natural · reference.index)]
    value

def registryLayout : Layout Registry := fun value registry =>
  Layout.record registryFields
    [(Layout.list fileLayout · registry.files),
      (Layout.entries referenceLayout · registry.names)] value

/-! ## What is written is laid out -/

theorem stands_optionalText {option : Option Text}
    (short : ∀ text ∈ option, text.Short) :
    Stands (Layout.option Layout.text · option) (.ofOption .ofText option) :=
  stands_option (fun _ absent => by cases absent) fun text member =>
    stands_text (short text member)

theorem stands_texts {list : List Text} (bounded : Bounded Text.Short list) :
    Stands (Layout.list Layout.text · list) (.ofList .ofText list) :=
  stands_list bounded fun _ short => stands_text short

theorem stands_halfWord {n : Nat} (less : n < halfWordBound) :
    Stands (Layout.natural · n) (.unsigned n) :=
  stands_unsigned (Nat.lt_trans less (by decide))

theorem stands_kind (kind : DeclarationKind) :
    Stands (Layout.choice DeclarationKind.word · kind) (.ofText kind.word) :=
  stands_choice (by cases kind <;> decide)

theorem stands_importKind (kind : ImportKind) :
    Stands (Layout.choice importWord · kind) (.ofText (importWord kind)) :=
  stands_choice (by cases kind <;> decide)

theorem stands_nesting (nesting : Nesting) :
    Stands (Layout.choice nestingWord · nesting)
      (.ofText (nestingWord nesting)) :=
  stands_choice (by cases nesting <;> decide)

private theorem stands_span {span : Span} (start : span.start.Storable)
    (stop : span.stop.Storable) :
    Stands (spanLayout · span) (packSpan span) :=
  stands_record (by decide) rfl
    (.cons (stands_unsigned start.offset) <|
      .cons (stands_unsigned stop.offset) <|
      .cons (stands_halfWord start.line) <|
      .cons (stands_halfWord start.column) <|
      .cons (stands_halfWord stop.line) <|
      .cons (stands_halfWord stop.column) .nil)

theorem stands_location {location : Location} (storable : location.Storable) :
    Stands (locationLayout · location) (packLocation location) :=
  stands_record (by decide) rfl
    (.cons (stands_text storable.file) <|
      .cons (stands_span storable.start storable.stop) .nil)

theorem stands_parameter {parameter : Doc.Parameter}
    (storable : parameter.Storable) :
    Stands (parameterLayout · parameter) (packParameter parameter) :=
  stands_record (by decide) rfl
    (.cons (stands_text storable.name) <|
      .cons (stands_optionalText storable.type) <|
      .cons (stands_bool parameter.optional) <|
      .cons (stands_optionalText storable.default) <|
      .cons (stands_text storable.description) .nil)

private theorem stands_property {property : Doc.Property}
    (storable : property.Storable) :
    Stands (propertyLayout · property) (packProperty property) :=
  stands_record (by decide) rfl
    (.cons (stands_text storable.name) <|
      .cons (stands_optionalText storable.type) <|
      .cons (stands_text storable.description) .nil)

private theorem stands_modifier {modifier : Doc.Modifier}
    (storable : modifier.Storable) :
    Stands (modifierLayout · modifier) (packModifier modifier) :=
  stands_record (by decide) rfl
    (.cons (stands_text storable.name) <|
      .cons (stands_text storable.description) .nil)

theorem stands_block {block : Doc.Block} (storable : block.Storable) :
    Stands (blockLayout · block) (packBlock block) := by
  have kind : Stands
      (Layout.option (Layout.choice DeclarationKind.word) · block.kind)
      (.ofOption (fun kind => .ofText kind.word) block.kind) :=
    stands_option (fun _ absent => by cases absent) fun kind _ =>
      stands_kind kind
  exact stands_record (by decide) rfl
    (.cons kind <|
      .cons (stands_optionalText storable.name) <|
      .cons (stands_text storable.description) <|
      .cons (stands_list storable.parameters fun _ => stands_parameter) <|
      .cons (stands_list storable.properties fun _ => stands_property) <|
      .cons (stands_list storable.modifiers fun _ => stands_modifier) <|
      .cons (stands_optionalText storable.implements) <|
      .cons (stands_optionalText storable.returns) <|
      .cons (stands_entries storable.extensions fun _ => stands_texts) .nil)

theorem stands_import {reference : ImportReference}
    (storable : reference.Storable) :
    Stands (importLayout · reference) (packImport reference) :=
  stands_record (by decide) rfl
    (.cons (stands_text storable.target) <|
      .cons (stands_importKind reference.kind) <|
      .cons (stands_bool reference.plainCss) <|
      .cons (stands_location storable.location) .nil)

theorem stands_include {reference : IncludeReference}
    (storable : reference.Storable) :
    Stands (includeLayout · reference) (packInclude reference) :=
  stands_record (by decide) rfl
    (.cons (stands_text storable.name) <|
      .cons (stands_location storable.location) .nil)

theorem stands_reference {reference : DeclarationReference}
    (storable : reference.Storable) :
    Stands (referenceLayout · reference) (packReference reference) :=
  stands_record (by decide) rfl
    (.cons (stands_unsigned storable.file) <|
      .cons (stands_unsigned storable.index) .nil)

/-! ## Declarations inside declarations -/

theorem packDeclarations_eq_map (declarations : List Declaration) :
    packDeclarations declarations = declarations.map packDeclaration := by
  induction declarations with
  | nil => rw [packDeclarations, List.map_nil]
  | cons declaration rest ih => rw [packDeclarations, List.map_cons, ih]

theorem packDeclaration_eq (declaration : Declaration) :
    packDeclaration declaration =
      record declarationFields
        [.ofText declaration.kind.word, .ofText declaration.name,
          .ofText declaration.signature, packLocation declaration.location,
          .ofOption packBlock declaration.doc,
          .ofList packDeclaration declaration.children,
          .ofText (nestingWord declaration.nesting),
          .ofList .ofText declaration.includes] := by
  cases declaration
  rw [packDeclaration, packDeclarations_eq_map]
  rfl

theorem packFile_eq (file : SourceFile) :
    packFile file =
      record fileFields
        [.ofText file.id, .ofText file.text,
          .ofList packDeclaration file.declarations,
          .ofList packImport file.imports,
          .ofList packInclude file.includes] := by
  rw [packFile, packDeclarations_eq_map]
  rfl

theorem bounded_mem {α : Type} {list : List α} (short : list.length < 2 ^ 32) :
    Bounded (· ∈ list) list :=
  ⟨short, fun _ => id⟩

theorem depth_lt_ofList {α : Type} {write : α → Value} {list : List α} {a : α}
    (member : a ∈ list) :
    (write a).depth < (Value.ofList write list).depth := by
  have inside :=
    Value.depth_le_depthOf (List.mem_map_of_mem (f := write) member)
  rw [Value.ofList, Value.depth]
  exact Nat.lt_succ_of_le inside

private theorem depth_lt_record {names : List String} {values : List Value}
    (lengths : names.length = values.length) {value : Value}
    (member : value ∈ values) : value.depth < (record names values).depth := by
  have seconds : (names.zip values).map Prod.snd = values :=
    List.map_snd_zip (Nat.le_of_eq lengths.symm)
  rw [← seconds] at member
  obtain ⟨field, inFields, rfl⟩ := List.mem_map.mp member
  have there := List.mem_map_of_mem (f := fun field : String × Value =>
    (Value.ofText field.1.toList, field.2)) inFields
  have inside : field.2.depth ≤ _ := (Value.depth_le_depthOfEntries there).2
  rw [record, Value.ofFields, Value.depth]
  exact Nat.lt_succ_of_le inside

/-- The children nest less deep than the declaration: it is a record, and they
are in a list. -/
theorem depth_children_lt {declaration child : Declaration}
    (member : child ∈ declaration.children) :
    (packDeclaration child).depth < (packDeclaration declaration).depth := by
  have list : (Value.ofList packDeclaration declaration.children).depth <
      (packDeclaration declaration).depth := by
    rw [packDeclaration_eq declaration]
    exact depth_lt_record rfl (by simp)
  exact Nat.lt_trans (depth_lt_ofList member) list

theorem storable_of_child {declaration child inner : Declaration}
    (storable : ∀ inner ∈ declaration.walk, inner.Storable)
    (member : child ∈ declaration.children) (inside : inner ∈ child.walk) :
    inner.Storable := by
  apply storable
  rw [Declaration.walk_eq, Declaration.walkList_eq_flatMap]
  exact List.mem_cons_of_mem _ (List.mem_flatMap.mpr ⟨child, member, inside⟩)

private theorem stands_declaration {depth : Nat} {declaration : Declaration}
    (storable : ∀ inner ∈ declaration.walk, inner.Storable)
    (shallow : (packDeclaration declaration).depth < depth) :
    Stands (declarationLayout depth · declaration)
      (packDeclaration declaration) := by
  induction depth generalizing declaration with
  | zero => exact (Nat.not_lt_zero _ shallow).elim
  | succ depth ih =>
      have own := storable declaration (Declaration.mem_walk_self declaration)
      have doc : Stands (Layout.option blockLayout · declaration.doc)
          (.ofOption packBlock declaration.doc) :=
        stands_option (fun _ absent => by cases absent) fun block member =>
          stands_block (own.doc block member)
      have children : Stands
          (Layout.list (declarationLayout depth) · declaration.children)
          (.ofList packDeclaration declaration.children) := by
        apply stands_list (bounded_mem own.children)
        intro child member
        apply ih
        · exact fun inner => storable_of_child storable member
        · exact Nat.lt_of_lt_of_le (depth_children_lt member)
            (Nat.le_of_lt_succ shallow)
      rw [packDeclaration_eq]
      exact stands_record (by decide) rfl
        (.cons (stands_kind declaration.kind) <|
          .cons (stands_text own.name) <|
          .cons (stands_text own.signature) <|
          .cons (stands_location own.location) <|
          .cons doc <|
          .cons children <|
          .cons (stands_nesting declaration.nesting) <|
          .cons (stands_texts own.includes) .nil)

/-! ## Files and registries -/

private theorem stands_file {file : SourceFile} (storable : file.Storable) :
    Stands (fileLayout · file) (packFile file) := by
  have declarations : Stands
      (fun inner => ∃ depth,
        Layout.list (declarationLayout depth) inner file.declarations)
      (.ofList packDeclaration file.declarations) := by
    let depth := (Value.ofList packDeclaration file.declarations).depth
    have list : Stands
        (Layout.list (declarationLayout depth) · file.declarations)
        (.ofList packDeclaration file.declarations) := by
      apply stands_list (bounded_mem storable.roots)
      intro declaration member
      apply stands_declaration
      · intro inner inside
        apply storable.declarations
        rw [Declaration.walkList_eq_flatMap]
        exact List.mem_flatMap.mpr ⟨declaration, member, inside⟩
      · exact depth_lt_ofList member
    exact ⟨list.fits, depth, list.laid⟩
  rw [packFile_eq]
  exact stands_record (by decide) rfl
    (.cons (stands_text storable.id) <|
      .cons (stands_text storable.text) <|
      .cons declarations <|
      .cons (stands_list storable.imports fun _ => stands_import) <|
      .cons (stands_list storable.includes fun _ => stands_include) .nil)

/-- A registry is laid out in the value that is written for it. -/
theorem stands_registry {registry : Registry} (storable : registry.Storable) :
    Stands (registryLayout · registry) (pack registry) :=
  stands_record (by decide) rfl
    (.cons (stands_list storable.files fun _ => stands_file) <|
      .cons (stands_entries storable.names fun _ => stands_reference) .nil)

end Snapshot

end StyleAudit
