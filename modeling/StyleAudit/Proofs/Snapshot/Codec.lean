import StyleAudit.Proofs.MessagePack.Codec
import StyleAudit.Proofs.MessagePack.Record
import StyleAudit.Proofs.Snapshot.Layout
import StyleAudit.Snapshot.Read

/-!
# What is asked of a codec

Of a codec three things are asked.  It writes a registry as the shortest
message of its layout.  It reads the registry that is laid out in the message
at the front of the bytes, by the names of the fields and whatever follows.
And it reads nothing from bytes that do not begin with a whole message.  The
codec for MessagePack does all three.
-/

namespace StyleAudit

namespace Snapshot

open MessagePack

namespace Codec

/-- The codec writes a registry as the shortest message of its layout. -/
def WritesNamed (codec : Codec) : Prop :=
  ∀ registry : Registry, registry.Storable →
    codec.write registry = .ok (MessagePack.encode (pack registry))

/-- The codec reads a registry from any message that it is laid out in, as long
as the message nests no deeper than the limit.  Bytes behind the message are
left alone. -/
def ReadsNamed (codec : Codec) (limit : Nat) : Prop :=
  ∀ (registry : Registry) (value : Value) (message trailing : Bytes),
    registry.Storable → registryLayout value registry →
    Spells value message → value.depth ≤ limit →
    codec.read (message ++ trailing) = .ok registry

/-- What the codec reads begins with a whole message. -/
def ReadsWhole (codec : Codec) : Prop :=
  ∀ (bytes : Bytes) (registry : Registry), codec.read bytes = .ok registry →
    ∃ value message, Spells value message ∧ message <+: bytes

end Codec

/-! ## Readers of each kind of data -/

theorem finds_kind (kind : DeclarationKind) :
    Finds unpackKind? (Layout.choice DeclarationKind.word) kind :=
  finds_choice (by decide) (by cases kind <;> decide)

theorem finds_importKind (kind : ImportKind) :
    Finds unpackImportKind? (Layout.choice importWord) kind :=
  finds_choice (by decide) (by cases kind <;> decide)

theorem finds_nesting (nesting : Nesting) :
    Finds unpackNesting? (Layout.choice nestingWord) nesting :=
  finds_choice (by decide) (by cases nesting <;> decide)

theorem finds_texts (list : List Text) :
    Finds (Value.list? Value.text?) (Layout.list Layout.text) list :=
  finds_list fun text _ => finds_text text

private theorem finds_span {span : Span} (start : span.start.Storable)
    (stop : span.stop.Storable) : Finds unpackSpan? spanLayout span := by
  intro value laid
  obtain ⟨fields, read, has⟩ := Record.exists_ofValue? (by decide) laid
  have offset :=
    Record.required?_of_has (finds_natural start.offset) (has 0 rfl rfl)
  have stopOffset :=
    Record.required?_of_has (finds_natural stop.offset) (has 1 rfl rfl)
  have line :=
    Record.required?_of_has (finds_natural start.line) (has 2 rfl rfl)
  have column :=
    Record.required?_of_has (finds_natural start.column) (has 3 rfl rfl)
  have stopLine :=
    Record.required?_of_has (finds_natural stop.line) (has 4 rfl rfl)
  have stopColumn :=
    Record.required?_of_has (finds_natural stop.column) (has 5 rfl rfl)
  simp [unpackSpan?, read, offset, stopOffset, line, column, stopLine,
    stopColumn]

theorem finds_location {location : Location} (storable : location.Storable) :
    Finds unpackLocation? locationLayout location := by
  intro value laid
  obtain ⟨fields, read, has⟩ := Record.exists_ofValue? (by decide) laid
  have file := Record.required?_of_has (finds_text _) (has 0 rfl rfl)
  have span := Record.required?_of_has
    (finds_span storable.start storable.stop) (has 1 rfl rfl)
  simp [unpackLocation?, read, file, span]

theorem finds_parameter (parameter : Doc.Parameter) :
    Finds unpackParameter? parameterLayout parameter := by
  intro value laid
  obtain ⟨fields, read, has⟩ := Record.exists_ofValue? (by decide) laid
  have name := Record.required?_of_has (finds_text _) (has 0 rfl rfl)
  have type := Record.optional?_of_has (fun text _ => finds_text text)
    (has 1 rfl rfl)
  have optional := Record.required?_of_has (finds_bool _) (has 2 rfl rfl)
  have default := Record.optional?_of_has (fun text _ => finds_text text)
    (has 3 rfl rfl)
  have description := Record.required?_of_has (finds_text _) (has 4 rfl rfl)
  simp [unpackParameter?, read, name, type, optional, default, description]

private theorem finds_property (property : Doc.Property) :
    Finds unpackProperty? propertyLayout property := by
  intro value laid
  obtain ⟨fields, read, has⟩ := Record.exists_ofValue? (by decide) laid
  have name := Record.required?_of_has (finds_text _) (has 0 rfl rfl)
  have type := Record.optional?_of_has (fun text _ => finds_text text)
    (has 1 rfl rfl)
  have description := Record.required?_of_has (finds_text _) (has 2 rfl rfl)
  simp [unpackProperty?, read, name, type, description]

private theorem finds_modifier (modifier : Doc.Modifier) :
    Finds unpackModifier? modifierLayout modifier := by
  intro value laid
  obtain ⟨fields, read, has⟩ := Record.exists_ofValue? (by decide) laid
  have name := Record.required?_of_has (finds_text _) (has 0 rfl rfl)
  have description := Record.required?_of_has (finds_text _) (has 1 rfl rfl)
  simp [unpackModifier?, read, name, description]

theorem finds_block {block : Doc.Block} (storable : block.Storable) :
    Finds unpackBlock? blockLayout block := by
  intro value laid
  obtain ⟨fields, read, has⟩ := Record.exists_ofValue? (by decide) laid
  have kind := Record.optional?_of_has (fun kind _ => finds_kind kind)
    (has 0 rfl rfl)
  have name := Record.optional?_of_has (fun text _ => finds_text text)
    (has 1 rfl rfl)
  have description := Record.required?_of_has (finds_text _) (has 2 rfl rfl)
  have parameters := Record.required?_of_has
    (finds_list fun parameter _ => finds_parameter parameter) (has 3 rfl rfl)
  have properties := Record.required?_of_has
    (finds_list fun property _ => finds_property property) (has 4 rfl rfl)
  have modifiers := Record.required?_of_has
    (finds_list fun modifier _ => finds_modifier modifier) (has 5 rfl rfl)
  have implements := Record.optional?_of_has (fun text _ => finds_text text)
    (has 6 rfl rfl)
  have returns := Record.optional?_of_has (fun text _ => finds_text text)
    (has 7 rfl rfl)
  have extensions := Record.required?_of_has
    (finds_entries storable.sorted fun entry _ => finds_texts entry.2)
    (has 8 rfl rfl)
  simp [unpackBlock?, read, kind, name, description, parameters, properties,
    modifiers, implements, returns, extensions]

theorem finds_import {reference : ImportReference}
    (storable : reference.Storable) :
    Finds unpackImport? importLayout reference := by
  intro value laid
  obtain ⟨fields, read, has⟩ := Record.exists_ofValue? (by decide) laid
  have target := Record.required?_of_has (finds_text _) (has 0 rfl rfl)
  have kind := Record.required?_of_has (finds_importKind _) (has 1 rfl rfl)
  have plainCss := Record.required?_of_has (finds_bool _) (has 2 rfl rfl)
  have location := Record.required?_of_has (finds_location storable.location)
    (has 3 rfl rfl)
  simp [unpackImport?, read, target, kind, plainCss, location]

theorem finds_include {reference : IncludeReference}
    (storable : reference.Storable) :
    Finds unpackInclude? includeLayout reference := by
  intro value laid
  obtain ⟨fields, read, has⟩ := Record.exists_ofValue? (by decide) laid
  have name := Record.required?_of_has (finds_text _) (has 0 rfl rfl)
  have location := Record.required?_of_has (finds_location storable.location)
    (has 1 rfl rfl)
  simp [unpackInclude?, read, name, location]

theorem finds_reference {reference : DeclarationReference}
    (storable : reference.Storable) :
    Finds unpackReference? referenceLayout reference := by
  intro value laid
  obtain ⟨fields, read, has⟩ := Record.exists_ofValue? (by decide) laid
  have file :=
    Record.required?_of_has (finds_natural storable.file) (has 0 rfl rfl)
  have index :=
    Record.required?_of_has (finds_natural storable.index) (has 1 rfl rfl)
  simp [unpackReference?, read, file, index]

/-! ## Readers with a limit -/

/-- The layout, for values that nest no deeper than the limit. -/
def shallowLayout {α : Type} (limit : Nat) (layout : Layout α) : Layout α :=
  fun value a => layout value a ∧ value.depth ≤ limit

/-- In a list that nests no deeper than the limit, the items nest less deep. -/
theorem list_shallowLayout {α : Type} {layout : Layout α} {limit : Nat}
    {value : Value} {list : List α} (laid : Layout.list layout value list)
    (shallow : value.depth ≤ limit + 1) :
    Layout.list (shallowLayout limit layout) value list := by
  obtain ⟨items, rfl, each⟩ := laid
  refine ⟨items, rfl, ?_⟩
  rw [Value.depth, Nat.add_le_add_iff_right] at shallow
  induction each with
  | nil => exact .nil
  | cons first _ ih =>
      rw [Value.depthOf] at shallow
      exact .cons ⟨first, Nat.le_trans (Nat.le_max_left _ _) shallow⟩
        (ih (Nat.le_trans (Nat.le_max_right _ _) shallow))

private theorem depth_pos_of_record {names : List String}
    {fields : List (Value → Prop)} {value : Value}
    (laid : Layout.record names fields value) : 0 < value.depth := by
  obtain ⟨pairs, rfl, -⟩ := laid
  rw [Value.depth]
  exact Nat.succ_pos _

private theorem finds_declaration {limit depth : Nat}
    {declaration : Declaration}
    (storable : ∀ inner ∈ declaration.walk, inner.Storable) :
    Finds (unpackDeclaration? limit)
      (shallowLayout limit (declarationLayout depth)) declaration := by
  induction limit generalizing depth declaration with
  | zero =>
      rintro value ⟨laid, shallow⟩
      cases depth with
      | zero => exact laid.elim
      | succ depth =>
          have deep := depth_pos_of_record laid
          exact (Nat.not_lt.mpr shallow deep).elim
  | succ limit ih =>
      rintro value ⟨laid, shallow⟩
      cases depth with
      | zero => exact laid.elim
      | succ depth =>
          have own :=
            storable declaration (Declaration.mem_walk_self declaration)
          obtain ⟨fields, read, has⟩ := Record.exists_ofValue? (by decide) laid
          have kind := Record.required?_of_has (finds_kind _) (has 0 rfl rfl)
          have name := Record.required?_of_has (finds_text _) (has 1 rfl rfl)
          have signature :=
            Record.required?_of_has (finds_text _) (has 2 rfl rfl)
          have location := Record.required?_of_has
            (finds_location own.location) (has 3 rfl rfl)
          have doc := Record.optional?_of_has
            (fun block member => finds_block (own.doc block member))
            (has 4 rfl rfl)
          have children : fields.required? 5
              (Value.list? (unpackDeclaration? limit)) =
                some declaration.children := by
            obtain ⟨inner, there, inList, less⟩ := has 5 rfl rfl
            have inShallow := list_shallowLayout inList
              (Nat.le_of_lt (Nat.lt_of_lt_of_le less shallow))
            refine Record.required?_of_has (finds_list fun child member => ?_)
              ⟨inner, there, inShallow, less⟩
            exact ih fun other => storable_of_child storable member
          have nesting :=
            Record.required?_of_has (finds_nesting _) (has 6 rfl rfl)
          have includes :=
            Record.required?_of_has (finds_texts _) (has 7 rfl rfl)
          cases declaration
          simp [unpackDeclaration?, read, kind, name, signature, location, doc,
            children, nesting, includes]

private theorem finds_file {file : SourceFile} (storable : file.Storable) :
    Finds unpackFile? (shallowLayout depthLimit fileLayout) file := by
  rintro value ⟨laid, shallow⟩
  obtain ⟨fields, read, has⟩ := Record.exists_ofValue? (by decide) laid
  have id := Record.required?_of_has (finds_text _) (has 0 rfl rfl)
  have text := Record.required?_of_has (finds_text _) (has 1 rfl rfl)
  have declarations : fields.required? 2
      (Value.list? (unpackDeclaration? depthLimit)) =
        some file.declarations := by
    obtain ⟨inner, there, ⟨depth, inList⟩, less⟩ := has 2 rfl rfl
    have inShallow := list_shallowLayout inList
      (Nat.le_succ_of_le (Nat.le_trans (Nat.le_of_lt less) shallow))
    refine Record.required?_of_has (finds_list fun declaration member => ?_)
      ⟨inner, there, inShallow, less⟩
    apply finds_declaration
    intro other inside
    apply storable.declarations
    rw [Declaration.walkList_eq_flatMap]
    exact List.mem_flatMap.mpr ⟨declaration, member, inside⟩
  have imports := Record.required?_of_has
    (finds_list fun reference member =>
      finds_import (storable.imports.each reference member)) (has 3 rfl rfl)
  have includes := Record.required?_of_has
    (finds_list fun reference member =>
      finds_include (storable.includes.each reference member)) (has 4 rfl rfl)
  simp [unpackFile?, read, id, text, declarations, imports, includes]

private theorem finds_registry {registry : Registry}
    (storable : registry.Storable) :
    Finds unpack? (shallowLayout depthLimit registryLayout) registry := by
  rintro value ⟨laid, shallow⟩
  obtain ⟨fields, read, has⟩ := Record.exists_ofValue? (by decide) laid
  have files : fields.required? 0 (Value.list? unpackFile?) =
      some registry.files := by
    obtain ⟨inner, there, inList, less⟩ := has 0 rfl rfl
    have inShallow := list_shallowLayout inList
      (Nat.le_succ_of_le (Nat.le_trans (Nat.le_of_lt less) shallow))
    refine Record.required?_of_has (finds_list fun file member => ?_)
      ⟨inner, there, inShallow, less⟩
    exact finds_file (storable.files.each file member)
  have names := Record.required?_of_has
    (finds_entries storable.sorted fun entry member =>
      finds_reference (storable.names.each entry member).2) (has 1 rfl rfl)
  simp [unpack?, read, files, names]

/-! ## The codec for MessagePack -/

theorem writesNamed_messagePack : messagePack.WritesNamed :=
  fun _ _ => rfl

theorem readsNamed_messagePack : messagePack.ReadsNamed depthLimit := by
  intro registry value message trailing storable laid spells shallow
  have found : decode? (message ++ trailing) = some registry := by
    rw [decode?, reads_decode spells shallow trailing]
    exact finds_registry storable ⟨laid, shallow⟩
  rw [messagePack]
  simp only [found]

theorem readsWhole_messagePack : messagePack.ReadsWhole := by
  intro bytes registry read
  rw [messagePack] at read
  cases found : decode? bytes with
  | none =>
      simp only [found] at read
      cases read
  | some other =>
      obtain ⟨⟨value, rest⟩, taken, -⟩ := Option.bind_eq_some_iff.mp found
      obtain ⟨message, rfl, spells⟩ := takes_decode depthLimit taken
      exact ⟨value, message, spells, List.prefix_append message rest⟩

end Snapshot

end StyleAudit
