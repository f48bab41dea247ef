import Mathlib.Data.List.Forall2
import Mathlib.Data.List.Nodup
import Mathlib.Tactic.MkIffOfInductiveProp
import StyleAudit.MessagePack.Record
import StyleAudit.Proofs.MessagePack.Format

/-!
# Data laid out as values

How a value stands for a text, a number, a choice, a list, entries by key or a
record.  A record is a map that has each field under its name: the fields may
come in any order, and others may stand among them.  What is written for data
is laid out in this way, and it has a place in a message if the lengths and
numbers in it are small enough.
-/

namespace StyleAudit

namespace Text

/-- The length of the text can be written in a message. -/
def Short (text : Text) : Prop :=
  byteSize text < 2 ^ 32

instance : DecidablePred Short :=
  fun text => Nat.decLt (byteSize text) (2 ^ 32)

end Text

namespace MessagePack

/-- The length of the list can be written in a message, and what it holds is as
it should be. -/
@[mk_iff]
structure Bounded {α : Type} (each : α → Prop) (list : List α) : Prop where
  short : list.length < 2 ^ 32
  each : ∀ a ∈ list, each a

instance {α : Type} (each : α → Prop) [DecidablePred each] :
    DecidablePred (Bounded each) :=
  fun _ => decidable_of_iff _ (bounded_iff _ _).symm

/-- How values stand for data of a kind. -/
abbrev Layout (α : Type) := Value → α → Prop

namespace Layout

variable {α : Type}

def text : Layout Text :=
  fun value text => value = .ofText text

def bool : Layout Bool :=
  fun value truth => value = .bool truth

def natural : Layout Nat :=
  fun value n => value = .unsigned n

/-- A choice stands there by its word. -/
def choice (word : α → Text) : Layout α :=
  fun value chosen => value = .ofText (word chosen)

def option (layout : Layout α) : Layout (Option α)
  | value, none => value = .nil
  | value, some a => value ≠ .nil ∧ layout value a

def list (layout : Layout α) : Layout (List α) :=
  fun value list =>
    ∃ items, value = .array items ∧ List.Forall₂ layout items list

/-- Keys with their values, in the order of the entries. -/
def entries (layout : Layout α) : Layout (List (Text × α)) :=
  fun value entries => ∃ pairs, value = .map pairs ∧
    List.Forall₂
      (fun pair entry => pair.1 = .ofText entry.1 ∧ layout pair.2 entry.2)
      pairs entries

/-- The value is a map from different names, and what it has under each of the
given names is as it should be. -/
def record (names : List String) (fields : List (Value → Prop))
    (value : Value) : Prop :=
  ∃ pairs,
    value = .map pairs ∧ (∀ pair ∈ pairs, ∃ bytes, pair.1 = .text bytes) ∧
    (pairs.map Prod.fst).Nodup ∧
    ∀ field ∈ names.zip fields, ∃ inner,
      (Value.ofText field.1.toList, inner) ∈ pairs ∧ field.2 inner

end Layout

/-! ## What is written is laid out -/

/-- The value has a place in a message, and it is as it should be. -/
structure Stands (field : Value → Prop) (value : Value) : Prop where
  fits : value.Fits
  laid : field value

private theorem length_textBytes (text : Text) :
    (textBytes text).length = Text.byteSize text := by
  induction text with
  | nil => rfl
  | cons c rest ih =>
      rw [textBytes, List.flatMap_cons, List.length_append,
        String.length_utf8EncodeChar, Text.byteSize_cons]
      exact congrArg _ ih

section Written

variable {α : Type} {write : α → Value} {layout : Layout α}

theorem fits_ofText {text : Text} (short : text.Short) :
    (Value.ofText text).Fits := by
  rw [Text.Short, ← length_textBytes] at short
  exact .text short

theorem stands_text {text : Text} (short : text.Short) :
    Stands (Layout.text · text) (.ofText text) :=
  ⟨fits_ofText short, rfl⟩

theorem stands_bool (truth : Bool) :
    Stands (Layout.bool · truth) (.bool truth) :=
  ⟨.bool, rfl⟩

theorem stands_unsigned {n : Nat} (less : n < 2 ^ 64) :
    Stands (Layout.natural · n) (.unsigned n) :=
  ⟨.unsigned less, rfl⟩

theorem stands_choice {word : α → Text} {chosen : α}
    (short : (word chosen).Short) :
    Stands (Layout.choice word · chosen) (.ofText (word chosen)) :=
  ⟨fits_ofText short, rfl⟩

theorem stands_option {option : Option α} (filled : ∀ a, write a ≠ .nil)
    (each : ∀ a ∈ option, Stands (layout · a) (write a)) :
    Stands (Layout.option layout · option) (.ofOption write option) := by
  cases option with
  | none => exact ⟨.nil, rfl⟩
  | some a =>
      obtain ⟨fits, laid⟩ := each a rfl
      exact ⟨fits, filled a, laid⟩

theorem stands_list {each : α → Prop} {list : List α}
    (bounded : Bounded each list)
    (stands : ∀ a, each a → Stands (layout · a) (write a)) :
    Stands (Layout.list layout · list) (.ofList write list) := by
  constructor
  · apply Value.Fits.array
    · rw [List.length_map]
      exact bounded.short
    · rw [List.forall_mem_map]
      exact fun a member => (stands a (bounded.each a member)).fits
  · refine ⟨list.map write, rfl, ?_⟩
    rw [List.forall₂_map_left_iff, List.forall₂_same]
    exact fun a member => (stands a (bounded.each a member)).laid

theorem stands_entries {each : α → Prop} {entries : List (Text × α)}
    (bounded : Bounded (fun entry => entry.1.Short ∧ each entry.2) entries)
    (stands : ∀ a, each a → Stands (layout · a) (write a)) :
    Stands (Layout.entries layout · entries) (.ofEntries write entries) := by
  constructor
  · apply Value.Fits.map
    · rw [List.length_map]
      exact bounded.short
    · rw [List.forall_mem_map]
      exact fun entry member => fits_ofText (bounded.each entry member).1
    · rw [List.forall_mem_map]
      exact fun entry member =>
        (stands entry.2 (bounded.each entry member).2).fits
  · refine ⟨_, rfl, ?_⟩
    rw [List.forall₂_map_left_iff, List.forall₂_same]
    exact fun entry member =>
      ⟨rfl, (stands entry.2 (bounded.each entry member).2).laid⟩

end Written

/-! ## Records -/

/-- Names that can be written in a message, no two of them the same. -/
@[mk_iff]
structure PlainNames (names : List String) : Prop where
  distinct : (names.map String.toList).Nodup
  bounded : Bounded Text.Short (names.map String.toList)

instance : DecidablePred PlainNames :=
  fun _ => decidable_of_iff _ (plainNames_iff _).symm

theorem textBytes_injective : Function.Injective textBytes := by
  intro left right same
  have encoded : left.utf8Encode = right.utf8Encode := by
    simpa [textBytes, List.utf8Encode] using same
  have decoded := congrArg ByteArray.utf8Decode? encoded
  rw [List.utf8Decode?_utf8Encode, List.utf8Decode?_utf8Encode] at decoded
  simpa using decoded

theorem ofText_injective : Function.Injective Value.ofText := by
  intro left right same
  exact textBytes_injective (Value.text.inj same)

private theorem exists_value_of_mem_zip {names : List String}
    {fields : List (Value → Prop)} {values : List Value}
    (stand : List.Forall₂ Stands fields values)
    {field : String × (Value → Prop)} (member : field ∈ names.zip fields) :
    ∃ value, (field.1, value) ∈ names.zip values ∧ field.2 value := by
  induction stand generalizing names with
  | nil =>
      rw [List.zip_nil_right] at member
      cases member
  | cons first _ ih =>
      cases names with
      | nil => cases member
      | cons name names =>
          rcases List.mem_cons.mp member with rfl | later
          · exact ⟨_, List.mem_cons_self, first.laid⟩
          · obtain ⟨value, there, isMeant⟩ := ih later
            exact ⟨value, List.mem_cons_of_mem _ there, isMeant⟩

private theorem fits_of_stand {fields : List (Value → Prop)}
    {values : List Value} (stand : List.Forall₂ Stands fields values) :
    ∀ value ∈ values, value.Fits := by
  induction stand with
  | nil => exact List.forall_mem_nil _
  | cons first _ ih => exact List.forall_mem_cons.mpr ⟨first.fits, ih⟩

/-- A record is written with each field under its name. -/
theorem stands_record {names : List String} {values : List Value}
    {fields : List (Value → Prop)} (plain : PlainNames names)
    (lengths : names.length = values.length)
    (stand : List.Forall₂ Stands fields values) :
    Stands (Layout.record names fields) (.ofFields (names.zip values)) := by
  have keys : ((names.zip values).map fun field =>
      (Value.ofText field.1.toList, field.2)).map Prod.fst =
        (names.map String.toList).map Value.ofText := by
    rw [List.map_map, List.map_map]
    conv_rhs => rw [← List.map_fst_zip (Nat.le_of_eq lengths), List.map_map]
    rfl
  constructor
  · apply Value.Fits.map
    · have few := plain.bounded.short
      rw [List.length_map] at few
      rw [List.length_map, List.length_zip]
      omega
    · rw [List.forall_mem_map]
      intro field member
      have named := List.mem_map_of_mem (f := String.toList)
        (List.of_mem_zip member).1
      exact fits_ofText (plain.bounded.each _ named)
    · rw [List.forall_mem_map]
      exact fun field member =>
        fits_of_stand stand field.2 (List.of_mem_zip member).2
  · refine ⟨_, rfl, ?_, ?_, ?_⟩
    · rw [List.forall_mem_map]
      exact fun field _ => ⟨_, rfl⟩
    · rw [keys]
      exact plain.distinct.map ofText_injective
    · intro field member
      obtain ⟨value, there, isMeant⟩ := exists_value_of_mem_zip stand member
      exact ⟨value, List.mem_map.mpr ⟨_, there, rfl⟩, isMeant⟩

end MessagePack

end StyleAudit
