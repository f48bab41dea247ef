import Mathlib.Data.List.Basic
import StyleAudit.Proofs.MessagePack.Layout
import StyleAudit.Proofs.Text.Order

/-!
# Data is found in the values that it is laid out as

For each layout there is a reader that finds the data in every value that is
laid out so.  For what holds other things, this rests on the reader of the
things inside.
-/

namespace StyleAudit

namespace MessagePack

/-- The reader finds the data in whatever value is laid out for it. -/
def Finds {α : Type} (read : Value → Option α) (layout : Layout α) (a : α) :
    Prop :=
  ∀ ⦃value⦄, layout value a → read value = some a

section Finding

variable {α : Type} {read : Value → Option α} {layout : Layout α}

theorem text?_ofText (text : Text) : (Value.ofText text).text? = some text := by
  have decoded : (textBytes text).toByteArray.utf8Decode? = some text.toArray :=
    List.utf8Decode?_utf8Encode
  rw [Value.ofText, Value.text?, ofTextBytes?, decoded]
  rfl

theorem finds_text (text : Text) : Finds Value.text? Layout.text text := by
  rintro value rfl
  exact text?_ofText text

theorem finds_bool (truth : Bool) : Finds Value.bool? Layout.bool truth := by
  rintro value rfl
  rfl

theorem finds_natural {bound n : Nat} (less : n < bound) :
    Finds (Value.natural? bound) Layout.natural n := by
  rintro value rfl
  exact if_pos less

theorem finds_option {option : Option α}
    (each : ∀ a ∈ option, Finds read layout a) :
    Finds (Value.option? read) (Layout.option layout) option := by
  intro value laid
  cases option with
  | none =>
      obtain rfl : value = .nil := laid
      rfl
  | some a =>
      obtain ⟨filled, laid⟩ := laid
      rw [Value.option?, each a rfl laid, Option.map_some]
      exact filled

theorem finds_list {list : List α} (each : ∀ a ∈ list, Finds read layout a) :
    Finds (Value.list? read) (Layout.list layout) list := by
  rintro value ⟨items, rfl, laid⟩
  rw [Value.list?]
  induction laid with
  | nil => rfl
  | cons first _ ih =>
      obtain ⟨here, later⟩ := List.forall_mem_cons.mp each
      rw [List.mapM_cons, here first, ih later]
      rfl

theorem finds_entries {entries : List (Text × α)}
    (ascending : Text.Ascending entries)
    (each : ∀ entry ∈ entries, Finds read layout entry.2) :
    Finds (Value.entries? read) (Layout.entries layout) entries := by
  rintro value ⟨pairs, rfl, laid⟩
  have found : pairs.mapM (fun (pair : Value × Value) => do
      pure (← pair.1.text?, ← read pair.2)) = some entries := by
    clear ascending
    induction laid with
    | nil => rfl
    | @cons pair entry _ _ first _ ih =>
        obtain ⟨here, later⟩ := List.forall_mem_cons.mp each
        rw [List.mapM_cons, first.1, text?_ofText, here first.2, ih later]
        rfl
  rw [Value.entries?, found, Option.map_some,
    Text.sortedEntries_of_ascending ascending]

/-! ## Choices and the names of fields -/

/-- A name is found at its place, if no two names are the same. -/
theorem place?_ofText {names : List Text} (distinct : names.Nodup)
    {place : Nat} {name : Text} (named : names[place]? = some name) :
    (Value.ofText name).place? names = some place := by
  obtain ⟨bound, rfl⟩ := List.getElem?_eq_some_iff.mp named
  rw [Value.ofText, Value.place?, List.findIdx?_eq_some_iff_getElem]
  refine ⟨bound, beq_self_eq_true _, ?_⟩
  intro other less same
  have sameName := textBytes_injective (beq_iff_eq.mp same)
  exact Nat.ne_of_lt less (distinct.getElem_inj_iff.mp sameName)

/-- No two names have the same place. -/
theorem eq_of_place? {names : List Text} {left right : Bytes} {place : Nat}
    (leftPlace : (Value.text left).place? names = some place)
    (rightPlace : (Value.text right).place? names = some place) :
    left = right := by
  obtain ⟨_, leftThere, -⟩ := List.findIdx?_eq_some_iff_getElem.mp leftPlace
  obtain ⟨_, rightThere, -⟩ := List.findIdx?_eq_some_iff_getElem.mp rightPlace
  rw [← beq_iff_eq.mp leftThere, beq_iff_eq.mp rightThere]

theorem finds_choice {choices : List α} {word : α → Text}
    (distinct : (choices.map word).Nodup) {chosen : α}
    (member : chosen ∈ choices) :
    Finds (Value.choice? (choices.map fun choice => (word choice, choice)))
      (Layout.choice word) chosen := by
  rintro value rfl
  obtain ⟨place, there⟩ := List.getElem?_of_mem member
  have words : (choices.map fun choice => (word choice, choice)).map (·.1) =
      choices.map word := by
    rw [List.map_map]
    rfl
  have found : (Value.ofText (word chosen)).place? (choices.map word) =
      some place :=
    place?_ofText distinct (by rw [List.getElem?_map, there, Option.map_some])
  rw [Value.choice?]
  · simp only [words, found, Option.bind_some, List.getElem?_map, there,
      Option.map_some]
  · intro key same
    cases same

end Finding

/-! ## Records -/

namespace Record

variable {α : Type}

/-- The pairs of a map are taken as fields one by one.  What has been taken
stays, and every pair whose name is known is found at the place of its name. -/
theorem exists_ofEntries? {names : List Text} {record : Record}
    {pairs : List (Value × Value)}
    (texts : ∀ pair ∈ pairs, ∃ bytes, pair.1 = .text bytes)
    (distinct : (pairs.map Prod.fst).Nodup)
    (fresh : ∀ pair ∈ pairs, ∀ place, pair.1.place? names = some place →
      record.lookup place = none) :
    ∃ result, ofEntries? names record pairs = some result ∧
      (∀ place inner, record.lookup place = some inner →
        result.lookup place = some inner) ∧
      ∀ pair ∈ pairs, ∀ place, pair.1.place? names = some place →
        result.lookup place = some pair.2 := by
  induction pairs generalizing record with
  | nil =>
      exact ⟨record, rfl, fun _ _ => id, List.forall_mem_nil _⟩
  | cons pair rest ih =>
      obtain ⟨⟨bytes, isText⟩, textsLater⟩ := List.forall_mem_cons.mp texts
      obtain ⟨freshHere, freshLater⟩ := List.forall_mem_cons.mp fresh
      obtain ⟨key, value⟩ := pair
      obtain rfl : key = .text bytes := isText
      rw [List.map_cons, List.nodup_cons] at distinct
      obtain ⟨once, distinctLater⟩ := distinct
      have named : (Value.text bytes).isFieldName = true := rfl
      rw [ofEntries?, if_pos named]
      cases known : (Value.text bytes).place? names with
      | none =>
          obtain ⟨result, read, kept, found⟩ :=
            ih textsLater distinctLater freshLater
          refine ⟨result, read, kept, List.forall_mem_cons.mpr ⟨?_, found⟩⟩
          intro place there
          rw [known] at there
          cases there
      | some place =>
          have unknown := freshHere place known
          have freshToo : ∀ pair ∈ rest, ∀ other,
              pair.1.place? names = some other →
                (record ++ [(place, value)]).lookup other = none := by
            intro pair member other there
            obtain ⟨otherBytes, otherText⟩ := textsLater pair member
            have apart : other ≠ place := by
              rintro rfl
              rw [otherText] at there
              have repeated : pair.1 ∈ rest.map Prod.fst :=
                List.mem_map_of_mem member
              rw [otherText, ← eq_of_place? known there] at repeated
              exact once repeated
            rw [List.lookup_append, freshLater pair member other there,
              Option.none_or, List.lookup_cons, beq_eq_false_iff_ne.mpr apart,
              List.lookup_nil]
          obtain ⟨result, read, kept, found⟩ :=
            ih textsLater distinctLater freshToo
          simp only [unknown, Option.isSome_none, Bool.false_eq_true, if_false]
          refine ⟨result, read, ?_, List.forall_mem_cons.mpr ⟨?_, found⟩⟩
          · intro other inner earlier
            apply kept
            rw [List.lookup_append, earlier, Option.some_or]
          · intro other there
            obtain rfl : place = other :=
              Option.some.inj (known.symm.trans there)
            apply kept
            rw [List.lookup_append, unknown, Option.none_or,
              List.lookup_cons_self]

/-- At the place of a field the record has a value that is as it should be, and
that nests less deep than the record. -/
def Has (record : Record) (depth place : Nat) (field : Value → Prop) : Prop :=
  ∃ inner, record.lookup place = some inner ∧ field inner ∧ inner.depth < depth

/-- The fields of a record are found in every value that is laid out as one. -/
theorem exists_ofValue? {names : List String} {fields : List (Value → Prop)}
    {value : Value} (plain : PlainNames names)
    (laid : Layout.record names fields value) :
    ∃ record, ofValue? names value = some record ∧
      ∀ place {name field}, names[place]? = some name →
        fields[place]? = some field →
        Has record value.depth place field := by
  obtain ⟨pairs, rfl, texts, distinct, under⟩ := laid
  obtain ⟨record, read, -, found⟩ :=
    @exists_ofEntries? (names.map String.toList) [] pairs texts distinct
      fun _ _ _ _ => rfl
  refine ⟨record, read, ?_⟩
  intro place name field named meant
  have inZip : (name, field) ∈ names.zip fields := by
    apply List.mem_of_getElem? (i := place)
    rw [List.getElem?_zip_eq_some]
    exact ⟨named, meant⟩
  obtain ⟨inner, there, isMeant⟩ := under _ inZip
  have inside := (Value.depth_le_depthOfEntries there).2
  refine ⟨inner, found _ there place ?_, isMeant, ?_⟩
  · apply place?_ofText plain.distinct
    rw [List.getElem?_map, named, Option.map_some]
  · rw [Value.depth]
    exact Nat.lt_succ_of_le inside

section Fields

variable {record : Record} {depth place : Nat} {read : Value → Option α}
  {layout : Layout α}

theorem required?_of_has {a : α} (finds : Finds read layout a)
    (has : Has record depth place fun inner => layout inner a) :
    record.required? place read = some a := by
  obtain ⟨inner, there, laid, -⟩ := has
  rw [required?, there, Option.bind_some, finds laid]

theorem optional?_of_has {option : Option α}
    (finds : ∀ a ∈ option, Finds read layout a)
    (has : Has record depth place fun inner =>
      Layout.option layout inner option) :
    record.optional? place read = some option := by
  obtain ⟨inner, there, laid, -⟩ := has
  rw [optional?, there]
  exact finds_option finds laid

end Fields

end Record

end MessagePack

end StyleAudit
