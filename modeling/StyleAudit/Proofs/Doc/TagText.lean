import StyleAudit.Proofs.Doc.Content
import StyleAudit.Proofs.Text.InTurn
import StyleAudit.Proofs.Text.Words

/-!
# What is written of a tag

A tag is written on one line: its name, and a text whose form depends on the
name.  Three classes of tags matter.  Legible tags are those that can be read
from some line, and expressible ones those that can be read from the line that
is written for them.  The lines of canonical tags are also safe from what
reading a comment takes away.
-/

namespace StyleAudit

namespace Doc

/-! ## Canonical members and tags -/

/-- A text that can be the only word behind a tag. -/
@[mk_iff]
structure IsWord (word : Text) : Prop where
  nonempty : word ≠ []
  blankFree : Text.BlankFree word
  notClosing : Text.endsWith ['*', '/'] word = false

instance : DecidablePred IsWord :=
  fun _ => decidable_of_iff _ (isWord_iff _).symm

/-- A text that can stand in a pair of brackets, of which the second is
given. -/
@[mk_iff]
structure Enclosable (bracket : Char) (text : Text) : Prop where
  nonempty : text ≠ []
  trimmed : Text.Trimmed text
  oneLine : '\n' ∉ text
  unclosed : bracket ∉ text

instance (bracket : Char) : DecidablePred (Enclosable bracket) :=
  fun _ => decidable_of_iff _ (enclosable_iff ..).symm

/-- The texts that a parameter holds, in the order in which they are written. -/
def Parameter.texts (parameter : Parameter) : List Text :=
  parameter.type.toList ++ parameter.name ::
    (parameter.default.toList ++ [parameter.description])

@[mk_iff]
structure Parameter.Canonical (parameter : Parameter) : Prop where
  name : Text.IsName parameter.name
  type : ∀ type ∈ parameter.type, Enclosable '}' type
  default : ∀ value ∈ parameter.default, Enclosable ']' value
  optional : parameter.default.isSome → parameter.optional = true
  description : Clean parameter.description

instance : DecidablePred Parameter.Canonical :=
  fun _ => decidable_of_iff _ (Parameter.canonical_iff _).symm

/-- The parameter that a property would be, if it were one. -/
def Property.parameter (property : Property) : Parameter :=
  { name := property.name, type := property.type,
    description := property.description }

def Property.Canonical (property : Property) : Prop :=
  property.parameter.Canonical

instance (property : Property) : Decidable property.Canonical :=
  inferInstanceAs (Decidable property.parameter.Canonical)

@[mk_iff]
structure Modifier.Canonical (modifier : Modifier) : Prop where
  name : Text.IsName modifier.name
  undashed : Text.beginsWith ['-', '-'] modifier.name = false
  description : Clean modifier.description

instance : DecidablePred Modifier.Canonical :=
  fun _ => decidable_of_iff _ (Modifier.canonical_iff _).symm

namespace Tag

/-- The names of the tags that have a meaning of their own. -/
def reserved : List Text :=
  ["type".toList, "name".toList, "implements".toList, "returns".toList,
    "param".toList, "prop".toList, "modifier".toList]

/-- What is written of a member. -/
def memberText (it : Parameter) : Text :=
  typeText it.type ++ (it.nameText ++ descriptionText it.description)

/-- The name of a tag, and the text written behind it. -/
def parts : Tag → Text × Text
  | .kind it => ("type".toList, it.word)
  | .name word => ("name".toList, word)
  | .implements word => ("implements".toList, word)
  | .returns value => ("returns".toList, value)
  | .parameter it => ("param".toList, memberText it)
  | .property it => ("prop".toList, memberText it.parameter)
  | .modifier it =>
    ("modifier".toList, it.name ++ descriptionText it.description)
  | .extension tag value => (tag, value)

/-- The line of a tag. -/
def line (tag : Tag) : Text :=
  tagLine tag.parts.1 tag.parts.2

/-- The texts that a tag holds, in the order in which they are written. -/
def texts : Tag → List Text
  | .kind _ => []
  | .name text | .implements text | .returns text => [text]
  | .parameter it => it.texts
  | .property it => it.parameter.texts
  | .modifier it => [it.name, it.description]
  | .extension tag value => [tag, value]

def Canonical : Tag → Prop
  | .kind _ => True
  | .name word => IsWord word
  | .implements word => IsWord word ∧ Text.beginsWith ['.'] word = false
  | .returns value => value ≠ [] ∧ Clean value
  | .parameter it => it.Canonical
  | .property it => it.Canonical
  | .modifier it => it.Canonical
  | .extension tag value =>
    (tag ≠ [] ∧ Text.BlankFree tag ∧ tag ∉ reserved) ∧ Clean value ∧
      (value = [] → Text.endsWith ['*', '/'] tag = false)

end Tag

/-! ## Legible and expressible tags -/

/-- What is known of a parameter that was read. -/
structure Parameter.Legible (parameter : Parameter) : Prop where
  name : Text.IsName parameter.name
  type : ∀ type ∈ parameter.type, type ≠ [] ∧ Text.Trimmed type ∧ '}' ∉ type
  default : ∀ value ∈ parameter.default, value ≠ [] ∧ Text.Trimmed value
  optional : parameter.default.isSome → parameter.optional = true
  description : Text.Trimmed parameter.description

theorem Parameter.Canonical.legible {parameter : Parameter}
    (canonical : parameter.Canonical) :
    parameter.Legible where
  name := canonical.name
  type := fun type given =>
    have shape := canonical.type type given
    ⟨shape.nonempty, shape.trimmed, shape.unclosed⟩
  default := fun value given =>
    have shape := canonical.default value given
    ⟨shape.nonempty, shape.trimmed⟩
  optional := canonical.optional
  description := canonical.description.trimmed

theorem Parameter.Canonical.oneLine {parameter : Parameter}
    (canonical : parameter.Canonical) :
    ∀ text ∈ parameter.texts, '\n' ∉ text := by
  simp only [texts, List.mem_append, List.mem_cons, Option.mem_toList,
    List.not_mem_nil, or_false, or_imp, forall_and, forall_eq]
  exact ⟨fun type given => (canonical.type type given).oneLine,
    canonical.name.not_mem (by decide),
    fun value given => (canonical.default value given).oneLine,
    canonical.description.oneLine⟩

namespace Tag

/-- What is known of a tag that was read. -/
def Legible : Tag → Prop
  | .kind _ => True
  | .name word => word ≠ [] ∧ Text.BlankFree word
  | .implements word => Text.BlankFree word ∧ Text.beginsWith ['.'] word = false
  | .returns value => value ≠ [] ∧ Text.Trimmed value
  | .parameter it => it.Legible
  | .property it => it.parameter.Legible
  | .modifier it =>
    Text.IsName it.name ∧ Text.beginsWith ['-', '-'] it.name = false ∧
      Text.Trimmed it.description
  | .extension tag value =>
    (tag ≠ [] ∧ Text.BlankFree tag ∧ tag ∉ reserved) ∧ Text.Trimmed value

/-- What is written for the tag says the tag.  Of the legible tags, this leaves
out an interface without a name, and a parameter with a bracket in its default
value. -/
def Expressible : Tag → Prop
  | .implements word => word ≠ []
  | .parameter it => ∀ value ∈ it.default, ']' ∉ value
  | _ => True

theorem Canonical.legible {tag : Tag} (canonical : tag.Canonical) :
    tag.Legible := by
  cases tag with
  | kind _ => trivial
  | name word => exact ⟨canonical.nonempty, canonical.blankFree⟩
  | implements word => exact ⟨canonical.1.blankFree, canonical.2⟩
  | returns value => exact ⟨canonical.1, canonical.2.trimmed⟩
  | parameter it => exact Parameter.Canonical.legible canonical
  | property it => exact Parameter.Canonical.legible canonical
  | modifier it =>
      exact ⟨canonical.name, canonical.undashed, canonical.description.trimmed⟩
  | extension tag value => exact ⟨canonical.1, canonical.2.1.trimmed⟩

theorem Canonical.expressible {tag : Tag} (canonical : tag.Canonical) :
    tag.Expressible := by
  cases tag with
  | implements word => exact canonical.1.nonempty
  | parameter it =>
      exact fun value given => (canonical.default value given).unclosed
  | _ => trivial

theorem Canonical.oneLine {tag : Tag} (canonical : tag.Canonical) :
    ∀ text ∈ tag.texts, '\n' ∉ text := by
  cases tag with
  | kind _ => exact nofun
  | name word =>
      exact List.forall_mem_singleton.mpr
        (canonical.blankFree.not_mem (by decide))
  | implements word =>
      exact List.forall_mem_singleton.mpr
        (canonical.1.blankFree.not_mem (by decide))
  | returns value => exact List.forall_mem_singleton.mpr canonical.2.oneLine
  | parameter it => exact Parameter.Canonical.oneLine canonical
  | property it => exact Parameter.Canonical.oneLine canonical
  | modifier it =>
      exact List.forall_mem_cons.mpr ⟨canonical.name.not_mem (by decide),
        List.forall_mem_singleton.mpr canonical.description.oneLine⟩
  | extension key value =>
      exact List.forall_mem_cons.mpr ⟨canonical.1.2.1.not_mem (by decide),
        List.forall_mem_singleton.mpr canonical.2.1.oneLine⟩

/-! ## The texts of legible tags -/

theorem descriptionText_of_filled {text : Text} (filled : text ≠ []) :
    descriptionText text = ' ' :: '-' :: ' ' :: text := by
  simp [descriptionText, filled]

theorem nameText_ne_nil {parameter : Parameter} (named : parameter.name ≠ []) :
    parameter.nameText ≠ [] := by
  rw [Parameter.nameText]
  split
  · exact List.cons_ne_nil _ _
  · split
    · exact List.cons_ne_nil _ _
    · exact named

theorem memberText_ne_nil {parameter : Parameter}
    (named : parameter.name ≠ []) :
    memberText parameter ≠ [] := by
  simp [memberText, nameText_ne_nil named]

theorem isWord_word (kind : DeclarationKind) : IsWord kind.word := by
  cases kind <;> decide

theorem parts_reserved (tag : Tag) :
    tag.parts.1 ∈ reserved ∨ ∃ name value, tag = .extension name value := by
  cases tag with
  | extension name value => exact .inr ⟨name, value, rfl⟩
  | _ => exact .inl (of_decide_eq_true rfl)

theorem Expressible.ne_implements {tag : Tag} (expressible : tag.Expressible) :
    tag ≠ .implements [] := by
  rintro rfl
  exact expressible rfl

/-- Only an extension or an interface may have nothing behind its name. -/
theorem Legible.text_ne_nil {tag : Tag} (legible : tag.Legible)
    (named : tag ≠ .implements [])
    (own : ∀ name value, tag ≠ .extension name value) : tag.parts.2 ≠ [] := by
  cases tag with
  | kind it => exact (isWord_word it).nonempty
  | name word => exact legible.1
  | implements word => exact fun empty => named (congrArg Tag.implements empty)
  | returns value => exact legible.1
  | parameter it => exact memberText_ne_nil legible.name.1
  | property it => exact memberText_ne_nil legible.name.1
  | modifier it => exact List.append_ne_nil_of_left_ne_nil legible.1.1 _
  | extension name value => exact (own name value rfl).elim

theorem Legible.blankFree_parts {tag : Tag} (legible : tag.Legible) :
    Text.BlankFree tag.parts.1 := by
  have table : ∀ word ∈ reserved, Text.BlankFree word := by decide
  rcases parts_reserved tag with own | ⟨key, value, rfl⟩
  · exact table _ own
  · exact legible.1.2.1

theorem trimmed_bracketed (inner : Text) :
    Text.Trimmed ('[' :: inner ++ [']']) := by
  have front : Text.trimStart ('[' :: inner ++ [']']) = '[' :: inner ++ [']'] :=
    Text.trimStart_cons_of_filled (by decide) _
  have back : Text.trimEnd ('[' :: inner ++ [']']) = '[' :: inner ++ [']'] :=
    Text.trimEnd_concat_of_filled (by decide) _
  rw [Text.Trimmed, Text.trim, front, back]

theorem trimmed_nameText {it : Parameter} (named : Text.IsName it.name) :
    Text.Trimmed it.nameText := by
  rw [Parameter.nameText]
  split
  · exact trimmed_bracketed _
  · split
    · exact trimmed_bracketed _
    · exact named.blankFree.trimmed

theorem trimmed_dashed {text : Text} (trimmed : Text.Trimmed text)
    (filled : text ≠ []) :
    Text.Trimmed ('-' :: ' ' :: text) :=
  Text.trimmed_append_space (List.cons_ne_nil '-' []) (by decide) filled
    trimmed.trimEnd_eq

theorem trimmed_append_description {front description : Text}
    (nonempty : front ≠ []) (trimmed : Text.Trimmed front)
    (described : Text.Trimmed description) :
    Text.Trimmed (front ++ descriptionText description) := by
  by_cases empty : description = []
  · simpa [descriptionText, empty] using trimmed
  · rw [descriptionText_of_filled empty]
    exact Text.trimmed_append_space nonempty trimmed.trimStart_eq
      (List.cons_ne_nil _ _) (trimmed_dashed described empty).trimEnd_eq

theorem trimmed_memberText {it : Parameter} (legible : it.Legible) :
    Text.Trimmed (memberText it) := by
  have filled := nameText_ne_nil legible.name.1
  have rest := trimmed_append_description filled (trimmed_nameText legible.name)
    legible.description
  rw [memberText]
  cases it.type with
  | none => exact rest
  | some type =>
      have braced :=
        Text.trimmed_append_space (List.cons_ne_nil '{' (type ++ ['}']))
          (Text.trimStart_cons_of_filled (by decide) _)
        (List.append_ne_nil_of_left_ne_nil filled _) rest.trimEnd_eq
      simpa [typeText] using braced

theorem trimmed_modifierText {modifier : Modifier}
    (named : Text.IsName modifier.name)
    (described : Text.Trimmed modifier.description) :
    Text.Trimmed (modifier.name ++ descriptionText modifier.description) :=
  trimmed_append_description named.1 named.blankFree.trimmed described

theorem Legible.trimmed_parts {tag : Tag} (legible : tag.Legible) :
    Text.Trimmed tag.parts.2 := by
  cases tag with
  | kind it => exact (isWord_word it).blankFree.trimmed
  | name word => exact legible.2.trimmed
  | implements word => exact legible.1.trimmed
  | returns value => exact legible.2
  | parameter it => exact trimmed_memberText legible
  | property it => exact trimmed_memberText legible
  | modifier it => exact trimmed_modifierText legible.1 legible.2.2
  | extension tag value => exact legible.2

theorem Legible.trimmed_line {tag : Tag} (legible : tag.Legible) :
    Text.Trimmed tag.line := by
  have blankFree : Text.BlankFree ('@' :: tag.parts.1) :=
    List.forall_mem_cons.mpr ⟨by decide, legible.blankFree_parts⟩
  rw [line, tagLine]
  split
  · exact blankFree.trimmed
  · rename_i filled
    exact Text.trimmed_append_space (List.cons_ne_nil _ _)
      blankFree.trimmed.trimStart_eq (by simpa using filled)
        legible.trimmed_parts.trimEnd_eq

/-! ## What is written -/

/-- What is written of a tag.  A tag with a meaning of its own has a space
behind its name even if nothing follows. -/
def written : Tag → Text
  | .extension tag value => tagLine tag value
  | tag => '@' :: tag.parts.1 ++ ' ' :: tag.parts.2

theorem append_eq_written (tag : Tag)
    (own : ∀ name value, tag ≠ .extension name value) {label : Text}
    (labelled : label = '@' :: tag.parts.1 ++ [' ']) :
    label ++ tag.parts.2 = tag.written := by
  rw [labelled, List.append_assoc, List.singleton_append]
  cases tag with
  | extension name value => exact (own name value rfl).elim
  | _ => rfl

theorem written_eq_line {tag : Tag}
    (filled : (∀ name value, tag ≠ .extension name value) → tag.parts.2 ≠ []) :
    tag.written = tag.line := by
  cases tag with
  | extension name value => rfl
  | _ => simp_all [written, line, tagLine]

end Tag

/-! ## Counting characters

The line of a tag is made of the texts of the tag, an at sign, and characters
that only hold these apart.  So a character of another kind is in the line as
often as it is in the texts. -/

open Text (weight weight_nil weight_cons weight_append)

namespace Tag

/-- The characters that stand between the texts of a tag. -/
def frame : Text :=
  "abcdefghijklmnopqrstuvwxyz -=[]\x7b\x7d".toList

variable {test : Char → Bool}

theorem countP_eq_zero_of_frame (plain : ∀ c ∈ frame, test c = false)
    {text : Text} (framed : text ⊆ frame) : text.countP test = 0 := by
  rw [List.countP_eq_zero]
  intro c member
  simp [plain c (framed member)]

theorem countP_descriptionText (plain : ∀ c ∈ frame, test c = false)
    (description : Text) :
    (descriptionText description).countP test = description.countP test := by
  have marks : test '-' = false ∧ test ' ' = false :=
    ⟨plain _ (by decide), plain _ (by decide)⟩
  cases description <;> simp [descriptionText, marks]

theorem countP_memberText (plain : ∀ c ∈ frame, test c = false)
    (it : Parameter) :
    (memberText it).countP test = weight test it.texts := by
  obtain ⟨name, type, optional, default, description⟩ := it
  have marks : test '{' = false ∧ test '}' = false ∧ test '[' = false ∧
      test ']' = false ∧
      test '=' = false ∧ test ' ' = false := by
    refine ⟨?_, ?_, ?_, ?_, ?_, ?_⟩ <;> exact plain _ (by decide)
  have typed : (typeText type).countP test = weight test type.toList := by
    cases type <;> simp [typeText, weight_nil, weight_cons, marks]
  have named :
      (Parameter.nameText ⟨name, type, optional, default, description⟩).countP
        test =
      name.countP test + weight test default.toList := by
    cases default with
    | some value => simp [Parameter.nameText, weight_nil, weight_cons, marks]
    | none => cases optional <;> simp [Parameter.nameText, weight_nil, marks]
  simp only [memberText, Parameter.texts, List.countP_append, typed, named,
    countP_descriptionText plain, weight_append, weight_cons, weight_nil]
  omega

/-- The text of a tag with a meaning of its own. -/
theorem countP_text (plain : ∀ c ∈ frame, test c = false) {tag : Tag}
    (own : ∀ name value, tag ≠ .extension name value) :
    tag.parts.2.countP test = weight test tag.texts := by
  have words : ∀ it : DeclarationKind, it.word ⊆ frame := by
    intro it
    cases it <;> decide
  cases tag with
  | kind it => exact countP_eq_zero_of_frame plain (words it)
  | name text => exact (weight_cons text []).symm
  | implements text => exact (weight_cons text []).symm
  | returns text => exact (weight_cons text []).symm
  | parameter it => exact countP_memberText plain it
  | property it => exact countP_memberText plain it.parameter
  | modifier it =>
      change (it.name ++ descriptionText it.description).countP test =
        weight test [it.name, it.description]
      rw [List.countP_append, countP_descriptionText plain, weight_cons,
        weight_cons, weight_nil, Nat.add_zero]
  | extension name value => exact (own name value rfl).elim

theorem countP_written (plain : ∀ c ∈ frame, test c = false) (tag : Tag) :
    tag.written.countP test = ['@'].countP test + weight test tag.texts := by
  have space : [' '].countP test = 0 :=
    countP_eq_zero_of_frame plain (by decide)
  have spaced : ∀ label text : Text, ('@' :: label ++ ' ' :: text).countP test =
      ['@'].countP test + (label.countP test + text.countP test) := by
    intro label text
    have split : '@' :: label ++ ' ' :: text =
        ['@'] ++ (label ++ ([' '] ++ text)) := by simp
    rw [split, List.countP_append, List.countP_append, List.countP_append,
      space, Nat.zero_add]
  by_cases own : ∀ name value, tag ≠ .extension name value
  · have table : ∀ word ∈ reserved, word ⊆ frame := by decide
    have isReserved : tag.parts.1 ∈ reserved :=
      (parts_reserved tag).resolve_right fun ⟨key, value, same⟩ =>
        own key value same
    have written : '@' :: tag.parts.1 ++ ' ' :: tag.parts.2 = tag.written := by
      rw [← append_eq_written tag own rfl, List.append_assoc,
        List.singleton_append]
    rw [← written, spaced, countP_eq_zero_of_frame plain (table _ isReserved),
      Nat.zero_add, countP_text plain own]
  · obtain ⟨name, value, rfl⟩ : ∃ name value, tag = .extension name value := by
      simpa using own
    have counted : weight test (Tag.extension name value).texts =
        name.countP test + value.countP test := by
      rw [texts, weight_cons, weight_cons, weight_nil, Nat.add_zero]
    rw [counted, written, tagLine]
    split
    · rename_i empty
      rw [List.isEmpty_iff.mp empty, List.countP_nil, Nat.add_zero]
      exact (List.countP_append : (['@'] ++ name).countP test = _)
    · exact spaced name value

theorem plain_of_not_mem {c : Char} (absent : c ∉ frame) :
    ∀ d ∈ frame, (d == c) = false := by
  intro d inFrame
  simpa using fun same : d = c => absent (same ▸ inFrame)

theorem not_mem_written {c : Char} (plain : c ∉ '@' :: frame) {tag : Tag}
    (absent : ∀ text ∈ tag.texts, c ∉ text) : c ∉ tag.written := by
  rw [List.mem_cons, not_or] at plain
  have noneInTexts : weight (· == c) tag.texts = 0 :=
    Text.weight_eq_zero fun text inTag =>
      List.count_eq_zero.mpr (absent text inTag)
  have noSign : ['@'].countP (· == c) = 0 := by simp [Ne.symm plain.1]
  have counted := countP_written (plain_of_not_mem plain.2) tag
  rw [noneInTexts, noSign] at counted
  exact List.count_eq_zero.mp counted

end Tag

end Doc

end StyleAudit
