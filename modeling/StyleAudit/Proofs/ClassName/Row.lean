import StyleAudit.Proofs.ClassName.Grammar
import StyleAudit.Proofs.Text.Ends

/-!
# Class names as rows of elements

What stands in front of the elements of a class name is made as an element is:
it is a name, with the type prefix and the namespace in front of it, and
modifiers.  So a class name is a row of elements with two underscores between
them.  Reading cuts a text into such a row at its doubled underscores, and cuts
each element at its doubled hyphens.  The settings only say how the first name
is divided, and what is written comes out again.
-/

namespace StyleAudit

namespace Element

theorem text_eq_join (element : Element) :
    element.text = Text.join ['-', '-'] element.segments := by
  rw [segments, Text.join_cons_eq_flatMap]
  rfl

theorem isInfix_text {element : Element} {segment : Text}
    (member : segment ∈ element.segments) :
    segment <:+: element.text := by
  rw [text_eq_join]
  exact Text.isInfix_join_of_mem member

end Element

namespace ClassName

/-- What stands in front of the elements, as an element. -/
def head (name : ClassName) : Element :=
  ⟨hyphenated name.typePrefix ++ hyphenated name.scope ++ name.block,
    name.modifiers⟩

/-- The class name as a row of elements. -/
def row (name : ClassName) : List Element :=
  name.head :: name.elements

theorem text_eq_join (name : ClassName) :
    name.text = Text.join ['_', '_'] (name.row.map Element.text) := by
  rw [row, List.map_cons, Text.join_cons_eq_flatMap, List.flatMap_map]
  rfl

/-- Reading cuts the text into its row. -/
theorem row_parse (settings : Settings) (name : Text) :
    (parse settings name).row = (Text.splitOnDouble '_' (dropDot name)).map
      Element.ofText := by
  cases cut : Text.splitOnDouble '_' (dropDot name) with
  | nil => exact (Text.splitOnDouble_ne_nil _ cut).elim
  | cons first elements =>
      have prefixText := splitPrefix_text settings (Element.ofText first).name
      rcases split : splitPrefix settings (Element.ofText first).name with
        ⟨typePrefix, rest⟩
      rw [split] at prefixText
      rw [List.map_cons]
      cases typePrefix with
      | none =>
          rw [parse_of_untyped cut split, row, head]
          simp only [hyphenated, List.nil_append] at prefixText ⊢
          rw [prefixText]
      | some front =>
          rw [parse_of_typed cut split, row, head, List.append_assoc,
            splitScope_text, prefixText]

theorem tail_splitOnDouble_dropDot (name : Text) :
    (Text.splitOnDouble '_' (dropDot name)).tail =
      (Text.splitOnDouble '_' name).tail := by
  unfold dropDot
  cases dotted : Text.dropFront? ['.'] name with
  | none => rfl
  | some rest =>
      obtain rfl := Text.dropFront?_eq_some_iff.mp dotted
      obtain ⟨piece, pieces, filled⟩ :=
        Text.exists_splitOnDouble_eq_cons '_' rest
      rw [Option.getD_some, List.singleton_append,
        Text.splitOnDouble_cons_of_ne (by decide), filled]
      rfl

/-- The elements of a name are the same with a dot in front of it. -/
theorem elements_parse (settings : Settings) (name : Text) :
    (parse settings name).elements =
      (Text.splitOnDouble '_' name).tail.map Element.ofText := by
  have elements := congrArg List.tail (row_parse settings name)
  rw [← List.map_tail, tail_splitOnDouble_dropDot] at elements
  exact elements

/-- Taking a class name apart loses nothing.  The parts put together are the
name, without a dot in front if it has one.  So, under any settings, two names
without a dot that have the same parts are the same. -/
theorem parse_lossless (settings : Settings) (name : Text) :
    (parse settings ('.' :: name)).text = name ∧
      (¬ ['.'] <+: name →
        (parse settings name).text = name ∧
          ∀ (others : Settings) (other : Text), ¬ ['.'] <+: other →
            parse settings name = parse others other → name = other) := by
  have undotted : ∀ (settings : Settings) {name : Text}, ¬ ['.'] <+: name →
      (parse settings name).text = name := by
    intro settings name plain
    rw [text_parse, dropDot_of_undotted plain]
  constructor
  · rw [text_parse, dropDot_cons]
  · intro plain
    refine ⟨undotted settings plain, ?_⟩
    intro others other otherPlain same
    rw [← undotted settings plain, same, undotted others otherPlain]

/-- Runs of hyphens and underscores come out again, whether or not the head
holds a namespace. -/
theorem parse_lossless_runs :
    (parse {} ".u-x-w---y___z-".toList).text = "u-x-w---y___z-".toList ∧
      ¬ ['.'] <+: "u-x-w---y___z-".toList ∧
      (parse { namespaces := [['x']] } "u-x-w---y___z-".toList).text =
        "u-x-w---y___z-".toList ∧
      parse { namespaces := [['v']] } "u-x-w---y___z-".toList =
        parse {} ("u-x-w-".toList ++ "--y___z-".toList) ∧
      "u-x-w---y___z-".toList = "u-x-w-".toList ++ "--y___z-".toList := by
  have plain : ¬ ['.'] <+: "u-x-w---y___z-".toList := by decide
  have otherPlain : ¬ ['.'] <+: "u-x-w-".toList ++ "--y___z-".toList := by
    decide
  have same : parse { namespaces := [['v']] } "u-x-w---y___z-".toList =
      parse {} ("u-x-w-".toList ++ "--y___z-".toList) := by decide
  have dotted := (parse_lossless {} "u-x-w---y___z-".toList).1
  have written := ((parse_lossless { namespaces := [['x']] } _).2 plain).1
  have equal := ((parse_lossless { namespaces := [['v']] } _).2 plain).2
    {} _ otherPlain same
  exact ⟨dotted, plain, written, same, equal⟩

end ClassName

end StyleAudit
