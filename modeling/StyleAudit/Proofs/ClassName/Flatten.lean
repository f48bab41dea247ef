import StyleAudit.Proofs.ClassName.Violations
import StyleAudit.Proofs.FirstOfKey
import StyleAudit.Proofs.Naming.Depth

/-!
# Flattened class names

A class name with too many elements is offered with the last ones joined onto
one before them.  The offered name is read again from its text, where names that
begin or end with underscores could meet the underscores between elements.  They
do not: a cut leaves an underscore at the end of the last element at most, and
what is joined on stands behind a hyphen.  So the text has as many elements as
the flattened name, and the rule is not broken again.
-/

namespace StyleAudit

namespace Element

/-- An element with others joined onto it. -/
def absorb (element : Element) (extras : List Element) : Element :=
  ⟨ClassName.joinNames element.name extras,
    element.modifiers ++ extras.flatMap (·.modifiers)⟩

/-- Joining elements on puts hyphens between underscores, at most. -/
theorem undoubled_absorb {element : Element} {extras : List Element}
    (undoubled : ∀ member ∈ element :: extras, Text.Undoubled '_' member.text) :
    Text.Undoubled '_' (element.absorb extras).text := by
  have segments : ∀ member ∈ element :: extras, ∀ segment ∈ member.segments,
      Text.Undoubled '_' segment := fun member isMember segment isSegment =>
    (undoubled member isMember).of_isInfix (isInfix_text isSegment)
  rw [text_eq_join]
  apply Text.undoubled_join (by simp) (by decide)
  intro segment member
  rcases List.mem_cons.mp member with rfl | isModifier
  · apply Text.undoubled_join (by simp) (by decide)
    intro name isName
    obtain ⟨joined, isJoined, rfl⟩ : ∃ joined ∈ element :: extras,
      joined.name = name :=
      List.mem_map.mp isName
    exact segments joined isJoined _ List.mem_cons_self
  · obtain ⟨joined, isJoined, inJoined⟩ :
        ∃ joined ∈ element :: extras, segment ∈ joined.modifiers :=
      List.mem_flatMap.mp isModifier
    exact segments joined isJoined segment (List.mem_cons_of_mem _ inJoined)

end Element

namespace ClassName

/-! ## What flattening does -/

theorem flatten_of_length_le {name : ClassName} {max : Nat}
    (few : name.elements.length ≤ max) :
    name.flatten max = name :=
  if_pos few

theorem flatten_zero {name : ClassName} (some : name.elements ≠ []) :
    name.flatten 0 =
      { name with
        block := joinNames name.block name.elements
        modifiers := name.modifiers ++ name.elements.flatMap (·.modifiers)
        elements := [] } := by
  have many : ¬ name.elements.length ≤ 0 := by simpa using some
  rw [flatten, if_neg many]
  rfl

theorem flatten_succ {name : ClassName} {front extras : List Element}
    {last : Element} (elements : name.elements = front ++ last :: extras)
    (more : extras ≠ []) :
    name.flatten (front.length + 1) =
      { name with elements := front ++ [last.absorb extras] } := by
  have extrasPos := List.length_pos_iff.mpr more
  have many : ¬ name.elements.length ≤ front.length + 1 := by
    rw [elements, List.length_append, List.length_cons]
    omega
  have size : front.length + 1 = (front ++ [last]).length := by simp
  rw [flatten, if_neg many, elements, List.append_cons, size, List.take_left,
    List.drop_left, absorb]
  simp only [List.getLast?_concat, List.dropLast_concat]
  rfl

theorem exists_elements_of_succ_lt {name : ClassName} {max : Nat}
    (deep : max + 1 < name.elements.length) :
    ∃ front last extras, name.elements = front ++ last :: extras ∧
    front.length = max ∧
      extras ≠ [] := by
  refine ⟨name.elements.take max, name.elements[max],
    name.elements.drop (max + 1), ?_, ?_, ?_⟩
  · rw [← List.drop_eq_getElem_cons, List.take_append_drop]
  · rw [List.length_take]
    omega
  · rw [Ne, List.drop_eq_nil_iff]
    omega

/-- The class name `flat` has the first `max` elements of `name`.  The others
are joined onto the last of these, or onto the block, and all else is as it
was. -/
structure IsFlattened (max : Nat) (name flat : ClassName) : Prop where
  typePrefix : flat.typePrefix = name.typePrefix
  scope : flat.scope = name.scope
  block : 0 < max → flat.block = name.block ∧ flat.modifiers = name.modifiers
  length : flat.elements.length = min name.elements.length max
  front : flat.elements.dropLast = (name.elements.take max).dropLast
  names : Text.join ['-'] (flat.block :: flat.elements.map (·.name)) =
    Text.join ['-'] (name.block :: name.elements.map (·.name))
  modifiers : flat.modifiers ++ flat.elements.flatMap (·.modifiers) =
    name.modifiers ++ name.elements.flatMap (·.modifiers)

theorem isFlattened_flatten (name : ClassName) (max : Nat) :
    IsFlattened max name (name.flatten max) := by
  by_cases few : name.elements.length ≤ max
  · rw [flatten_of_length_le few]
    exact
      { typePrefix := rfl
        scope := rfl
        block := fun _ => ⟨rfl, rfl⟩
        length := (Nat.min_eq_left few).symm
        front := by rw [List.take_of_length_le few]
        names := rfl
        modifiers := rfl }
  · cases max with
    | zero =>
        have filled : name.elements ≠ [] := by simpa using few
        rw [flatten_zero filled]
        exact
          { typePrefix := rfl
            scope := rfl
            block := fun positive => (Nat.lt_irrefl 0 positive).elim
            length := (Nat.min_zero _).symm
            front := rfl
            names := rfl
            modifiers := List.append_nil _ }
    | succ max =>
        obtain ⟨front, last, extras, elements, rfl, more⟩ :=
          exists_elements_of_succ_lt (Nat.lt_of_not_le few)
        rw [flatten_succ elements more]
        have kept : name.elements.take (front.length + 1) =
            front ++ [last] := by
          rw [elements, List.append_cons]
          exact List.take_left' (by simp)
        exact
          { typePrefix := rfl
            scope := rfl
            block := fun _ => ⟨rfl, rfl⟩
            length := by
              rw [Nat.min_eq_right (Nat.le_of_not_le few)]
              simp
            front := by rw [kept, List.dropLast_concat, List.dropLast_concat]
            names := by
              simp [elements, Element.absorb, joinNames,
                Text.join_cons_eq_flatMap]
            modifiers := by simp [elements, Element.absorb] }

/-! ## Reading a flattened name again -/

/-- A row, flattened: the first elements stay, and one of them takes in the
others. -/
theorem row_flatten {name : ClassName} {max : Nat}
    (deep : max < name.elements.length) :
    ∃ front last extras, name.row = front ++ last :: extras ∧ extras ≠ [] ∧
      (name.flatten max).row = front ++ [last.absorb extras] := by
  cases max with
  | zero =>
      have filled : name.elements ≠ [] := List.length_pos_iff.mp deep
      refine ⟨[], name.head, name.elements, rfl, filled, ?_⟩
      rw [flatten_zero filled]
      simp [row, head, Element.absorb, joinNames, Text.join_cons_eq_flatMap]
  | succ max =>
      obtain ⟨front, last, extras, elements, rfl, more⟩ :=
        exists_elements_of_succ_lt deep
      refine ⟨name.head :: front, last, extras, ?_, more, ?_⟩
      · rw [row, elements, List.cons_append]
      · rw [flatten_succ elements more]
        rfl

/-- The text of a flattened name is cut where the flattened name was put
together. -/
theorem splitOnDouble_text_flatten {name : ClassName}
    (cut : Text.IsCut '_' (name.row.map Element.text)) (max : Nat) :
    Text.splitOnDouble '_' (name.flatten max).text =
      (name.flatten max).row.map Element.text := by
  rw [text_eq_join]
  apply Text.IsCut.splitOnDouble_join
  by_cases few : name.elements.length ≤ max
  · rwa [flatten_of_length_le few]
  · obtain ⟨front, last, extras, whole, more, flattened⟩ :=
      row_flatten (Nat.lt_of_not_le few)
    rw [whole] at cut
    rw [flattened, List.map_append, List.map_singleton]
    have undoubled : ∀ member ∈ front ++ last :: extras,
        Text.Undoubled '_' member.text :=
      fun member isMember => cut.undoubled _ (List.mem_map_of_mem isMember)
    constructor
    · simp
    · intro piece member
      rcases List.mem_append.mp member with inFront | isLast
      · obtain ⟨kept, isKept, rfl⟩ := List.mem_map.mp inFront
        exact undoubled kept (List.mem_append_left _ isKept)
      · rw [List.mem_singleton.mp isLast]
        apply Element.undoubled_absorb
        intro joined isJoined
        exact undoubled joined (List.mem_append_right _ isJoined)
    · intro piece member
      rw [List.dropLast_concat] at member
      apply cut.notLast
      rw [List.map_append, List.dropLast_append_of_ne_nil (by simp)]
      exact List.mem_append_left _ member

/-- The row of a name that is read is cut as its text is. -/
theorem isCut_row_parse (settings : Settings) (name : Text) :
    Text.IsCut '_' ((parse settings name).row.map Element.text) := by
  have same : ∀ piece ∈ Text.splitOnDouble '_' (dropDot name),
      (Element.text ∘ Element.ofText) piece = piece :=
        fun piece _ => Element.text_ofText piece
  rw [row_parse, List.map_map, List.map_congr_left same, List.map_id']
  exact Text.isCut_splitOnDouble _

theorem elements_parse_text_flatten (settings : Settings) (name : Text)
    (max : Nat) :
    (parse settings ((parse settings name).flatten max).text).elements =
      ((parse settings name).flatten max).elements.map
        (Element.ofText ·.text) := by
  rw [elements_parse,
    splitOnDouble_text_flatten (isCut_row_parse settings name), row,
    List.map_cons, List.tail_cons, List.map_map]
  rfl

private theorem ofText_text_of_mem_parse {settings : Settings} {name : Text}
    {element : Element} (member : element ∈ (parse settings name).elements) :
    Element.ofText element.text = element := by
  rw [elements_parse] at member
  obtain ⟨piece, -, rfl⟩ := List.mem_map.mp member
  rw [Element.text_ofText]

theorem length_elements_parse_text_flatten (settings : Settings) (name : Text)
    (max : Nat) :
    (parse settings ((parse settings name).flatten max).text).elements.length =
      min (parse settings name).elements.length max := by
  rw [elements_parse_text_flatten, List.length_map]
  exact (isFlattened_flatten _ max).length

/-- Elements that are kept as they were are read again as they were. -/
theorem dropLast_elements_parse_text_flatten (settings : Settings) (name : Text)
    (max : Nat) :
    (parse settings
      ((parse settings name).flatten max).text).elements.dropLast =
      ((parse settings name).elements.take max).dropLast := by
  rw [elements_parse_text_flatten, ← List.map_dropLast,
    (isFlattened_flatten _ max).front]
  have kept : ∀ element ∈ ((parse settings name).elements.take max).dropLast,
      Element.ofText element.text = element := fun element member =>
    ofText_text_of_mem_parse
      (List.mem_of_mem_take (List.dropLast_subset _ member))
  rw [List.map_congr_left kept, List.map_id']

/-! ## Suggestions -/

theorem not_reports_elementDepth_flatten (settings : Settings)
    (kind : DeclarationKind) (name : Text) :
    ¬ Reports settings kind
      ((parse settings name).flatten settings.maxElementDepth).text
        .elementDepth := by
  rw [reports_elementDepth_iff, length_elements_parse_text_flatten]
  omega

end ClassName

namespace Selector

/-- What is wrong with a selector is wrong with one of its names. -/
theorem exists_of_mem_violations {settings : Settings} {kind : DeclarationKind}
    {selector : Text} {violation : Violation}
    (member : violation ∈ violations settings kind selector) :
    ∃ name ∈ checkedNames selector,
      violation ∈ ClassName.violations settings kind name := by
  have first := (mem_foldl_addByKey_iff Violation.code).mp member
  exact List.mem_flatMap.mp (List.mem_of_find?_eq_some first)

end Selector

namespace Naming

open ClassName (parse)

/-- Whatever is offered for a name with too many elements is the name
flattened. -/
theorem eq_flatten_of_mem_violations {settings : Settings}
    {kind : DeclarationKind} {name other : Text} {violation : Violation}
    (member : violation ∈ ClassName.violations settings kind name)
    (coded : violation.code = .elementDepth)
    (offered : violation.suggestion = some other) :
    ∃ deep, other =
      ((parse settings deep).flatten settings.maxElementDepth).text := by
  cases ClassName.mem_violations_iff.mp member with
  | deep _ => exact ⟨_, (Option.some.inj offered).symm⟩
  | _ => cases coded

theorem exists_of_mem_ownViolations {settings : Settings}
    {declaration : Declaration} {violation : Violation}
    (member : violation ∈ ownViolations settings declaration) :
    ∃ name,
      violation ∈ ClassName.violations settings declaration.kind name := by
  rw [ownViolations] at member
  split at member
  · cases member
  · split at member
    · split at member
      · exact ⟨_, member⟩
      · cases member
    · split at member
      · cases member
      · obtain ⟨name, -, onName⟩ := Selector.exists_of_mem_violations member
        exact ⟨name, onName⟩

private theorem exists_of_mem_reopenedDiagnostics {settings : Settings}
    {declaration : Declaration} {diagnostic : Diagnostic}
    (member : diagnostic ∈ reopenedDiagnostics settings declaration) :
    ∃ name location,
      ∃ violation ∈ ClassName.violations settings declaration.kind name,
        diagnostic = violation.toDiagnostic location := by
  rw [reopenedDiagnostics] at member
  split at member
  · cases member
  · obtain ⟨part, -, onPart⟩ := List.mem_flatMap.mp member
    obtain ⟨violation, isViolation, rfl⟩ := List.mem_map.mp onPart
    obtain ⟨name, -, onName⟩ := Selector.exists_of_mem_violations isViolation
    exact ⟨name, part.location, violation, onName, rfl⟩

private theorem eq_flatten_of_levelViolation? {settings : Settings}
    {name other : Text} {nesting : Nesting} {own : Nat} {violation : Violation}
    (found : levelViolation? settings name nesting own = some violation)
    (offered : violation.suggestion = some other) :
    other = ((parse settings name).flatten settings.maxElementDepth).text := by
  rw [levelViolation?] at found
  split at found
  · dsimp only at found
    split at found
    · obtain rfl := Option.some.inj found
      exact (Option.some.inj offered).symm
    · obtain rfl := Option.some.inj found
      cases offered
  · cases found

private theorem eq_flatten_of_mem_check {settings : Settings}
    {declaration : Declaration} {other : Text} {diagnostic : Diagnostic}
    (member : diagnostic ∈ check settings declaration)
    (coded : diagnostic.code = .elementDepth)
    (offered : diagnostic.suggestion = some other) :
    ∃ deep, other =
      ((parse settings deep).flatten settings.maxElementDepth).text := by
  rw [check, levelDiagnosticsList_eq] at member
  rcases List.mem_append.mp member with bySelector | byLevel
  · rcases List.mem_append.mp bySelector with own | later
    · obtain ⟨violation, isViolation, rfl⟩ := List.mem_map.mp own
      obtain ⟨name, onName⟩ := exists_of_mem_ownViolations isViolation
      exact eq_flatten_of_mem_violations onName coded offered
    · obtain ⟨name, location, violation, onName, rfl⟩ :=
        exists_of_mem_reopenedDiagnostics later
      exact eq_flatten_of_mem_violations onName coded offered
  · obtain ⟨place, -, onPlace⟩ := List.mem_flatMap.mp byLevel
    obtain ⟨violation, isViolation, rfl⟩ := List.mem_map.mp onPlace
    exact ⟨_,
      eq_flatten_of_levelViolation? (Option.mem_toList.mp isViolation) offered⟩

end Naming

namespace ClassName

/-- A flattened name has the first elements of the name, with the others joined
onto the last of them, and flattening it again changes nothing.  Read again from
its text, it has just as many elements, those in front of the last one as they
were.  So no name that is offered because a name has too many elements, for a
class name or anywhere in a declaration, has too many elements itself. -/
theorem flatten_exact (settings : Settings) (name : Text) (max : Nat) :
    let parts := parse settings name
    let flat := parts.flatten max
    let again := parse settings flat.text
    (IsFlattened max parts flat ∧ flat.flatten max = flat) ∧
      (again.elements.length = min parts.elements.length max ∧
        again.elements.dropLast = (parts.elements.take max).dropLast ∧
        again.flatten max = again) ∧
      (∀ kind other, Offers settings kind name .elementDepth other →
        ∀ otherKind, ¬ Reports settings otherKind other .elementDepth) ∧
      ∀ declaration, ∀ diagnostic ∈ Naming.check settings declaration,
        diagnostic.code = .elementDepth → ∀ other ∈ diagnostic.suggestion,
          ∀ otherKind, ¬ Reports settings otherKind other .elementDepth := by
  intro parts flat again
  have flattened : IsFlattened max parts flat := isFlattened_flatten parts max
  have length : again.elements.length = min parts.elements.length max :=
    length_elements_parse_text_flatten settings name max
  refine ⟨⟨flattened, ?_⟩, ⟨length, ?_, ?_⟩, ?_, ?_⟩
  · exact flatten_of_length_le (flattened.length ▸ Nat.min_le_right _ _)
  · exact dropLast_elements_parse_text_flatten settings name max
  · exact flatten_of_length_le (length ▸ Nat.min_le_right _ _)
  · rintro kind other ⟨violation, member, coded, offered⟩ otherKind
    obtain ⟨deep, rfl⟩ :=
      Naming.eq_flatten_of_mem_violations member coded offered
    exact not_reports_elementDepth_flatten settings otherKind deep
  · intro declaration diagnostic member coded other offered otherKind
    obtain ⟨deep, rfl⟩ := Naming.eq_flatten_of_mem_check member coded offered
    exact not_reports_elementDepth_flatten settings otherKind deep

/-- Elements that begin and end with underscores and hyphens, and an element
inside a rule for an element. -/
theorem flatten_exact_runs :
    let name := "c-a--m___b-__c--n___".toList
    let place : Location := ⟨['a'], ⟨⟨0, 1, 1⟩, ⟨9, 1, 10⟩⟩⟩
    let icon : Declaration :=
      ⟨.component, "c-a__b__c".toList, "&__c".toList, place, none, [],
        .element, []⟩
    let title : Declaration :=
      ⟨.component, "c-a__b".toList, ".c-a__b".toList, place, none,
        [icon], .root, []⟩
    (Offers {} .component name .elementDepth "c-a--m___b--c-_--n".toList ∧
      ¬ Reports {} .component "c-a--m___b--c-_--n".toList .elementDepth) ∧
      ((Naming.check {} title).map (·.suggestion) = [some "c-a__b-c".toList] ∧
        ¬ Reports {} .component "c-a__b-c".toList .elementDepth) := by
  intro name place icon title
  have offered : Offers
      {} .component name .elementDepth "c-a--m___b--c-_--n".toList := by decide
  have reported : (Naming.check {} title).map (·.suggestion) =
      [some "c-a__b-c".toList] := by
    decide
  obtain ⟨diagnostic, member, coded, suggested⟩ : ∃ diagnostic ∈
    Naming.check {} title,
      diagnostic.code = .elementDepth ∧ diagnostic.suggestion =
        some "c-a__b-c".toList := by
    decide
  obtain ⟨-, -, byName, byCheck⟩ := flatten_exact {} name 1
  exact ⟨⟨offered, byName _ _ offered _⟩, reported,
    byCheck title diagnostic member coded _ suggested _⟩

end ClassName

end StyleAudit
