import StyleAudit.ClassName.Check
import StyleAudit.Proofs.Text.Doubles
import StyleAudit.Proofs.Text.Words

/-!
# Class names by their grammar

The check of a class name cuts it at doubled underscores, doubled hyphens and
hyphens, and looks at the pieces afterwards.  The grammar says instead how a
class name is put together.  A name passes the check exactly if the grammar
produces it: cutting gives back the parts that the grammar put together, and
the parts of a name that passes are parts of the grammar.
-/

namespace StyleAudit

/-! ## The grammar -/

namespace Segment

/-- Lowercase letters, digits and single hyphens, from a letter to something
that is no hyphen. -/
structure IsSegment (text : Text) : Prop where
  chars : ∀ c ∈ text, ('a' ≤ c ∧ c ≤ 'z') ∨ ('0' ≤ c ∧ c ≤ '9') ∨ c = '-'
  first : ∃ c rest, text = c :: rest ∧ 'a' ≤ c ∧ c ≤ 'z'
  notLast : ¬ ['-'] <:+ text
  undoubled : ¬ ['-', '-'] <:+: text

end Segment

open Segment (IsSegment)

namespace ClassName

/-- A modifier behind two hyphens, or nothing. -/
inductive IsModifier : Text → Prop where
  | nothing : IsModifier []
  | modifier {name : Text} : IsSegment name → IsModifier ('-' :: '-' :: name)

/-- An element behind two underscores, perhaps with a modifier. -/
inductive IsElement : Text → Prop where
  | element {name modifier : Text} : IsSegment name → IsModifier modifier →
      IsElement ('_' :: '_' :: (name ++ modifier))

/-- What stands behind a namespace at the front of a block is a segment too. -/
def IsScoped (settings : Settings) (block : Text) : Prop :=
  ∀ scope rest, block = scope ++ '-' :: rest → '-' ∉ scope →
  scope ∈ settings.namespaces →
    IsSegment rest

/-- The class names that the grammar produces for a kind of declaration. -/
inductive IsClassName (settings : Settings) (kind : DeclarationKind) :
    Text → Prop where
  | name {typePrefix block modifier : Text} {elements : List Text} :
      typePrefix ∈ settings.allowedPrefixes → IsSegment typePrefix →
      '-' ∉ typePrefix →
      IsSegment block → IsScoped settings block → IsModifier modifier →
      elements.length ≤ settings.maxElementDepth →
      (∀ element ∈ elements, IsElement element) →
      ¬ (kind = .component ∧ typePrefix = ['u']) →
      ¬ (kind = .utility ∧ typePrefix = ['c']) →
      IsClassName settings kind
        (typePrefix ++ '-' :: (block ++ modifier ++ elements.flatten))

end ClassName

/-! ## Segments -/

namespace Segment

theorem isLower_iff {c : Char} : c.isLower = true ↔ 'a' ≤ c ∧ c ≤ 'z' :=
  (Bool.and_eq_true _ _).to_iff.trans
    (and_congr decide_eq_true_iff decide_eq_true_iff)

theorem isChar_iff {c : Char} :
    isChar c = true ↔ ('a' ≤ c ∧ c ≤ 'z') ∨ ('0' ≤ c ∧ c ≤ '9') ∨ c = '-' := by
  simp [isChar, isLower_iff, Char.isDigit, Char.le_def, or_assoc]

theorem isValid_iff {text : Text} :
    isValid text = true ↔
      (∃ c rest, text = c :: rest ∧ 'a' ≤ c ∧ c ≤ 'z') ∧ ¬ ['-'] <:+ text ∧
        ∀ c ∈ text, ('a' ≤ c ∧ c ≤ 'z') ∨ ('0' ≤ c ∧ c ≤ '9') ∨ c = '-' := by
  have first : text.head?.any (·.isLower) = true ↔
      ∃ c rest, text = c :: rest ∧ 'a' ≤ c ∧ c ≤ 'z' := by
    cases text with
    | nil => simp
    | cons c rest => simp [isLower_iff]
  have last : (!(text.getLast? == some '-')) = true ↔ ¬ ['-'] <:+ text := by
    rw [Bool.not_eq_true', beq_eq_false_iff_ne, Ne, List.getLast?_eq_some_iff]
    exact not_congr (exists_congr fun front => eq_comm)
  rw [isValid, Bool.and_eq_true, Bool.and_eq_true, first, last,
    List.all_eq_true, and_assoc]
  simp only [isChar_iff]

theorem isSegment_iff {text : Text} :
    IsSegment text ↔ isValid text = true ∧ Text.Undoubled '-' text := by
  rw [isValid_iff]
  constructor
  · intro segment
    exact ⟨⟨segment.first, segment.notLast, segment.chars⟩, segment.undoubled⟩
  · intro ⟨⟨first, notLast, chars⟩, undoubled⟩
    exact ⟨chars, first, notLast, undoubled⟩

theorem IsSegment.isValid {text : Text} (segment : IsSegment text) :
    isValid text = true :=
  (isSegment_iff.mp segment).1

theorem IsSegment.cuttable {text : Text} (segment : IsSegment text) :
    Text.Cuttable '-' text :=
  ⟨segment.undoubled, segment.notLast⟩

theorem not_mem_underscore_of_isValid {text : Text}
    (valid : isValid text = true) :
    '_' ∉ text := by
  intro member
  have allowed := (isValid_iff.mp valid).2.2 '_' member
  revert allowed
  decide

theorem IsSegment.not_mem_underscore {text : Text} (segment : IsSegment text) :
    '_' ∉ text :=
  not_mem_underscore_of_isValid segment.isValid

/-- Two well-formed texts with characters of segments between them. -/
theorem isValid_append_append {front middle back : Text}
    (frontValid : isValid front = true) (backValid : isValid back = true)
    (chars : middle.all isChar = true) :
    isValid (front ++ (middle ++ back)) = true := by
  simp only [isValid, Bool.and_eq_true] at frontValid backValid
  obtain ⟨⟨begins, -⟩, frontChars⟩ := frontValid
  obtain ⟨⟨backBegins, backEnds⟩, backChars⟩ := backValid
  have filled : back ≠ [] := by
    rintro rfl
    cases backBegins
  have ends : (front ++ (middle ++ back)).getLast? = back.getLast? := by
    rw [← List.append_assoc, List.getLast?_append,
      Option.or_of_isSome (List.getLast?_isSome.mpr filled)]
  have starts : (front ++ (middle ++ back)).head? = front.head? := by
    cases front with
    | nil => cases begins
    | cons c more => rfl
  rw [isValid, starts, begins, ends, backEnds, List.all_append, List.all_append,
    frontChars, chars, backChars]
  rfl

theorem isValid_append {front back : Text} (frontValid : isValid front = true)
    (backValid : isValid back = true) : isValid (front ++ '-' :: back) = true :=
  @isValid_append_append front ['-'] back frontValid backValid rfl

/-- Two segments with a hyphen between them, the first of them without one. -/
theorem IsSegment.append {front back : Text} (first : IsSegment front)
    (second : IsSegment back) (whole : '-' ∉ front) :
    IsSegment (front ++ '-' :: back) := by
  apply isSegment_iff.mpr
  refine ⟨isValid_append first.isValid second.isValid, ?_⟩
  apply Text.Undoubled.append_cons second.undoubled whole
  obtain ⟨c, rest, rfl, letter⟩ := second.first
  intro begins
  rw [← (List.cons_prefix_cons.mp begins).1] at letter
  revert letter
  decide

theorem lowerAscii_of_isValid {text : Text} (valid : isValid text = true) :
    ClassName.lowerAscii text = text := by
  have kept : ∀ c ∈ text, c.toLower = c := by
    intro c member
    have notUpper : ¬ (c.val ≥ 'A'.val ∧ c.val ≤ 'Z'.val) := by
      rintro ⟨low, high⟩
      rcases (isValid_iff.mp valid).2.2 c member with
        ⟨letter, -⟩ | ⟨-, digit⟩ | rfl
      · exact absurd (UInt32.le_trans letter high) (by decide)
      · exact absurd (UInt32.le_trans low digit) (by decide)
      · exact absurd low (by decide)
    exact dif_neg notUpper
  rw [ClassName.lowerAscii, List.map_congr_left kept, List.map_id']

end Segment

/-! ## Elements -/

namespace Element

theorem segments_ofText (text : Text) :
    (ofText text).segments = Text.splitOnDouble '-' text := by
  rw [ofText]
  split
  · rename_i nothing
    exact (Text.splitOnDouble_ne_nil text nothing).elim
  · rename_i name modifiers cut
    rw [cut, segments]

theorem text_ofText (text : Text) : (ofText text).text = text := by
  have whole := Text.join_splitOnDouble '-' text
  rw [← segments_ofText, segments, Text.join_cons_eq_flatMap] at whole
  exact whole

theorem isSegment_of_mem_ofText {text segment : Text}
    (member : segment ∈ (ofText text).segments)
    (valid : Segment.isValid segment = true) : IsSegment segment := by
  rw [segments_ofText] at member
  exact Segment.isSegment_iff.mpr
    ⟨valid, Text.undoubled_of_mem_splitOnDouble member⟩

theorem isModifier_modifierText {modifiers : List Text}
    (segments : ∀ modifier ∈ modifiers, IsSegment modifier)
    (few : modifiers.length ≤ 1) :
    ClassName.IsModifier (modifierText modifiers) := by
  match modifiers with
  | [] => exact .nothing
  | [modifier] =>
      have written : modifierText [modifier] = '-' :: '-' :: modifier := by
        simp [modifierText]
      rw [written]
      exact .modifier (segments modifier List.mem_cons_self)
  | _ :: _ :: _ => simp at few

/-- A name and a modifier of the grammar are found again. -/
theorem ofText_append {name modifier : Text} (isSegment : IsSegment name)
    (isModifier : ClassName.IsModifier modifier) :
    ∃ modifiers, ofText (name ++ modifier) = ⟨name, modifiers⟩ ∧
    modifiers.length ≤ 1 ∧
      ∀ other ∈ modifiers, Segment.isValid other = true := by
  cases isModifier with
  | nothing =>
      refine ⟨[], ?_, Nat.zero_le 1, nofun⟩
      rw [List.append_nil, ofText,
        Text.splitOnDouble_of_undoubled isSegment.undoubled]
  | @modifier word wordSegment =>
      refine ⟨[word], ?_, Nat.le_refl 1, ?_⟩
      · rw [ofText, Text.splitOnDouble_append isSegment.cuttable,
          Text.splitOnDouble_of_undoubled wordSegment.undoubled]
      · intro other member
        rw [List.mem_singleton.mp member]
        exact wordSegment.isValid

end Element

namespace ClassName

/-! ## Taking names apart and putting them together -/

theorem splitPrefix_text (settings : Settings) (head : Text) :
    hyphenated (splitPrefix settings head).1 ++ (splitPrefix settings head).2 =
      head := by
  rw [splitPrefix]
  split
  · rfl
  · rename_i front rest found
    obtain ⟨rfl, -⟩ := Text.splitFirst?_beq_iff.mp found
    split
    · simp [hyphenated]
    · rfl

theorem splitScope_text (settings : Settings) (text : Text) :
    hyphenated (splitScope settings text).1 ++ (splitScope settings text).2 =
      text := by
  rw [splitScope]
  split
  · rfl
  · rename_i front rest found
    obtain ⟨rfl, -⟩ := Text.splitFirst?_beq_iff.mp found
    split
    · simp [hyphenated]
    · rfl

section Parse

variable {settings : Settings} {name head rest : Text} {elements : List Text}

theorem parse_of_typed {typePrefix : Text}
    (cut : Text.splitOnDouble '_' (dropDot name) = head :: elements)
    (split : splitPrefix settings (Element.ofText head).name =
      (some typePrefix, rest)) :
    parse settings name =
      { typePrefix := some typePrefix, scope := (splitScope settings rest).1,
        block := (splitScope settings rest).2,
        modifiers := (Element.ofText head).modifiers,
        elements := elements.map .ofText } := by
  rw [parse, cut]
  simp only [split, Option.isSome_some, if_true]

theorem parse_of_untyped
    (cut : Text.splitOnDouble '_' (dropDot name) = head :: elements)
    (split : splitPrefix settings (Element.ofText head).name = (none, rest)) :
    parse settings name =
      { typePrefix := none, scope := none, block := rest,
        modifiers := (Element.ofText head).modifiers,
        elements := elements.map .ofText } := by
  rw [parse, cut]
  simp only [split, Option.isSome_none, Bool.false_eq_true, if_false]

end Parse

theorem flatMap_text_ofText (elements : List Text) :
    (elements.map Element.ofText).flatMap
      (fun element => '_' :: '_' :: element.text) =
      elements.flatMap (['_', '_'] ++ ·) := by
  rw [List.flatMap_map]
  simp only [Element.text_ofText, List.cons_append, List.nil_append]

/-- Nothing is lost by taking a name apart. -/
theorem text_parse (settings : Settings) (name : Text) :
    (parse settings name).text = dropDot name := by
  cases cut : Text.splitOnDouble '_' (dropDot name) with
  | nil => exact (Text.splitOnDouble_ne_nil _ cut).elim
  | cons head elements =>
      have whole := Text.join_splitOnDouble '_' (dropDot name)
      have headText := Element.text_ofText head
      have prefixText := splitPrefix_text settings (Element.ofText head).name
      rw [cut, Text.join_cons_eq_flatMap, ← headText, Element.text,
        ← prefixText] at whole
      rw [← whole]
      rcases split : splitPrefix settings (Element.ofText head).name with
        ⟨typePrefix, rest⟩
      cases typePrefix with
      | none =>
          rw [parse_of_untyped cut split, text, flatMap_text_ofText]
          rfl
      | some front =>
          have scopeText := splitScope_text settings rest
          rw [parse_of_typed cut split, text, flatMap_text_ofText,
            List.append_assoc (hyphenated _), scopeText]

/-! ## What the check asks for -/

/-- A prefix that the settings accept, and that is not the one of another
kind. -/
structure Fits (settings : Settings) (kind : DeclarationKind)
    (typePrefix : Text) : Prop where
  allowed : typePrefix ∈ settings.allowedPrefixes
  noUtility : ¬ (kind = .component ∧ typePrefix = ['u'])
  noComponent : ¬ (kind = .utility ∧ typePrefix = ['c'])

private theorem prefixViolation?_eq_none_iff {settings : Settings}
    {kind : DeclarationKind} {name : Text} {parts : ClassName} :
    prefixViolation? settings kind name parts = none ↔
      ∃ typePrefix, parts.typePrefix = some typePrefix ∧
        Fits settings kind (lowerAscii typePrefix) := by
  rw [prefixViolation?]
  cases parts.typePrefix with
  | none => simp
  | some typePrefix =>
      simp only [Option.some.injEq, exists_eq_left']
      generalize lowerAscii typePrefix = lower
      by_cases allowed : lower ∈ settings.allowedPrefixes
      · have accepted : settings.allows lower = true :=
          List.contains_iff_mem.mpr allowed
        have fits : Fits settings kind lower ↔
            ¬ (kind = .component ∧ lower = ['u']) ∧
              ¬ (kind = .utility ∧ lower = ['c']) :=
          ⟨fun fits => ⟨fits.noUtility, fits.noComponent⟩,
            fun ⟨noU, noC⟩ => ⟨allowed, noU, noC⟩⟩
        rw [fits, accepted]
        cases kind with
        | component =>
            simp [prefixOfKind?]
            grind
        | utility =>
            simp [prefixOfKind?]
            grind
        | object => simp [prefixOfKind?]
        | interface => simp [prefixOfKind?]
        | unknown => simp [prefixOfKind?]
      · have refused : settings.allows lower = false := by
          simpa [Settings.allows] using allowed
        rw [refused]
        simp only [Bool.not_false, if_true, reduceCtorEq, false_iff]
        exact fun fits => allowed fits.allowed

/-- What the check asks of the parts of a name. -/
structure Passes (settings : Settings) (kind : DeclarationKind)
    (parts : ClassName) :
    Prop where
  typed : ∃ typePrefix, parts.typePrefix = some typePrefix ∧
    Fits settings kind (lowerAscii typePrefix)
  segments : ∀ segment ∈ parts.segments, Segment.isValid segment = true
  depth : parts.elements.length ≤ settings.maxElementDepth
  modifiers : parts.modifiers.length ≤ 1
  elementModifiers : ∀ element ∈ parts.elements, element.modifiers.length ≤ 1

theorem violations_eq_nil_iff {settings : Settings} {kind : DeclarationKind}
    {name : Text} :
    violations settings kind name = [] ↔
      Passes settings kind (parse settings (dropDot name)) := by
  simp only [violations, List.append_eq_nil_iff, Option.toList_eq_nil_iff,
    prefixViolation?_eq_none_iff]
  generalize parse settings (dropDot name) = parts
  have segments : segmentViolation? (dropDot name) parts = none ↔
      ∀ segment ∈ parts.segments, Segment.isValid segment = true := by
    rw [segmentViolation?, Option.map_eq_none_iff, List.find?_eq_none]
    simp
  have depth : depthViolation? settings (dropDot name) parts = none ↔
      parts.elements.length ≤ settings.maxElementDepth := by
    rw [depthViolation?]
    split <;> simp <;> omega
  have modifiers : modifierViolation? (dropDot name) parts = none ↔
      parts.modifiers.length ≤ 1 ∧
        ∀ element ∈ parts.elements, element.modifiers.length ≤ 1 := by
    rw [modifierViolation?]
    simp
  rw [segments, depth, modifiers]
  constructor
  · intro ⟨⟨⟨typed, valid⟩, shallow⟩, few, elementFew⟩
    exact ⟨typed, valid, shallow, few, elementFew⟩
  · intro passes
    exact ⟨⟨⟨passes.typed, passes.segments⟩, passes.depth⟩, passes.modifiers,
      passes.elementModifiers⟩

/-! ## The head of a name -/

theorem splitPrefix_eq_some {settings : Settings} {head typePrefix rest : Text}
    (split : splitPrefix settings head = (some typePrefix, rest)) :
    head = typePrefix ++ '-' :: rest ∧ '-' ∉ typePrefix := by
  rw [splitPrefix] at split
  split at split
  · cases split
  · rename_i found
    split at split
    · cases split
      exact Text.splitFirst?_beq_iff.mp found
    · cases split

theorem splitPrefix_append {settings : Settings} {typePrefix : Text}
    (allowed : lowerAscii typePrefix ∈ settings.allowedPrefixes)
    (whole : '-' ∉ typePrefix) (rest : Text) :
    splitPrefix settings (typePrefix ++ '-' :: rest) =
      (some typePrefix, rest) := by
  have found : Text.splitFirst? (· == '-') (typePrefix ++ '-' :: rest) =
      some (typePrefix, rest) :=
    Text.splitFirst?_beq_iff.mpr ⟨rfl, whole⟩
  have accepted : settings.allows (lowerAscii typePrefix) = true :=
    List.contains_iff_mem.mpr allowed
  rw [splitPrefix, found]
  simp only [accepted, Bool.true_or, if_true]

/-- The part before the first hyphen of a segment is well formed. -/
theorem isValid_front {front rest : Text}
    (segment : IsSegment (front ++ '-' :: rest)) (whole : '-' ∉ front) :
    Segment.isValid front = true := by
  obtain ⟨c, more, starts, letter⟩ := segment.first
  apply Segment.isValid_iff.mpr
  refine ⟨?_, ?_, ?_⟩
  · cases front with
    | nil =>
        obtain ⟨rfl, -⟩ := List.cons.inj starts
        exact absurd letter (by decide)
    | cons d others =>
        obtain ⟨rfl, -⟩ := List.cons.inj starts
        exact ⟨d, others, rfl, letter⟩
  · intro ends
    exact whole (ends.subset List.mem_cons_self)
  · intro d member
    exact segment.chars d (List.mem_append_left _ member)

/-- Where no hyphen is doubled, the namespace and the block that are cut out are
well formed exactly if the grammar has the text as a block. -/
theorem splitScope_valid_iff {settings : Settings} {text : Text}
    (undoubled : Text.Undoubled '-' text) :
    ((∀ scope ∈ (splitScope settings text).1, Segment.isValid scope = true) ∧
        Segment.isValid (splitScope settings text).2 = true) ↔
      IsSegment text ∧ IsScoped settings text := by
  have alone : ∀ {text : Text}, Text.Undoubled '-' text →
      IsScoped settings text →
      (Segment.isValid text = true ↔ IsSegment text ∧
        IsScoped settings text) := by
    intro text undoubled inScope
    rw [Segment.isSegment_iff]
    exact ⟨fun valid => ⟨⟨valid, undoubled⟩, inScope⟩, fun both => both.1.1⟩
  rw [splitScope]
  split
  · rename_i missing
    have inScope : IsScoped settings text := by
      intro scope rest shape whole
      rw [Text.splitFirst?_beq_iff.mpr ⟨shape, whole⟩] at missing
      cases missing
    simpa using alone undoubled inScope
  · rename_i front rest found
    obtain ⟨rfl, whole⟩ := Text.splitFirst?_beq_iff.mp found
    have only : ∀ {scope other : Text},
        front ++ '-' :: rest = scope ++ '-' :: other →
        '-' ∉ scope → scope = front ∧ other = rest := by
      intro scope other shape otherWhole
      rw [Text.splitFirst?_beq_iff.mpr ⟨shape, otherWhole⟩] at found
      cases found
      exact ⟨rfl, rfl⟩
    split
    · rename_i known
      have restUndoubled : Text.Undoubled '-' rest :=
        undoubled.of_isInfix ⟨front ++ ['-'], [], by simp⟩
      have member : front ∈ settings.namespaces :=
        List.contains_iff_mem.mp known
      simp only [Option.mem_def, Option.some.injEq, forall_eq']
      constructor
      · intro ⟨frontValid, restValid⟩
        have segment := Segment.isSegment_iff.mpr
          ⟨Segment.isValid_append frontValid restValid, undoubled⟩
        refine ⟨segment, ?_⟩
        intro scope other shape otherWhole _
        rw [(only shape otherWhole).2]
        exact Segment.isSegment_iff.mpr ⟨restValid, restUndoubled⟩
      · intro ⟨segment, inScope⟩
        exact ⟨isValid_front segment whole,
          (inScope front rest rfl whole member).isValid⟩
    · rename_i unknown
      have inScope : IsScoped settings (front ++ '-' :: rest) := by
        intro scope other shape otherWhole member
        rw [(only shape otherWhole).1] at member
        exact (unknown (List.contains_iff_mem.mpr member)).elim
      simpa using alone undoubled inScope

/-! ## From the grammar to the check -/

theorem IsElement.eq_cons_cons {element : Text}
    (isElement : IsElement element) :
    element = ['_', '_'] ++ element.drop 2 := by
  cases isElement with
  | element _ _ => rfl

theorem not_mem_underscore_of_isModifier {modifier : Text}
    (isModifier : IsModifier modifier) :
    '_' ∉ modifier := by
  cases isModifier with
  | nothing => exact List.not_mem_nil
  | modifier segment => simpa using segment.not_mem_underscore

theorem IsElement.not_mem_underscore {element : Text}
    (isElement : IsElement element) :
    '_' ∉ element.drop 2 := by
  cases isElement with
  | element segment isModifier =>
      intro member
      rcases List.mem_append.mp member with inName | inModifier
      · exact segment.not_mem_underscore inName
      · exact not_mem_underscore_of_isModifier isModifier inModifier

theorem IsElement.valid {element : Text} (isElement : IsElement element) :
    (Element.ofText (element.drop 2)).modifiers.length ≤ 1 ∧
      ∀ segment ∈ (Element.ofText (element.drop 2)).segments,
        Segment.isValid segment = true := by
  cases isElement with
  | element isSegment isModifier =>
      obtain ⟨modifiers, found, few, valid⟩ :=
        Element.ofText_append isSegment isModifier
      rw [List.drop_succ_cons, List.drop_succ_cons, List.drop_zero, found]
      refine ⟨few, ?_⟩
      intro segment member
      rcases List.mem_cons.mp member with rfl | inModifiers
      · exact isSegment.isValid
      · exact valid segment inModifiers

private theorem flatten_of_isElement {elements : List Text}
    (areElements : ∀ element ∈ elements, IsElement element) :
    elements.flatten = (elements.map (·.drop 2)).flatMap (['_', '_'] ++ ·) := by
  rw [List.flatMap_map, List.flatMap_def]
  congr 1
  conv => lhs; rw [← List.map_id elements]
  exact List.map_congr_left fun element member =>
    (areElements element member).eq_cons_cons

/-- A name of the grammar is cut where the grammar put it together. -/
theorem splitOnDouble_of_elements {head : Text} {elements : List Text}
    (whole : '_' ∉ head)
    (areElements : ∀ element ∈ elements, IsElement element) :
    Text.splitOnDouble '_' (head ++ elements.flatten) =
      head :: elements.map (·.drop 2) := by
  rw [flatten_of_isElement areElements, ← Text.join_cons_eq_flatMap]
  apply Text.splitOnDouble_join (List.cons_ne_nil _ _)
  intro piece member
  apply Text.cuttable_of_not_mem
  rcases List.mem_cons.mp member with rfl | inElements
  · exact whole
  · obtain ⟨element, inside, rfl⟩ := List.mem_map.mp inElements
    exact (areElements element inside).not_mem_underscore

theorem passes_of_isClassName {settings : Settings} {kind : DeclarationKind}
    {name : Text} (undotted : dropDot name = name)
    (produced : IsClassName settings kind name) :
    Passes settings kind (parse settings name) := by
  obtain @⟨typePrefix, block, modifier, elements, allowed, prefixSegment,
    prefixWhole, blockSegment, inScope, isModifier, shallow, areElements,
    noUtility, noComponent⟩ := produced
  have lower := Segment.lowerAscii_of_isValid prefixSegment.isValid
  have headSegment := prefixSegment.append blockSegment prefixWhole
  obtain ⟨modifiers, found, few, modifiersValid⟩ :=
    Element.ofText_append headSegment isModifier
  have headWhole : '_' ∉ (typePrefix ++ '-' :: block) ++ modifier := by
    intro member
    rcases List.mem_append.mp member with inHead | inModifier
    · exact headSegment.not_mem_underscore inHead
    · exact not_mem_underscore_of_isModifier isModifier inModifier
  have cut : Text.splitOnDouble '_'
      (dropDot (typePrefix ++ '-' :: (block ++ modifier ++ elements.flatten))) =
        ((typePrefix ++ '-' :: block) ++ modifier) ::
          elements.map (·.drop 2) := by
    rw [undotted, ← splitOnDouble_of_elements headWhole areElements]
    simp
  have split : splitPrefix settings
      (Element.ofText ((typePrefix ++ '-' :: block) ++ modifier)).name =
        (some typePrefix, block) := by
    rw [found]
    exact splitPrefix_append (by rwa [lower]) prefixWhole block
  obtain ⟨scopeValid, blockValid⟩ :=
    (splitScope_valid_iff blockSegment.undoubled).mpr ⟨blockSegment, inScope⟩
  rw [parse_of_typed cut split, found]
  constructor
  · refine ⟨typePrefix, rfl, ?_⟩
    rw [lower]
    exact ⟨allowed, noUtility, noComponent⟩
  · intro segment member
    simp only [segments, List.mem_append, List.mem_cons, List.mem_flatMap,
      List.mem_map, Option.toList_some, List.not_mem_nil, or_false,
      Option.mem_toList] at member
    rcases member with
      ((rfl | inScopes) | rfl | inModifiers) | ⟨_,
        ⟨_, ⟨element, inside, rfl⟩, rfl⟩, inElement⟩
    · exact prefixSegment.isValid
    · exact scopeValid segment inScopes
    · exact blockValid
    · exact modifiersValid segment inModifiers
    · exact (areElements element inside).valid.2 segment inElement
  · simpa using shallow
  · exact few
  · intro element member
    simp only [List.mem_map] at member
    obtain ⟨_, ⟨inner, inside, rfl⟩, rfl⟩ := member
    exact (areElements inner inside).valid.1

/-! ## From the check to the grammar -/

theorem isElement_of_valid {body : Text}
    (few : (Element.ofText body).modifiers.length ≤ 1)
    (valid : ∀ segment ∈ (Element.ofText body).segments,
      Segment.isValid segment = true) :
    IsElement (['_', '_'] ++ body) := by
  have segments : ∀ segment ∈ (Element.ofText body).segments,
      IsSegment segment :=
    fun segment member =>
      Element.isSegment_of_mem_ofText member (valid segment member)
  rw [← Element.text_ofText body]
  refine @IsElement.element _
    (Element.modifierText (Element.ofText body).modifiers) ?_ ?_
  · exact segments _ List.mem_cons_self
  · apply Element.isModifier_modifierText _ few
    intro modifier member
    exact segments modifier (List.mem_cons_of_mem _ member)

/-- How a name with a type prefix is written. -/
theorem eq_of_typed {settings : Settings} {name head typePrefix rest : Text}
    {bodies : List Text}
    (cut : Text.splitOnDouble '_' (dropDot name) = head :: bodies)
    (split : splitPrefix settings (Element.ofText head).name =
      (some typePrefix, rest)) :
    dropDot name = typePrefix ++ '-' :: (rest ++
      Element.modifierText (Element.ofText head).modifiers ++
      (bodies.map (['_', '_'] ++ ·)).flatten) := by
  have scopeText := splitScope_text settings rest
  have shape := text_parse settings name
  rw [parse_of_typed cut split, text, flatMap_text_ofText,
    List.append_assoc (hyphenated _), scopeText, List.flatMap_def] at shape
  rw [← shape]
  simp [hyphenated]

private theorem undoubled_rest {settings : Settings}
    {head typePrefix rest : Text}
    (split : splitPrefix settings (Element.ofText head).name =
      (some typePrefix, rest)) :
    Text.Undoubled '-' rest := by
  obtain ⟨headText, -⟩ := splitPrefix_eq_some split
  have member : (Element.ofText head).name ∈ Text.splitOnDouble '-' head := by
    rw [← Element.segments_ofText head]
    exact List.mem_cons_self
  apply (Text.undoubled_of_mem_splitOnDouble member).of_isInfix
  rw [headText]
  exact ((List.suffix_cons '-' rest).trans
    (List.suffix_append typePrefix _)).isInfix

theorem isClassName_of_passes {settings : Settings} {kind : DeclarationKind}
    {name : Text} (undotted : dropDot name = name)
    (passes : Passes settings kind (parse settings name)) :
    IsClassName settings kind name := by
  obtain ⟨typePrefix, typed, fits⟩ := passes.typed
  cases cut : Text.splitOnDouble '_' (dropDot name) with
  | nil => exact (Text.splitOnDouble_ne_nil _ cut).elim
  | cons head bodies =>
      rcases split : splitPrefix settings (Element.ofText head).name with
        ⟨found, rest⟩
      cases found with
      | none =>
          rw [parse_of_untyped cut split] at typed
          cases typed
      | some front =>
          rw [parse_of_typed cut split] at typed passes
          obtain rfl := Option.some.inj typed
          have written := eq_of_typed cut split
          obtain ⟨-, prefixWhole⟩ := splitPrefix_eq_some split
          have valid :
              ∀ segment ∈ [front] ++ (splitScope settings rest).1.toList ++
              (splitScope settings rest).2 :: (Element.ofText head).modifiers ++
              (bodies.map Element.ofText).flatMap Element.segments,
              Segment.isValid segment = true := passes.segments
          have prefixValid : Segment.isValid front = true :=
            valid front (by simp)
          obtain ⟨restSegment, inScope⟩ : IsSegment rest ∧
            IsScoped settings rest := by
            apply (splitScope_valid_iff (undoubled_rest split)).mp
            constructor
            · intro scope found
              exact valid scope (by simp [Option.mem_def.mp found])
            · exact valid _ (by simp)
          rw [Segment.lowerAscii_of_isValid prefixValid] at fits
          rw [undotted] at written
          rw [written]
          apply IsClassName.name
          · exact fits.allowed
          · exact Segment.isSegment_iff.mpr
              ⟨prefixValid, Text.undoubled_of_not_mem prefixWhole⟩
          · exact prefixWhole
          · exact restSegment
          · exact inScope
          · apply Element.isModifier_modifierText _ passes.modifiers
            intro modifier member
            apply Element.isSegment_of_mem_ofText
              (List.mem_cons_of_mem _ member)
            exact valid modifier (by simp [member])
          · simpa using passes.depth
          · intro element member
            obtain ⟨body, inside, rfl⟩ := List.mem_map.mp member
            apply isElement_of_valid
            · exact passes.elementModifiers _ (List.mem_map_of_mem inside)
            · intro segment inElement
              apply valid segment
              apply List.mem_append_right
              exact List.mem_flatMap.mpr
                ⟨_, List.mem_map_of_mem inside, inElement⟩
          · exact fits.noUtility
          · exact fits.noComponent

/-! ## The check is the grammar -/

theorem dropDot_of_undotted {name : Text} (undotted : ¬ ['.'] <+: name) :
    dropDot name = name := by
  cases name with
  | nil => rfl
  | cons c rest =>
      have other : '.' ≠ c := by
        rintro rfl
        exact undotted ⟨rest, rfl⟩
      simp [dropDot, Text.dropFront?, other]

theorem dropDot_cons (name : Text) : dropDot ('.' :: name) = name := by
  simp [dropDot, Text.dropFront?]

/-- A class name passes the check exactly if the grammar produces it, whether it
is written with a dot in front or without. -/
theorem violations_eq_nil_iff_isClassName (settings : Settings)
    (kind : DeclarationKind) {name : Text} (undotted : ¬ ['.'] <+: name) :
    (violations settings kind name = [] ↔ IsClassName settings kind name) ∧
      (violations settings kind ('.' :: name) = [] ↔
        IsClassName settings kind name) := by
  have kept := dropDot_of_undotted undotted
  have parsed : Passes settings kind (parse settings name) ↔
      IsClassName settings kind name :=
    ⟨isClassName_of_passes kept, passes_of_isClassName kept⟩
  constructor
  · rw [violations_eq_nil_iff, kept, parsed]
  · rw [violations_eq_nil_iff, dropDot_cons, parsed]

/-- A card's title is named as a component of the default settings, and not as a
utility. -/
theorem isClassName_card :
    ¬ ['.'] <+: "c-card--big__title--wide".toList ∧
      IsClassName {} .component "c-card--big__title--wide".toList ∧
      ¬ IsClassName {} .utility "c-card--big__title--wide".toList := by
  have undotted : ¬ ['.'] <+: "c-card--big__title--wide".toList := by decide
  refine ⟨undotted, ?_, ?_⟩
  · exact (violations_eq_nil_iff_isClassName {} .component undotted).1.mp
      (by decide)
  · intro produced
    have passed :=
      (violations_eq_nil_iff_isClassName {} .utility undotted).2.mpr produced
    revert passed
    decide

end ClassName

end StyleAudit
