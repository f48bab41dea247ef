import StyleAudit.Proofs.Doc.TagText

/-!
# Reading a written tag line

Reading the line of a legible tag gives the tag back, if the tag is expressible.
In a comment, the line of a canonical tag is also left as it is.
-/

namespace StyleAudit

namespace Doc

namespace Tag

/-! ## Reading a member -/

theorem takeType_typeText {type : Option Text} {text : Text}
    (enclosed : ∀ inner ∈ type, inner ≠ [] ∧ Text.Trimmed inner ∧ '}' ∉ inner)
    (trimmed : Text.trimStart text = text)
    (noBrace : Text.beginsWith ['{'] text = false) :
    takeType (typeText type ++ text) = .ok (type, text) := by
  cases type with
  | none =>
      rw [typeText, List.nil_append, takeType, noBrace]
      rfl
  | some inner =>
      obtain ⟨nonempty, trimmedInner, unclosed⟩ := enclosed inner rfl
      have written : typeText (some inner) ++ text =
          '{' :: (inner ++ '}' :: ' ' :: text) := by
        simp [typeText]
      have begins : Text.beginsWith ['{']
          ('{' :: (inner ++ '}' :: ' ' :: text)) = true := by
        simp [Text.beginsWith, Text.dropFront?]
      have cut : Text.splitFirst? (· == '}') (inner ++ '}' :: ' ' :: text) =
          some (inner, ' ' :: text) := by
        apply Text.splitFirst?_append_cons
        · intro c member
          simpa using fun same : c = '}' => unclosed (same ▸ member)
        · rfl
      have filled : (Text.trim inner).isEmpty = false := by
        rw [trimmedInner]
        simpa using nonempty
      rw [written, takeType, if_pos begins, List.drop_succ_cons,
        List.drop_zero, cut]
      simp only [filled, Bool.false_eq_true, if_false]
      rw [trimmedInner, Text.trimStart_cons_of_blank Text.isBlank_space,
        trimmed]

/-- What the brackets of an optional parameter hold. -/
def innerText (parameter : Parameter) : Text :=
  match parameter.default with
  | some value => parameter.name ++ '=' :: value
  | none => parameter.name

theorem nameText_of_optional {parameter : Parameter}
    (optional : parameter.optional = true) :
    parameter.nameText = '[' :: innerText parameter ++ [']'] := by
  cases given : parameter.default with
  | none => simp [Parameter.nameText, innerText, given, optional]
  | some value => simp [Parameter.nameText, innerText, given]

theorem nameText_of_required {parameter : Parameter}
    (defaulted : parameter.default.isSome → parameter.optional = true)
    (required : parameter.optional = false) :
    parameter.nameText = parameter.name ∧ innerText parameter =
      parameter.name := by
  have noDefault : parameter.default = none := by
    rw [← Option.not_isSome_iff_eq_none]
    intro given
    rw [defaulted given] at required
    exact Bool.noConfusion required
  simp [Parameter.nameText, innerText, noDefault, required]

private theorem unclosed_innerText {parameter : Parameter}
    (named : Text.IsName parameter.name)
    (enclosed : ∀ value ∈ parameter.default, ']' ∉ value) :
    ']' ∉ innerText parameter := by
  have notInName := named.not_mem (by decide : Text.isNameChar ']' = false)
  cases given : parameter.default with
  | none => simp [innerText, given, notInName]
  | some value => simp [innerText, given, notInName, enclosed value given]

theorem takeNamePart_nameText {parameter : Parameter}
    (legible : parameter.Legible)
    (enclosed : ∀ value ∈ parameter.default, ']' ∉ value) {behind : Text}
    (ended : Text.AtBlank behind) :
    takeNamePart (parameter.nameText ++ behind) =
      .ok ⟨innerText parameter, parameter.optional, behind⟩ := by
  cases optional : parameter.optional with
  | true =>
      have unclosed := unclosed_innerText legible.name enclosed
      have written : parameter.nameText ++ behind =
          '[' :: (innerText parameter ++ ']' :: behind) := by
        rw [nameText_of_optional optional]
        simp
      have cut : Text.splitFirst? (· == ']')
          (innerText parameter ++ ']' :: behind) =
          some (innerText parameter, behind) := by
        apply Text.splitFirst?_append_cons
        · intro c member
          simpa using fun same : c = ']' => unclosed (same ▸ member)
        · rfl
      rw [written, takeNamePart,
        if_pos (by simp [Text.beginsWith, Text.dropFront?]),
        List.drop_succ_cons, List.drop_zero, cut]
  | false =>
      obtain ⟨plain, inner⟩ := nameText_of_required legible.optional optional
      have noBracket : Text.beginsWith ['['] (parameter.name ++ behind) =
          false :=
        legible.name.beginsWith_append (by decide) behind
      rw [plain, inner, takeNamePart, if_neg (by simp [noBracket]),
        Text.takeWhile_word legible.name.blankFree ended,
        Text.dropWhile_word legible.name.blankFree ended]

theorem splitDefault_innerText {parameter : Parameter}
    (legible : parameter.Legible) :
    splitDefault (innerText parameter) =
      .ok (parameter.name, parameter.default) := by
  have trimmed : Text.trim parameter.name = parameter.name :=
    legible.name.blankFree.trimmed
  have passed : ∀ c ∈ parameter.name, (c == '=') = false := by
    intro c member
    simpa using fun same : c = '=' =>
      legible.name.not_mem (by decide) (same ▸ member)
  cases given : parameter.default with
  | none =>
      rw [innerText, given, splitDefault, Text.splitFirst?_eq_none passed]
      simp only [trimmed]
  | some value =>
      obtain ⟨nonempty, trimmedValue⟩ := legible.default value given
      have filled : (Text.trim value).isEmpty = false := by
        rw [trimmedValue]
        simpa using nonempty
      rw [innerText, given, splitDefault,
        Text.splitFirst?_append_cons passed rfl]
      simp only [filled, Bool.false_eq_true, if_false]
      rw [trimmed, trimmedValue]

theorem memberName_of_isName {name : Text} (isName : Text.IsName name) :
    memberName name = .ok name := by
  have noSign : Text.dropFront? ['$'] name = none := by
    rw [Option.eq_none_iff_forall_not_mem]
    intro rest found
    have whole := Text.dropFront?_eq_some_iff.mp found
    exact isName.not_mem (by decide : Text.isNameChar '$' = false)
      (by simp [whole])
  have nonempty : name.isEmpty = false := by simpa using isName.1
  have named : name.all Text.isNameChar = true := List.all_eq_true.mpr isName.2
  simp [memberName, noSign, nonempty, named]

theorem atBlank_descriptionText (text : Text) :
    Text.AtBlank (descriptionText text) := by
  intro c rest written
  rw [descriptionText] at written
  split at written
  · exact (List.cons_ne_nil c rest written.symm).elim
  · rw [← (List.cons.inj written).1]
    exact Text.isBlank_space

theorem trim_descriptionText {text : Text} (trimmed : Text.Trimmed text) :
    Text.trim (descriptionText text) = (descriptionText text).drop 1 := by
  by_cases empty : text = []
  · subst empty
    rfl
  · have dashed := trimmed_dashed trimmed empty
    rw [descriptionText_of_filled empty, Text.trim,
      Text.trimStart_cons_of_blank Text.isBlank_space, dashed.trimStart_eq,
      dashed.trimEnd_eq, List.drop_succ_cons, List.drop_zero]

theorem description_descriptionText {text : Text}
    (trimmed : Text.Trimmed text) :
    description ((descriptionText text).drop 1) = text := by
  by_cases empty : text = []
  · subst empty
    rfl
  · have cut : Text.dropFront? ['-'] ('-' :: ' ' :: text) =
        some (' ' :: text) :=
      Text.dropFront?_eq_some_iff.mpr rfl
    rw [descriptionText_of_filled empty, List.drop_succ_cons, List.drop_zero,
      description, cut]
    simp only [Text.trimStart_cons_of_blank Text.isBlank_space,
      trimmed.trimStart_eq]

/-- A hyphen in front of a description keeps it from being read as a default
value. -/
theorem takeSpacedDefault_descriptionText (text : Text) :
    takeSpacedDefault ((descriptionText text).drop 1) =
      .ok (none, (descriptionText text).drop 1) := by
  have noEquals : Text.beginsWith ['='] ((descriptionText text).drop 1) =
      false := by
    rw [descriptionText]
    split <;> simp [Text.beginsWith, Text.dropFront?]
  rw [takeSpacedDefault, noEquals]
  rfl

private theorem nameText_begins {parameter : Parameter}
    (named : Text.IsName parameter.name) (defaulted : parameter.default.isSome →
      parameter.optional = true)
    (behind : Text) :
    Text.beginsWith ['{'] (parameter.nameText ++ behind) = false := by
  cases optional : parameter.optional with
  | true =>
      rw [nameText_of_optional optional]
      simp [Text.beginsWith, Text.dropFront?]
  | false =>
      rw [(nameText_of_required defaulted optional).1]
      exact named.beginsWith_append (by decide) behind

theorem takeType_memberText {parameter : Parameter}
    (legible : parameter.Legible) :
    takeType (Text.trim (memberText parameter)) =
      .ok (parameter.type,
        parameter.nameText ++ descriptionText parameter.description) := by
  have whole : Text.trim (memberText parameter) = memberText parameter :=
    trimmed_memberText legible
  have trimmed := Text.trimStart_append (nameText_ne_nil legible.name.1)
    (trimmed_nameText legible.name).trimStart_eq
      (descriptionText parameter.description)
  rw [whole]
  exact takeType_typeText legible.type trimmed
    (nameText_begins legible.name legible.optional _)

theorem member_memberText {parameter : Parameter} (legible : parameter.Legible)
    (enclosed : ∀ value ∈ parameter.default, ']' ∉ value) :
    member (memberText parameter) = .ok parameter := by
  have named := takeNamePart_nameText legible enclosed
    (atBlank_descriptionText parameter.description)
  have noOther : (parameter.default <|> none) = parameter.default := by
    cases parameter.default <;> rfl
  have optional : (parameter.optional || parameter.default.isSome) =
      parameter.optional := by
    cases given : parameter.default.isSome with
    | false => exact Bool.or_false _
    | true => rw [legible.optional given, Bool.or_true]
  rw [member, takeType_memberText legible]
  simp only [bind, Except.bind, named, splitDefault_innerText legible,
    memberName_of_isName legible.name, trim_descriptionText legible.description,
    takeSpacedDefault_descriptionText, pure, Except.pure, ite_self,
    description_descriptionText legible.description, noOther, optional]

theorem propertyOf_memberText {property : Property}
    (legible : property.parameter.Legible) :
    propertyOf (memberText property.parameter) = .ok property := by
  rw [propertyOf, member_memberText legible nofun]
  rfl

private theorem dropPairs_of_undashed {text : Text}
    (undashed : Text.beginsWith ['-', '-'] text = false) :
    Text.dropPairs '-' '-' text = text := by
  match text with
  | [] | [_] => rfl
  | c :: d :: rest =>
      rw [Text.dropPairs, if_neg]
      rintro ⟨rfl, rfl⟩
      simp [Text.beginsWith, Text.dropFront?] at undashed

theorem modifierOf_modifierText {modifier : Modifier}
    (legible : (Tag.modifier modifier).Legible) :
    modifierOf (modifier.name ++ descriptionText modifier.description) =
      .ok modifier := by
  obtain ⟨isName, undashed, trimmed⟩ := legible
  have whole := trimmed_modifierText isName trimmed
  have ended := atBlank_descriptionText modifier.description
  have blankFree := isName.blankFree
  have nonempty : modifier.name.isEmpty = false := by simpa using isName.1
  have named : modifier.name.all Text.isNameChar = true :=
    List.all_eq_true.mpr isName.2
  rw [Text.Trimmed] at whole
  simp only [modifierOf, whole, Text.takeWhile_word blankFree ended,
    Text.dropWhile_word blankFree ended, dropPairs_of_undashed undashed,
    nonempty, named, Bool.false_eq_true, if_false, if_true,
    trim_descriptionText trimmed,
    description_descriptionText trimmed]

/-! ## Reading a tag line -/

theorem singleWord_of_blankFree (tag : Text) {word : Text}
    (nonempty : word ≠ []) (blankFree : Text.BlankFree word) :
    singleWord tag word = .ok word := by
  rw [singleWord, Text.words_of_blankFree blankFree nonempty]

theorem kindOf_word (kind : DeclarationKind) : kindOf kind.word = .ok kind := by
  have found : DeclarationKind.ofWord? kind.word = some kind := by
    cases kind <;> rfl
  have isWord := isWord_word kind
  rw [kindOf, Text.words_of_blankFree isWord.blankFree isWord.nonempty]
  simp only [found]

theorem dropWhile_dot {text : Text}
    (undotted : Text.beginsWith ['.'] text = false) :
    text.dropWhile (· == '.') = text := by
  cases text with
  | nil => rfl
  | cons c rest =>
      rw [List.dropWhile_cons_of_neg]
      intro dot
      rw [beq_iff_eq.mp dot] at undotted
      simp [Text.beginsWith, Text.dropFront?] at undotted

private theorem ofParts_of_not_reserved {tag : Text} (nonempty : tag ≠ [])
    (free : tag ∉ reserved) (text : Text) :
    ofParts tag text = .ok (.extension tag text) := by
  simp only [reserved, List.mem_cons, List.not_mem_nil, or_false, not_or]
    at free
  simp only [ofParts, List.isEmpty_iff, nonempty, free, if_false]

theorem ofParts_parts {tag : Tag} (legible : tag.Legible)
    (expressible : tag.Expressible) :
    ofParts tag.parts.1 tag.parts.2 = .ok tag := by
  cases tag with
  | kind it =>
      calc ofParts "type".toList it.word
        _ = (kindOf it.word).map .kind := rfl
        _ = .ok (.kind it) := by rw [kindOf_word, Except.map]
  | name word =>
      calc ofParts "name".toList word
        _ = (singleWord "name".toList word).map .name := rfl
        _ = .ok (.name word) := by
          rw [singleWord_of_blankFree _ legible.1 legible.2, Except.map]
  | implements word =>
      calc ofParts "implements".toList word
        _ = (singleWord "implements".toList word).map
              fun word => .implements (word.dropWhile (· == '.')) := rfl
        _ = .ok (.implements word) := by
              rw [singleWord_of_blankFree _ expressible legible.1, Except.map,
                dropWhile_dot legible.2]
  | returns value =>
      have filled : ¬ value.isEmpty = true := by simpa using legible.1
      calc ofParts "returns".toList value
        _ = if value.isEmpty then .error .missingReturns
          else .ok (.returns value) := rfl
        _ = .ok (.returns value) := if_neg filled
  | parameter it =>
      calc ofParts "param".toList (memberText it)
        _ = (member (memberText it)).map .parameter := rfl
        _ = .ok (.parameter it) := by
          rw [member_memberText legible expressible, Except.map]
  | property it =>
      calc ofParts "prop".toList (memberText it.parameter)
        _ = (propertyOf (memberText it.parameter)).map .property := rfl
        _ = .ok (.property it) := by
          rw [propertyOf_memberText legible, Except.map]
  | modifier it =>
      calc ofParts "modifier".toList (it.name ++ descriptionText it.description)
        _ = (modifierOf (it.name ++ descriptionText it.description)).map
          .modifier := rfl
        _ = .ok (.modifier it) := by
          rw [modifierOf_modifierText legible, Except.map]
  | extension tag value =>
      obtain ⟨⟨nonempty, -, free⟩, -⟩ := legible
      exact ofParts_of_not_reserved nonempty free value

private theorem parse_tagLine {tag text : Text} (blankFree : Text.BlankFree tag)
    (trimmed : Text.Trimmed text) :
    parse (tagLine tag text) = ofParts tag text := by
  rw [Text.Trimmed] at trimmed
  by_cases empty : text = []
  · subst empty
    simp only [parse, tagLine, List.isEmpty_nil, if_true, List.drop_succ_cons,
      List.drop_zero, Text.splitWord_of_blankFree blankFree, trimmed]
  · have filled : text.isEmpty = false := by simpa using empty
    simp only [parse, tagLine, filled, Bool.false_eq_true, if_false,
      List.cons_append, List.drop_succ_cons, List.drop_zero,
      Text.splitWord_append_space blankFree, trimmed]

theorem Legible.parse_line {tag : Tag} (legible : tag.Legible) :
    parse tag.line = ofParts tag.parts.1 tag.parts.2 :=
  parse_tagLine legible.blankFree_parts legible.trimmed_parts

theorem parse_line {tag : Tag} (canonical : tag.Canonical) :
    parse tag.line = .ok tag := by
  rw [canonical.legible.parse_line,
    ofParts_parts canonical.legible canonical.expressible]

/-! ## A tag line in a comment -/

theorem notClosing_descriptionText {front description : Text}
    (named : Text.endsWith ['*', '/'] front = false)
    (described : Text.endsWith ['*', '/'] description = false) :
    Text.endsWith ['*', '/'] (front ++ descriptionText description) =
      false := by
  by_cases empty : description = []
  · simpa [descriptionText, empty] using named
  · have dashed :=
      Text.endsWith_append_cons (by decide : ' ' ∉ ['*', '/']) ['-'] description
    rw [descriptionText_of_filled empty, Text.endsWith_append_cons (by decide)]
    exact dashed.trans described

theorem notClosing_name {name : Text} (isName : Text.IsName name) :
    Text.endsWith ['*', '/'] name = false := by
  rw [← Bool.not_eq_true, Text.endsWith_iff]
  intro closing
  exact isName.not_mem (by decide)
    (closing.subset (by decide : '/' ∈ ['*', '/']))

private theorem notClosing_nameText {parameter : Parameter}
    (named : Text.IsName parameter.name) :
    Text.endsWith ['*', '/'] parameter.nameText = false := by
  rw [Parameter.nameText]
  split
  · rw [Text.endsWith_append_cons (by decide)]
    decide
  · split
    · rw [Text.endsWith_append_cons (by decide)]
      decide
    · exact notClosing_name named

theorem notClosing_memberText {parameter : Parameter}
    (canonical : parameter.Canonical) :
    Text.endsWith ['*', '/'] (memberText parameter) = false := by
  have rest := notClosing_descriptionText (notClosing_nameText canonical.name)
    canonical.description.notClosing
  rw [memberText]
  cases parameter.type with
  | none => exact rest
  | some type =>
      have braced := Text.endsWith_append_cons (by decide : ' ' ∉ ['*', '/'])
        ('{' :: type ++ ['}'])
        (parameter.nameText ++ descriptionText parameter.description)
      simpa [typeText] using braced.trans rest

private theorem notClosing_parts {tag : Tag} (canonical : tag.Canonical) :
    Text.endsWith ['*', '/'] tag.parts.2 = false ∧
      (tag.parts.2 = [] → Text.endsWith ['*', '/'] tag.parts.1 = false) := by
  constructor
  · cases tag with
    | kind it => exact (isWord_word it).notClosing
    | name word => exact canonical.notClosing
    | implements word => exact canonical.1.notClosing
    | returns value => exact canonical.2.notClosing
    | parameter it => exact notClosing_memberText canonical
    | property it => exact notClosing_memberText canonical
    | modifier it =>
        exact notClosing_descriptionText (notClosing_name canonical.name)
          canonical.description.notClosing
    | extension key value => exact canonical.2.1.notClosing
  · have table : ∀ word ∈ reserved, Text.endsWith ['*', '/'] word = false := by
      decide
    rcases parts_reserved tag with own | ⟨key, value, rfl⟩
    · exact fun _ => table _ own
    · exact canonical.2.2

private theorem notClosing_line {tag : Tag} (canonical : tag.Canonical) :
    Text.endsWith ['*', '/'] tag.line = false := by
  obtain ⟨valued, named⟩ := notClosing_parts canonical
  rw [line, tagLine]
  split
  · rename_i empty
    have signed :=
      Text.endsWith_append_cons (by decide : '@' ∉ ['*', '/']) [] tag.parts.1
    exact signed.trans (named (List.isEmpty_iff.mp empty))
  · rw [Text.endsWith_append_cons (by decide)]
    exact valued

theorem clean_line {tag : Tag} (canonical : tag.Canonical) :
    Clean tag.line where
  trimmed := canonical.legible.trimmed_line
  oneLine := by
    have filled :=
      canonical.legible.text_ne_nil canonical.expressible.ne_implements
    rw [← written_eq_line filled]
    exact not_mem_written (by decide) canonical.oneLine
  notClosing := notClosing_line canonical

theorem line_eq_cons (tag : Tag) : ∃ rest, tag.line = '@' :: rest := by
  rw [line, tagLine]
  split
  · exact ⟨_, rfl⟩
  · exact ⟨_, rfl⟩

theorem beginsWith_line (tag : Tag) :
    Text.beginsWith ['@'] tag.line = true := by
  obtain ⟨rest, written⟩ := line_eq_cons tag
  simp [written, Text.beginsWith, Text.dropFront?]

theorem writable_line (style : Style) {tag : Tag} (canonical : tag.Canonical) :
    Writable style tag.line where
  clean := clean_line canonical
  noStar := by
    obtain ⟨rest, written⟩ := line_eq_cons tag
    simp [written, Text.beginsWith, Text.dropFront?]

end Tag

end Doc

end StyleAudit
