import StyleAudit.Proofs.Doc.TagLine
import StyleAudit.Proofs.Outcome
import StyleAudit.Proofs.Text.InTurn

/-!
# What a tag line can say

A tag line may be written in several ways, but what is read from it always has
the same shape: names are names, types and default values are trimmed and not
empty, and every text of the tag stands in the line.  Such a tag is canonical
but for three things: it may claim to implement an interface without a name, a
default value may hold a bracket, and its line may end like a comment.
-/

namespace StyleAudit

namespace Text

private theorem blankFree_takeWhile (text : Text) :
    BlankFree (text.takeWhile (!isBlank ·)) := by
  intro c member
  have passed := List.all_eq_true.mp List.all_takeWhile c member
  simpa using passed

private theorem words_cons_of_filled {c : Char} (filled : isBlank c = false)
    (rest : Text) :
    words (c :: rest) = (c :: rest).takeWhile (!isBlank ·) ::
      words ((c :: rest).dropWhile (!isBlank ·)) := by
  induction rest generalizing c with
  | nil => simp [words, filled]
  | cons d rest ih =>
      cases blank : isBlank d with
      | true =>
          rw [words.eq_def]
          simp [filled, blank]
      | false =>
          rw [words.eq_def]
          simp [filled, blank, ih blank, consFirst]

theorem of_words_eq_cons {text first : Text} {others : List Text}
    (found : words text = first :: others) :
    first ≠ [] ∧ BlankFree first ∧ first <:+: text := by
  induction text with
  | nil => cases found
  | cons c rest ih =>
      cases blank : isBlank c with
      | true =>
          rw [words.eq_def] at found
          simp only [blank, if_true] at found
          obtain ⟨filled, blankFree, inside⟩ := ih found
          exact ⟨filled, blankFree,
            inside.trans (List.suffix_cons c rest).isInfix⟩
      | false =>
          rw [words_cons_of_filled blank] at found
          obtain ⟨rfl, -⟩ := List.cons.inj found
          refine ⟨?_, blankFree_takeWhile _, (List.takeWhile_prefix _).isInfix⟩
          simp [blank]

theorem splitFirst?_inTurn {stop : Char → Bool} {text front rest : Text}
    (found : splitFirst? stop text = some (front, rest)) :
    InTurn [front, rest] text := by
  obtain ⟨c, rfl, -⟩ := splitFirst?_eq_some found
  exact (InTurn.pair front (c :: rest)).narrow (List.infix_refl front)
    (List.suffix_cons c rest).isInfix

theorem splitWord_inTurn (text : Text) :
    BlankFree (splitWord text).1 ∧
      InTurn [(splitWord text).1, (splitWord text).2] text := by
  rw [splitWord]
  cases found : splitFirst? isBlank text with
  | none =>
      have parts := InTurn.pair text []
      rw [List.append_nil] at parts
      exact ⟨of_splitFirst?_eq_none found, parts⟩
  | some parts =>
      obtain ⟨c, whole, -, passed⟩ := splitFirst?_eq_some found
      exact ⟨passed, splitFirst?_inTurn found⟩

end Text

namespace Doc

theorem Parameter.Legible.canonical {parameter : Parameter}
    (legible : parameter.Legible)
    (oneLine : ∀ text ∈ parameter.texts, '\n' ∉ text)
    (enclosed : ∀ value ∈ parameter.default, ']' ∉ value)
    (notClosing : Text.endsWith ['*', '/'] parameter.description = false) :
    parameter.Canonical := by
  simp only [texts, List.mem_append, List.mem_cons, Option.mem_toList,
    List.not_mem_nil, or_false, or_imp, forall_and, forall_eq] at oneLine
  obtain ⟨typeLine, -, valueLine, descriptionLine⟩ := oneLine
  constructor
  · exact legible.name
  · intro type given
    obtain ⟨filled, trimmed, unclosed⟩ := legible.type type given
    exact ⟨filled, trimmed, typeLine type given, unclosed⟩
  · intro value given
    obtain ⟨filled, trimmed⟩ := legible.default value given
    exact ⟨filled, trimmed, valueLine value given, enclosed value given⟩
  · exact legible.optional
  · exact ⟨legible.description, descriptionLine, notClosing⟩

namespace Tag

/-! ## Reading a member -/

theorem takeType_inTurn {text named : Text} {type : Option Text}
    (taken : takeType text = .ok (type, named)) :
    (∀ inner ∈ type, inner ≠ [] ∧ Text.Trimmed inner ∧ '}' ∉ inner) ∧
      Text.InTurn (type.toList ++ [named]) text := by
  rw [takeType] at taken
  split at taken
  · split at taken
    · cases taken
    · rename_i inner behind found
      split at taken
      · cases taken
      · rename_i filled
        cases taken
        have unclosed := (Text.splitFirst?_beq_iff.mp found).2
        constructor
        · rintro _ ⟨⟩
          refine ⟨by simpa using filled, Text.trimmed_trim inner, ?_⟩
          exact fun member => unclosed ((Text.trim_isInfix inner).subset member)
        · have parts := (Text.splitFirst?_inTurn found).of_isInfix
            (List.drop_suffix 1 text).isInfix
          exact (parts.narrow (Text.trim_isInfix inner)
            (List.dropWhile_suffix Text.isBlank).isInfix)
  · cases taken
    exact ⟨by simp, .singleton (List.infix_refl _)⟩

theorem takeNamePart_inTurn {text : Text} {part : NamePart}
    (taken : takeNamePart text = .ok part) :
    Text.InTurn [part.text, part.behind] text := by
  rw [takeNamePart] at taken
  split at taken
  · split at taken
    · cases taken
    · rename_i inner behind found
      cases taken
      exact (Text.splitFirst?_inTurn found).of_isInfix
        (List.drop_suffix 1 text).isInfix
  · cases taken
    have parts := Text.InTurn.pair (text.takeWhile (!Text.isBlank ·))
      (text.dropWhile (!Text.isBlank ·))
    rwa [List.takeWhile_append_dropWhile] at parts

theorem splitDefault_inTurn {text raw : Text} {default : Option Text}
    (cut : splitDefault text = .ok (raw, default)) :
    (∀ value ∈ default, value ≠ [] ∧ Text.Trimmed value) ∧
      Text.InTurn (raw :: default.toList) text := by
  rw [splitDefault] at cut
  split at cut
  · cases cut
    exact ⟨by simp, .singleton (Text.trim_isInfix text)⟩
  · rename_i front value found
    split at cut
    · cases cut
    · rename_i filled
      cases cut
      constructor
      · rintro _ ⟨⟩
        exact ⟨by simpa using filled, Text.trimmed_trim value⟩
      · exact (Text.splitFirst?_inTurn found).narrow (Text.trim_isInfix front)
          (Text.trim_isInfix value)

theorem memberName_isName {text name : Text}
    (named : memberName text = .ok name) :
    Text.IsName name ∧ name <:+: text := by
  have inside : (Text.dropFront? ['$'] text).getD text <:+: text := by
    cases found : Text.dropFront? ['$'] text with
    | none => exact List.infix_refl text
    | some rest =>
        rw [Text.dropFront?_eq_some_iff.mp found]
        exact (List.suffix_cons '$' rest).isInfix
  rw [memberName] at named
  split at named
  · cases named
  · rename_i filled
    split at named
    · rename_i valid
      cases named
      exact ⟨⟨by simpa using filled, List.all_eq_true.mp valid⟩, inside⟩
    · cases named

private theorem splitDash_split (text : Text) :
    ∃ behind, text = (splitDash text).1 ++ behind ∧ (splitDash text).2 <:+
      behind := by
  induction text with
  | nil => exact ⟨[], rfl, List.suffix_refl []⟩
  | cons c rest ih =>
      obtain ⟨behind, whole, ends⟩ := ih
      rw [splitDash]
      split
      · exact ⟨c :: rest, rfl, List.suffix_cons c rest⟩
      · exact ⟨behind, congrArg (c :: ·) whole, ends⟩

private theorem splitDash_inTurn (text : Text) :
    Text.InTurn [(splitDash text).1, (splitDash text).2] text := by
  obtain ⟨behind, whole, ends⟩ := splitDash_split text
  have parts := Text.InTurn.pair (splitDash text).1 behind
  rw [← whole] at parts
  exact parts.narrow (List.infix_refl _) ends.isInfix

theorem takeSpacedDefault_inTurn {text behind : Text} {default : Option Text}
    (trimmed : Text.Trimmed text)
    (taken : takeSpacedDefault text = .ok (default, behind)) :
    (∀ value ∈ default, value ≠ [] ∧ Text.Trimmed value) ∧ Text.Trimmed behind ∧
      Text.InTurn (default.toList ++ [behind]) text := by
  simp only [takeSpacedDefault] at taken
  split at taken
  · split at taken
    · cases taken
    · rename_i filled
      cases taken
      refine ⟨?_, Text.trimmed_trim _, ?_⟩
      · rintro _ ⟨⟩
        exact ⟨by simpa using filled, Text.trimmed_trim _⟩
      · have parts := (splitDash_inTurn (text.drop 1)).of_isInfix
          (List.drop_suffix 1 text).isInfix
        exact parts.narrow (Text.trim_isInfix _) (Text.trim_isInfix _)
  · cases taken
    exact ⟨by simp, trimmed, .singleton (List.infix_refl _)⟩

theorem description_isInfix (text : Text) : description text <:+: text := by
  rw [description]
  split
  · rename_i behind found
    rw [Text.dropFront?_eq_some_iff.mp found]
    exact ((List.dropWhile_suffix _).trans
      (List.suffix_cons '-' behind)).isInfix
  · exact List.infix_refl text

theorem trimmed_description {text : Text} (trimmed : Text.Trimmed text) :
    Text.Trimmed (description text) := by
  rw [description]
  split
  · rename_i behind found
    have whole := Text.dropFront?_eq_some_iff.mp found
    have ends : Text.trimStart behind <:+ text := by
      rw [whole]
      exact (List.dropWhile_suffix _).trans (List.suffix_cons '-' behind)
    refine Text.trimmed_iff.mpr ⟨fun c => Text.not_of_mem_head?_dropWhile, ?_⟩
    intro c last
    apply (Text.trimmed_iff.mp trimmed).2 c
    obtain ⟨init, split⟩ := List.getLast?_eq_some_iff.mp last
    obtain ⟨front, rfl⟩ := ends
    rw [split, ← List.append_assoc]
    exact List.getLast?_concat
  · exact trimmed

theorem legible_member {text : Text} {it : Parameter}
    (read : member text = .ok it) :
    it.Legible ∧ Text.InTurn it.texts text := by
  rw [member] at read
  obtain ⟨⟨type, named⟩, typed, read⟩ := exists_ok_of_bind read
  obtain ⟨part, taken, read⟩ := exists_ok_of_bind read
  obtain ⟨⟨raw, joined⟩, cut, read⟩ := exists_ok_of_bind read
  obtain ⟨name, valid, read⟩ := exists_ok_of_bind read
  obtain ⟨isType, typeParts⟩ := takeType_inTurn typed
  obtain ⟨isValue, valueParts⟩ := splitDefault_inTurn cut
  obtain ⟨isName, inRaw⟩ := memberName_isName valid
  have front : Text.InTurn
      (type.toList ++ name :: joined.toList ++ [Text.trim part.behind])
      text := by
    have whole := typeParts.of_isInfix (Text.trim_isInfix text)
    have cutName : Text.InTurn (type.toList ++ part.text :: [part.behind])
        text :=
      whole.replace (takeNamePart_inTurn taken)
    have cutValue : Text.InTurn
        (type.toList ++ raw :: (joined.toList ++ [part.behind])) text :=
      cutName.replace valueParts
    have cutSign := cutValue.replace (.singleton inRaw)
    rw [List.singleton_append, ← List.cons_append, ← List.append_assoc]
      at cutSign
    exact cutSign.replace_last (.singleton (Text.trim_isInfix part.behind))
  have trimmed := Text.trimmed_trim part.behind
  dsimp only at read
  split at read
  · rename_i apart
    obtain ⟨⟨spaced, behind⟩, found, read⟩ := exists_ok_of_bind read
    cases read
    obtain ⟨isSpaced, trimmedBehind, spacedParts⟩ :=
      takeSpacedDefault_inTurn trimmed found
    obtain rfl : joined = none := by
      simpa using (Bool.and_eq_true_iff.mp apart).1
    refine ⟨⟨isName, isType, isSpaced, ?_, trimmed_description trimmedBehind⟩,
      ?_⟩
    · intro given
      exact Bool.or_eq_true_iff.mpr (.inr given)
    · have parts := front.replace_last spacedParts
      rw [← List.append_assoc] at parts
      have described :=
        parts.replace_last (.singleton (description_isInfix behind))
      simpa [Parameter.texts] using described
  · cases read
    have same : (joined <|> none) = joined := by cases joined <;> rfl
    rw [same]
    refine ⟨⟨isName, isType, isValue, ?_, trimmed_description trimmed⟩, ?_⟩
    · intro given
      exact Bool.or_eq_true_iff.mpr (.inr given)
    · have described := front.replace_last (.singleton (description_isInfix _))
      simpa [Parameter.texts] using described

theorem legible_propertyOf {text : Text} {it : Property}
    (read : propertyOf text = .ok it) :
    it.parameter.Legible ∧ Text.InTurn it.parameter.texts text := by
  rw [propertyOf] at read
  obtain ⟨parameter, isMember, read⟩ := exists_ok_of_bind read
  obtain ⟨legible, parts⟩ := legible_member isMember
  dsimp only at read
  split at read
  · cases read
  · rename_i required
    cases read
    have noDefault : parameter.default = none := by
      rw [← Option.not_isSome_iff_eq_none]
      exact fun given => required (legible.optional given)
    refine ⟨⟨legible.name, legible.type, by simp [Property.parameter],
      by simp [Property.parameter], legible.description⟩, ?_⟩
    simpa [Parameter.texts, Property.parameter, noDefault] using parts

private theorem beginsWith_dropPairs (text : Text) :
    Text.beginsWith ['-', '-'] (Text.dropPairs '-' '-' text) = false := by
  fun_induction Text.dropPairs '-' '-' text with
  | case1 c d rest same ih => exact ih
  | case2 c d rest other =>
      rw [← Bool.not_eq_true, Text.beginsWith_iff]
      simpa using fun first second => other ⟨first.symm, second.symm⟩
  | case3 text short =>
      rw [← Bool.not_eq_true, Text.beginsWith_iff]
      rintro ⟨rest, rfl⟩
      exact short '-' '-' rest rfl

private theorem dropPairs_suffix (a b : Char) (text : Text) :
    Text.dropPairs a b text <:+ text := by
  fun_induction Text.dropPairs a b text with
  | case1 c d rest same ih =>
      exact ih.trans
        ((List.suffix_cons d rest).trans (List.suffix_cons c (d :: rest)))
  | case2 c d rest other => exact List.suffix_refl _
  | case3 text short => exact List.suffix_refl _

theorem legible_modifierOf {text : Text} {it : Modifier}
    (read : modifierOf text = .ok it) :
    (Tag.modifier it).Legible ∧ Text.InTurn (Tag.modifier it).texts text := by
  simp only [modifierOf] at read
  split at read
  · cases read
  · rename_i filled
    split at read
    · rename_i valid
      cases read
      refine ⟨⟨⟨by simpa using filled, List.all_eq_true.mp valid⟩,
        beginsWith_dropPairs _, trimmed_description (Text.trimmed_trim _)⟩, ?_⟩
      have parts :=
        Text.InTurn.pair ((Text.trim text).takeWhile (!Text.isBlank ·))
          ((Text.trim text).dropWhile (!Text.isBlank ·))
      rw [List.takeWhile_append_dropWhile] at parts
      exact (parts.of_isInfix (Text.trim_isInfix text)).narrow
        (dropPairs_suffix _ _ _).isInfix
          ((description_isInfix _).trans (Text.trim_isInfix _))
    · cases read

/-! ## Reading a tag line -/

theorem of_singleWord {tag text word : Text}
    (single : singleWord tag text = .ok word) :
    word ≠ [] ∧ Text.BlankFree word ∧ word <:+: text := by
  rw [singleWord] at single
  split at single
  · cases single
  · rename_i found
    cases single
    exact Text.of_words_eq_cons found
  · cases single

theorem beginsWith_dropWhile_dot (text : Text) :
    Text.beginsWith ['.'] (text.dropWhile (· == '.')) = false := by
  rw [← Bool.not_eq_true, Text.beginsWith_iff]
  rintro ⟨rest, whole⟩
  have first : '.' ∈ (text.dropWhile (· == '.')).head? := by
    rw [← whole]
    rfl
  cases Text.not_of_mem_head?_dropWhile first

/-- How the tag with a name is read from its text. -/
inductive ReadAs (text : Text) : Text → Tag → Prop
  | kind {it : DeclarationKind} (read : kindOf text = .ok it) : ReadAs text
    "type".toList (.kind it)
  | name {word : Text} (read : singleWord "name".toList text = .ok word) :
      ReadAs text "name".toList (.name word)
  | implements
    {word : Text} (read : singleWord "implements".toList text = .ok word) :
      ReadAs text "implements".toList (.implements (word.dropWhile (· == '.')))
  | returns (filled : text ≠ []) : ReadAs text "returns".toList (.returns text)
  | parameter {it : Parameter} (read : member text = .ok it) :
      ReadAs text "param".toList (.parameter it)
  | property {it : Property} (read : propertyOf text = .ok it) :
      ReadAs text "prop".toList (.property it)
  | modifier {it : Modifier} (read : modifierOf text = .ok it) :
      ReadAs text "modifier".toList (.modifier it)
  | extension {name : Text} (filled : name ≠ []) (free : name ∉ reserved) :
      ReadAs text name (.extension name text)

theorem readAs_of_ofParts {name text : Text} {tag : Tag}
    (read : ofParts name text = .ok tag) :
    ReadAs text name tag := by
  rw [ofParts] at read
  split at read
  · cases read
  split at read
  · rename_i isName
    subst isName
    obtain ⟨it, found, rfl⟩ := exists_ok_of_map read
    exact .kind found
  split at read
  · rename_i isName
    subst isName
    obtain ⟨word, single, rfl⟩ := exists_ok_of_map read
    exact .name single
  split at read
  · rename_i isName
    subst isName
    obtain ⟨word, single, rfl⟩ := exists_ok_of_map read
    exact .implements single
  split at read
  · rename_i isName
    subst isName
    split at read
    · cases read
    · rename_i filled
      cases read
      exact .returns (by simpa using filled)
  split at read
  · rename_i isName
    subst isName
    obtain ⟨it, isMember, rfl⟩ := exists_ok_of_map read
    exact .parameter isMember
  split at read
  · rename_i isName
    subst isName
    obtain ⟨it, isProperty, rfl⟩ := exists_ok_of_map read
    exact .property isProperty
  split at read
  · rename_i isName
    subst isName
    obtain ⟨it, isModifier, rfl⟩ := exists_ok_of_map read
    exact .modifier isModifier
  · rename_i filled noKind noName noInterface noReturns noParameter
      noProperty noModifier
    cases read
    refine .extension (by simpa using filled) ?_
    simp only [reserved, List.mem_cons, List.not_mem_nil, or_false, not_or]
    exact ⟨noKind, noName, noInterface, noReturns, noParameter,
      noProperty, noModifier⟩

/-- A tag that was read has the name that it was read under. -/
theorem ReadAs.parts_fst {name text : Text} {tag : Tag}
    (readAs : ReadAs text name tag) :
    tag.parts.1 = name := by
  cases readAs <;> rfl

/-- A tag that was read holds nothing that is not in its text, but for the name
of an extension. -/
theorem legible_ofParts {name text : Text} {tag : Tag}
    (blankFree : Text.BlankFree name) (trimmed : Text.Trimmed text)
    (read : ofParts name text = .ok tag) :
    tag.Legible ∧
      (Text.InTurn tag.texts text ∨ tag = .extension name text) := by
  cases readAs_of_ofParts read with
  | kind _ => exact ⟨trivial, .inl (.nil text)⟩
  | name single =>
      obtain ⟨filled, isWord, inside⟩ := of_singleWord single
      exact ⟨⟨filled, isWord⟩, .inl (.singleton inside)⟩
  | @implements word single =>
      obtain ⟨-, isWord, inside⟩ := of_singleWord single
      have ends : word.dropWhile (· == '.') <:+ word := List.dropWhile_suffix _
      exact ⟨⟨fun c member => isWord c (ends.subset member),
        beginsWith_dropWhile_dot word⟩,
        .inl (.singleton (ends.isInfix.trans inside))⟩
  | returns filled =>
      exact ⟨⟨filled, trimmed⟩, .inl (.singleton (List.infix_refl text))⟩
  | parameter isMember =>
      obtain ⟨legible, parts⟩ := legible_member isMember
      exact ⟨legible, .inl parts⟩
  | property isProperty =>
      obtain ⟨legible, parts⟩ := legible_propertyOf isProperty
      exact ⟨legible, .inl parts⟩
  | modifier isModifier =>
      obtain ⟨legible, parts⟩ := legible_modifierOf isModifier
      exact ⟨legible, .inl parts⟩
  | extension filled free =>
      exact ⟨⟨⟨filled, blankFree, free⟩, trimmed⟩, .inr rfl⟩

theorem legible_parse {line : Text} {tag : Tag} (read : parse line = .ok tag) :
    tag.Legible ∧ Text.InTurn tag.texts (line.drop 1) := by
  obtain ⟨blankFree, parts⟩ := Text.splitWord_inTurn (line.drop 1)
  have narrowed := parts.narrow (List.infix_refl _) (Text.trim_isInfix _)
  have parsed : ofParts (Text.splitWord (line.drop 1)).1
      (Text.trim (Text.splitWord (line.drop 1)).2) = .ok tag := read
  obtain ⟨legible, inText | rfl⟩ :=
    legible_ofParts blankFree (Text.trimmed_trim _) parsed
  · exact ⟨legible, inText.of_isInfix (narrowed.isInfix _ (by simp))⟩
  · exact ⟨legible, narrowed⟩

/-! ## Continuation -/

theorem trimmed_join {text more : Text} (trimmed : Text.Trimmed text)
    (continued : Text.Trimmed more) (filled : more ≠ []) :
    Text.Trimmed (join text more) := by
  rw [join]
  split
  · exact continued
  · rename_i nonempty
    exact Text.trimmed_append_space (by simpa using nonempty)
      trimmed.trimStart_eq filled continued.trimEnd_eq

private theorem join_ne_nil {text : Text} (nonempty : text ≠ []) (more : Text) :
    join text more ≠ [] := by
  simp [join, nonempty]

theorem Legible.continueWith {tag : Tag} (legible : tag.Legible) {more : Text}
    (trimmed : Text.Trimmed more) (filled : more ≠ []) :
    (tag.continueWith more).Legible := by
  cases tag with
  | kind _ => exact legible
  | name _ => exact legible
  | implements _ => exact legible
  | returns value =>
      exact ⟨join_ne_nil legible.1 more, trimmed_join legible.2 trimmed filled⟩
  | parameter it =>
      have legible : it.Legible := legible
      exact { legible with
              description := trimmed_join legible.description trimmed filled }
  | property it =>
      have legible : it.parameter.Legible := legible
      exact { legible with
              description := trimmed_join legible.description trimmed filled }
  | modifier it =>
      exact ⟨legible.1, legible.2.1, trimmed_join legible.2.2 trimmed filled⟩
  | extension tag value =>
      exact ⟨legible.1, trimmed_join legible.2 trimmed filled⟩

/-- A further line goes to the last text of a tag, if to any. -/
theorem texts_continueWith (tag : Tag) (more : Text) :
    (tag.continueWith more).texts = tag.texts ∨
      ∃ front last, tag.texts = front ++ [last] ∧
        (tag.continueWith more).texts = front ++ [join last more] := by
  cases tag with
  | kind _ => exact .inl rfl
  | name _ => exact .inl rfl
  | implements _ => exact .inl rfl
  | returns value => exact .inr ⟨[], value, rfl, rfl⟩
  | parameter it =>
      exact .inr ⟨it.type.toList ++ it.name :: it.default.toList,
        it.description, by simp [texts, Parameter.texts],
        by simp [texts, Parameter.texts, Tag.continueWith]⟩
  | property it =>
      exact .inr ⟨it.type.toList ++ [it.name], it.description,
        by simp [texts, Parameter.texts, Property.parameter],
        by simp [texts, Parameter.texts, Property.parameter, Tag.continueWith]⟩
  | modifier it => exact .inr ⟨[it.name], it.description, rfl, rfl⟩
  | extension tag value => exact .inr ⟨[tag], value, rfl, rfl⟩

private theorem forall_texts_continueWith {property : Text → Prop}
    (inherited : Text.Inherited property) {tag : Tag}
    (held : ∀ text ∈ tag.texts, property text) {more : Text}
    (heldMore : property more) : ∀ text ∈ (tag.continueWith more).texts,
    property text := by
  rcases texts_continueWith tag more with same | ⟨front, last, before, after⟩
  · rwa [same]
  · rw [before, List.forall_mem_append, List.forall_mem_singleton] at held
    rw [after, List.forall_mem_append, List.forall_mem_singleton, join]
    refine ⟨held.1, ?_⟩
    split
    · exact heldMore
    · exact inherited.joined held.2 heldMore

theorem Legible.foldl_continueWith {tag : Tag} (legible : tag.Legible)
    {lines : List Text} (trimmed : ∀ line ∈ lines, Text.Trimmed line)
    (filled : ∀ line ∈ lines, line ≠ []) :
    (lines.foldl Tag.continueWith tag).Legible := by
  induction lines generalizing tag with
  | nil => exact legible
  | cons line rest ih =>
      rw [List.forall_mem_cons] at trimmed filled
      exact ih (legible.continueWith trimmed.1 filled.1) trimmed.2 filled.2

theorem forall_texts_foldl_continueWith {property : Text → Prop}
    (inherited : Text.Inherited property) {tag : Tag}
    (held : ∀ text ∈ tag.texts, property text) {lines : List Text}
    (heldLines : ∀ line ∈ lines, property line) :
    ∀ text ∈ (lines.foldl Tag.continueWith tag).texts, property text := by
  induction lines generalizing tag with
  | nil => exact held
  | cons line rest ih =>
      rw [List.forall_mem_cons] at heldLines
      exact ih (forall_texts_continueWith inherited held heldLines.1)
        heldLines.2

/-! ## Canonical tags -/

/-- The line of a tag ends with the text of the tag, or with its name if it has
no text. -/
theorem suffix_line (tag : Tag) :
    tag.parts.2 <:+ tag.line ∧
      (tag.parts.2 = [] → tag.parts.1 <:+ tag.line) := by
  rw [line, tagLine]
  split
  · rename_i empty
    rw [List.isEmpty_iff.mp empty]
    exact ⟨List.nil_suffix, fun _ => List.suffix_cons '@' tag.parts.1⟩
  · rename_i filled
    refine ⟨?_, fun empty => (filled (List.isEmpty_iff.mpr empty)).elim⟩
    exact (List.suffix_cons ' ' tag.parts.2).trans (List.suffix_append _ _)

theorem suffix_descriptionText (front description : Text) :
    description <:+ front ++ descriptionText description := by
  refine List.IsSuffix.trans ?_ (List.suffix_append front _)
  cases description with
  | nil => exact List.suffix_refl []
  | cons c rest => exact List.suffix_append [' ', '-', ' '] (c :: rest)

theorem suffix_memberText (it : Parameter) : it.description <:+ memberText it :=
  (suffix_descriptionText it.nameText it.description).trans
    (List.suffix_append _ _)

theorem Legible.canonical {tag : Tag} (legible : tag.Legible)
    (expressible : tag.Expressible) (oneLine : ∀ text ∈ tag.texts, '\n' ∉ text)
    (notClosing : Text.endsWith ['*', '/'] tag.line = false) :
    tag.Canonical := by
  obtain ⟨textEnds, nameEnds⟩ := suffix_line tag
  have unclosed : ∀ {last : Text}, last <:+ tag.line →
      Text.endsWith ['*', '/'] last = false := by
    intro last ends
    rw [← Bool.not_eq_true, Text.endsWith_iff] at notClosing ⊢
    exact fun closing => notClosing (closing.trans ends)
  cases tag with
  | kind _ => trivial
  | name word => exact ⟨legible.1, legible.2, unclosed textEnds⟩
  | implements word =>
      exact ⟨⟨expressible, legible.1, unclosed textEnds⟩, legible.2⟩
  | returns value =>
      exact ⟨legible.1, legible.2, oneLine value List.mem_cons_self,
        unclosed textEnds⟩
  | parameter it =>
      have legible : it.Legible := legible
      exact legible.canonical oneLine expressible
        (unclosed ((suffix_memberText it).trans textEnds))
  | property it =>
      have legible : it.parameter.Legible := legible
      exact legible.canonical oneLine nofun
        (unclosed ((suffix_memberText it.parameter).trans textEnds))
  | modifier it =>
      obtain ⟨isName, undashed, trimmed⟩ := legible
      exact ⟨isName, undashed, trimmed,
        oneLine it.description (by simp [texts]),
        unclosed
          ((suffix_descriptionText it.name it.description).trans textEnds)⟩
  | extension tag value =>
      refine ⟨legible.1,
        ⟨legible.2, oneLine value (by simp [texts]), unclosed textEnds⟩, ?_⟩
      exact fun empty => unclosed (nameEnds empty)

/-! ## Expressible tags -/

/-- A bracket ends at the first closing sign. -/
theorem unclosed_takeNamePart {text : Text}
    (begins : Text.beginsWith ['['] text = true) {part : NamePart}
    (taken : takeNamePart text = .ok part) :
    part.optional = true ∧ ']' ∉ part.text := by
  rw [takeNamePart, if_pos begins] at taken
  split at taken
  · cases taken
  · rename_i inner behind found
    cases taken
    exact ⟨rfl, (Text.splitFirst?_beq_iff.mp found).2⟩

private theorem enclosed_member_of_optional {it other : Parameter}
    (legible : it.Legible) (optional : it.optional = true)
    (read : member (memberText it) = .ok other) :
    ∀ value ∈ other.default, ']' ∉ value := by
  rw [member] at read
  obtain ⟨⟨type, named⟩, typed, read⟩ := exists_ok_of_bind read
  obtain ⟨part, taken, read⟩ := exists_ok_of_bind read
  obtain ⟨⟨raw, joined⟩, cut, read⟩ := exists_ok_of_bind read
  obtain ⟨name, -, read⟩ := exists_ok_of_bind read
  have begins : Text.beginsWith ['['] named = true := by
    rw [takeType_memberText legible] at typed
    cases typed
    rw [nameText_of_optional optional]
    simp [Text.beginsWith, Text.dropFront?]
  obtain ⟨bracketed, unclosed⟩ := unclosed_takeNamePart begins taken
  simp only [bracketed, Bool.not_true, Bool.and_false, Bool.false_eq_true,
    if_false] at read
  cases read
  intro value given closing
  have isJoined : value ∈ joined := by
    cases joined <;> exact given
  have inPart := (splitDefault_inTurn cut).2.isInfix value
    (by simp [Option.mem_def.mp isJoined])
  exact unclosed (inPart.subset closing)

/-- What is read from the line of a tag that was read is written so that it can
be read. -/
theorem expressible_of_parse_line {tag other : Tag} (legible : tag.Legible)
    (read : parse tag.line = .ok other) : other.Expressible := by
  rw [legible.parse_line] at read
  cases tag with
  | kind it =>
      obtain ⟨kind, -, rfl⟩ := exists_ok_of_map read
      trivial
  | name word =>
      obtain ⟨kind, -, rfl⟩ := exists_ok_of_map read
      trivial
  | implements word =>
      obtain ⟨single, isSingle, rfl⟩ := exists_ok_of_map read
      have filled : word ≠ [] := by
        rintro rfl
        cases isSingle
      have same :=
        (singleWord_of_blankFree _ filled legible.1).symm.trans isSingle
      obtain rfl := Except.ok.inj same
      change word.dropWhile (· == '.') ≠ []
      rwa [dropWhile_dot legible.2]
  | returns value =>
      rw [ofParts_parts legible trivial] at read
      cases read
      trivial
  | parameter it =>
      obtain ⟨parameter, isMember, rfl⟩ := exists_ok_of_map read
      cases optional : it.optional with
      | true => exact enclosed_member_of_optional legible optional isMember
      | false =>
          have noDefault : ∀ value ∈ it.default, ']' ∉ value := by
            intro value given
            rw [legible.optional (Option.isSome_of_mem given)] at optional
            cases optional
          have same := (member_memberText legible noDefault).symm.trans isMember
          obtain rfl := Except.ok.inj same
          exact noDefault
  | property it =>
      obtain ⟨property, -, rfl⟩ := exists_ok_of_map read
      trivial
  | modifier it =>
      obtain ⟨modifier, -, rfl⟩ := exists_ok_of_map read
      trivial
  | extension key value =>
      rw [ofParts_parts legible trivial] at read
      cases read
      trivial

theorem expressible_foldl_continueWith (tag : Tag) (lines : List Text) :
    (lines.foldl continueWith tag).Expressible ↔ tag.Expressible := by
  induction lines generalizing tag with
  | nil => exact Iff.rfl
  | cons line rest ih =>
      rw [List.foldl_cons, ih]
      cases tag <;> exact Iff.rfl

end Tag

end Doc

end StyleAudit
