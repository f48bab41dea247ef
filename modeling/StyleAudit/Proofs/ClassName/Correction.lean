import StyleAudit.Proofs.ClassName.Row

/-!
# Corrected class names

The name that is offered for one with malformed segments is put together from
corrected segments and then read again from its text.  Correcting an underscore
beside a hyphen makes two hyphens meet, and there the text is cut once more.  A
segment behind such a cut may begin with a hyphen or a digit, and so may the
block if a single letter in front of the first hyphen is taken for a type
prefix.
-/

namespace StyleAudit

/-! ## Segments -/

namespace Segment

theorem isValid_join {segments : List Text} (nonempty : segments ≠ [])
    (valid : ∀ segment ∈ segments, isValid segment = true) :
    isValid (Text.join ['-', '-'] segments) = true := by
  fun_induction Text.join ['-', '-'] segments with
  | case1 => exact (nonempty rfl).elim
  | case2 segment => exact valid segment List.mem_cons_self
  | case3 segment next segments ih =>
      have later := ih (List.cons_ne_nil _ _) fun other member =>
        valid other (List.mem_cons_of_mem _ member)
      rw [List.append_assoc]
      exact isValid_append_append (valid segment List.mem_cons_self) later rfl

/-- A letter is the only character of segments that a segment may begin with. -/
theorem isLower_eq_false_iff {c : Char} (char : isChar c = true) :
    c.isLower = false ↔ c = '-' ∨ c.isDigit = true := by
  have noLetter : '-'.isLower = false := by decide
  have digit : c.isDigit = true → c.isLower = false := by
    intro isDigit
    rw [← Bool.not_eq_true, isLower_iff]
    rintro ⟨low, -⟩
    have high : c ≤ '9' :=
      of_decide_eq_true ((Bool.and_eq_true _ _).mp isDigit).2
    exact absurd (UInt32.le_trans low high) (by decide)
  constructor
  · intro other
    simp only [isChar, other, Bool.false_or, Bool.or_eq_true, beq_iff_eq]
      at char
    exact char.symm
  · rintro (rfl | isDigit)
    · exact noLetter
    · exact digit isDigit

/-- The pieces of a well-formed text are well formed just if a letter stands
behind each two hyphens. -/
theorem forall_splitOnDouble_isValid_iff {text : Text}
    (valid : isValid text = true) :
    (∀ piece ∈ Text.splitOnDouble '-' text, isValid piece = true) ↔
      ∀ c, ['-', '-', c] <:+: text → c.isLower = true := by
  obtain ⟨⟨first, rest, rfl, letter⟩, notLast, chars⟩ := isValid_iff.mp valid
  have other : first ≠ '-' := by
    rintro rfl
    revert letter
    decide
  obtain ⟨piece, pieces, filled⟩ := Text.exists_splitOnDouble_eq_cons '-' rest
  have cut : Text.splitOnDouble '-' (first :: rest) =
      (first :: piece) :: pieces := by
    rw [Text.splitOnDouble_cons_of_ne other, filled]
    rfl
  have begins :=
    @Text.forall_tail_splitOnDouble_iff '-' Char.isLower (by decide) _ notLast
  rw [cut, List.tail_cons] at begins
  rw [← begins, cut, List.forall_mem_cons]
  constructor
  · intro allValid other member
    have otherValid := allValid.2 other member
    rw [isValid, Bool.and_eq_true, Bool.and_eq_true] at otherValid
    exact otherValid.1.1
  · intro pieceBegins
    have parts : ∀ part ∈ (first :: piece) :: pieces,
        ¬ ['-'] <:+ part ∧ ∀ c ∈ part,
          ('a' ≤ c ∧ c ≤ 'z') ∨ ('0' ≤ c ∧ c ≤ '9') ∨ c = '-' := by
      intro part member
      rw [← cut] at member
      have inside := Text.isInfix_of_mem_splitOnDouble member
      exact ⟨Text.not_isSuffix_of_mem_splitOnDouble notLast member,
        fun c inPart => chars c (inside.subset inPart)⟩
    constructor
    · exact isValid_iff.mpr
        ⟨⟨first, piece, rfl, letter⟩, parts _ List.mem_cons_self⟩
    · intro part member
      refine isValid_iff.mpr ⟨?_, parts part (List.mem_cons_of_mem _ member)⟩
      have partBegins := pieceBegins part member
      cases part with
      | nil => cases partBegins
      | cons c more => exact ⟨c, more, rfl, isLower_iff.mp partBegins⟩

/-! ### Correcting -/

private theorem toLower_eq_hyphen_iff {c : Char} : c.toLower = '-' ↔
    c = '-' := by
  unfold Char.toLower
  split
  · rename_i upper
    have low : 65 ≤ c.val.toNat := UInt32.le_iff_toNat_le.mp upper.1
    have high : c.val.toNat ≤ 90 := UInt32.le_iff_toNat_le.mp upper.2
    have lowered : (c.val + ('a'.val - 'A'.val)).toNat = c.val.toNat + 32 := by
      have step : ('a'.val - 'A'.val).toNat = 32 := rfl
      rw [UInt32.toNat_add, step]
      exact Nat.mod_eq_of_lt (by omega)
    have hyphen : '-'.val.toNat = 45 := rfl
    rw [Char.ext_iff, Char.ext_iff, ← UInt32.toNat_inj, ← UInt32.toNat_inj,
      lowered, hyphen]
    omega
  · exact Iff.rfl

theorem correctChar_eq_hyphen_iff {c : Char} : correctChar c = '-' ↔ c = '-' ∨
    c = '_' := by
  rw [correctChar]
  split
  · rename_i underscore
    exact iff_of_true rfl (.inr underscore)
  · rename_i noUnderscore
    rw [or_iff_left noUnderscore]
    split
    · rename_i kelvin
      refine iff_of_false (by decide) ?_
      rintro rfl
      revert kelvin
      decide
    · exact toLower_eq_hyphen_iff

theorem correct_append (front back : Text) :
    correct (front ++ back) = correct front ++ correct back :=
  List.map_append

/-- A text that can be corrected neither begins nor ends with what becomes a
hyphen. -/
theorem not_at_ends_of_isValid_correct {text : Text}
    (valid : isValid (correct text) = true) {c : Char}
    (hyphen : correctChar c = '-') :
    text ≠ [] ∧ ¬ [c] <:+ text ∧ ¬ [c] <+: text := by
  obtain ⟨⟨d, rest, begins, letter⟩, notLast, -⟩ := isValid_iff.mp valid
  refine ⟨?_, ?_, ?_⟩
  · rintro rfl
    cases begins
  · intro ends
    apply notLast
    rw [← hyphen]
    exact ends.map correctChar
  · intro starts
    have front : [correctChar c] <+: correct text := starts.map correctChar
    rw [begins, hyphen] at front
    rw [← (List.cons_prefix_cons.mp front).1] at letter
    revert letter
    decide

/-- Correcting makes two hyphens meet just where an underscore stands beside a
hyphen. -/
theorem undoubled_correct_iff {segment : Text}
    (hyphens : Text.Undoubled '-' segment)
    (underscores : Text.Undoubled '_' segment) :
    Text.Undoubled '-' (correct segment) ↔
      ¬ (['_', '-'] <:+: segment ∨ ['-', '_'] <:+: segment) := by
  apply not_congr
  constructor
  · intro doubled
    obtain ⟨pair, inside, same⟩ := List.infix_map_iff.mp doubled
    match pair with
    | [] | [_] | _ :: _ :: _ :: _ => simp at same
    | [a, b] =>
        simp only [List.map_cons, List.map_nil, List.cons.injEq, and_true]
          at same
        rcases correctChar_eq_hyphen_iff.mp same.1.symm with rfl | rfl
        · rcases correctChar_eq_hyphen_iff.mp same.2.symm with rfl | rfl
          · exact (hyphens inside).elim
          · exact .inr inside
        · rcases correctChar_eq_hyphen_iff.mp same.2.symm with rfl | rfl
          · exact .inl inside
          · exact (underscores inside).elim
  · rintro (inside | inside)
    · exact inside.map correctChar
    · exact inside.map correctChar

end Segment

/-! ## Rows of corrected elements -/

namespace Element

theorem text_mapSegments (element : Element) :
    (element.mapSegments Segment.correct).text =
      Segment.correct element.text := by
  have modifiers : modifierText (element.modifiers.map Segment.correct) =
      Segment.correct (modifierText element.modifiers) := by
    rw [modifierText, List.flatMap_map, Segment.correct, modifierText,
      List.map_flatMap]
    rfl
  rw [text, text, Segment.correct_append, ← modifiers]
  rfl

theorem segments_mapSegments_ofText (text : Text) :
    ((ofText text).mapSegments Segment.correct).segments =
      (Text.splitOnDouble '-' text).map Segment.correct := by
  rw [← segments_ofText]
  rfl

private theorem length_modifiers_ofText (text : Text) :
    (ofText text).modifiers.length + 1 =
      (Text.splitOnDouble '-' text).length := by
  rw [← segments_ofText, segments, List.length_cons]

/-- An element whose segments are well formed keeps its number of modifiers just
if its segments hold no two hyphens in a row. -/
theorem length_modifiers_ofText_text_iff {element : Element}
    (valid : ∀ segment ∈ element.segments, Segment.isValid segment = true) :
    (ofText element.text).modifiers.length = element.modifiers.length ↔
      ∀ segment ∈ element.segments, Text.Undoubled '-' segment := by
  have cut : Text.splitOnDouble '-' element.text =
      element.segments.flatMap (Text.splitOnDouble '-') := by
    rw [text_eq_join]
    apply Text.splitOnDouble_join_eq_flatMap (List.cons_ne_nil _ _)
    intro segment member
    exact (Segment.isValid_iff.mp
      (valid segment (List.dropLast_subset _ member))).2.1
  have count := length_modifiers_ofText element.text
  have segments : element.segments.length = element.modifiers.length + 1 := rfl
  rw [← (Text.length_flatMap_splitOnDouble element.segments).2, ← cut,
    ← count, segments]
  omega

end Element

namespace ClassName

/-- The name has an underscore beside a hyphen. -/
def Touching (name : Text) : Prop :=
  ['_', '-'] <:+: name ∨ ['-', '_'] <:+: name

/-- Two hyphens stand in front of a third one or of a digit, or the second
character is a hyphen and the third a digit. -/
def Misdivided (name : Text) : Prop :=
  (∃ c, (c = '-' ∨ c.isDigit = true) ∧ ['-', '-', c] <:+: name) ∨
    ∃ first digit rest, name = first :: '-' :: digit :: rest ∧
      digit.isDigit = true

/-- The class names have as many elements, and block and elements have as many
modifiers. -/
structure SameShape (left right : ClassName) : Prop where
  modifiers : left.modifiers.length = right.modifiers.length
  elements : left.elements.map (·.modifiers.length) =
    right.elements.map (·.modifiers.length)

theorem sameShape_iff_row {left right : ClassName} :
    SameShape left right ↔
      left.row.map (·.modifiers.length) =
        right.row.map (·.modifiers.length) := by
  rw [row, row, List.map_cons, List.map_cons, List.cons.injEq]
  exact ⟨fun same => ⟨same.modifiers, same.elements⟩,
    fun same => ⟨same.1, same.2⟩⟩

/-- Mapping the segments leaves the shape alone. -/
theorem sameShape_mapSegments_iff {left right : ClassName} {f : Text → Text} :
    SameShape left (right.mapSegments f) ↔ SameShape left right := by
  constructor
  · rintro ⟨modifiers, elements⟩
    constructor
    · simpa [mapSegments] using modifiers
    · simpa [mapSegments, Element.mapSegments, Function.comp_def] using elements
  · rintro ⟨modifiers, elements⟩
    constructor
    · simpa [mapSegments] using modifiers
    · simpa [mapSegments, Element.mapSegments, Function.comp_def] using elements

theorem row_mapSegments (name : ClassName) :
    (name.mapSegments Segment.correct).row =
      name.row.map (·.mapSegments Segment.correct) := by
  have hyphens : ∀ part, hyphenated (part.map Segment.correct) =
      Segment.correct (hyphenated part) := by
    intro part
    cases part with
    | none => rfl
    | some part =>
        rw [hyphenated, Segment.correct_append]
        rfl
  rw [row, row, List.map_cons, head, head, Element.mapSegments,
    Segment.correct_append, Segment.correct_append, ← hyphens, ← hyphens]
  rfl

theorem isValid_hyphenated_append {part : Option Text} {text : Text}
    (partValid : ∀ segment, part = some segment →
      Segment.isValid segment = true)
    (textValid : Segment.isValid text = true) :
    Segment.isValid (hyphenated part ++ text) = true := by
  cases part with
  | none => exact textValid
  | some part =>
      rw [hyphenated, List.append_assoc]
      exact Segment.isValid_append (partValid part rfl) textValid

/-- The segments of the row are well formed if those of the name are. -/
theorem isValid_of_mem_row {name : ClassName}
    (valid : ∀ segment ∈ name.segments, Segment.isValid segment = true) :
    ∀ element ∈ name.row, ∀ segment ∈ element.segments,
      Segment.isValid segment = true := by
  simp only [segments, List.forall_mem_append, List.forall_mem_cons,
    Option.mem_toList] at valid
  obtain ⟨⟨⟨typePrefix, scope⟩, block, modifiers⟩, elements⟩ := valid
  intro element member segment inElement
  rcases List.mem_cons.mp member with rfl | isElement
  · rcases List.mem_cons.mp inElement with rfl | isModifier
    · rw [head, List.append_assoc]
      exact isValid_hyphenated_append typePrefix
        (isValid_hyphenated_append scope block)
    · exact modifiers segment isModifier
  · exact elements segment
      (List.mem_flatMap.mpr ⟨element, isElement, inElement⟩)

section Corrected

variable {name : ClassName}

theorem isValid_text_of_mem_row
    (valid : ∀ segment ∈ name.segments, Segment.isValid segment = true)
    {element : Element} (member : element ∈ name.row) :
    Segment.isValid element.text = true := by
  rw [Element.text_eq_join]
  exact Segment.isValid_join (List.cons_ne_nil _ _)
    (isValid_of_mem_row valid element member)

/-- A name with well-formed segments is cut into its row. -/
theorem splitOnDouble_text
    (valid : ∀ segment ∈ name.segments, Segment.isValid segment = true) :
    Text.splitOnDouble '_' name.text = name.row.map Element.text := by
  rw [text_eq_join]
  apply Text.splitOnDouble_join (by simp [row])
  intro piece member
  obtain ⟨element, inRow, rfl⟩ := List.mem_map.mp member
  exact Text.cuttable_of_not_mem
    (Segment.not_mem_underscore_of_isValid
      (isValid_text_of_mem_row valid inRow))

theorem not_isPrefix_dot_text
    (valid : ∀ segment ∈ name.segments, Segment.isValid segment = true) :
    ¬ ['.'] <+: name.text := by
  obtain ⟨⟨c, rest, written, letter⟩, -, -⟩ := Segment.isValid_iff.mp
    (isValid_text_of_mem_row valid
      (List.mem_cons_self (a := name.head) (l := name.elements)))
  rw [text_eq_join, row, List.map_cons, Text.join_cons_eq_flatMap, written]
  intro dotted
  rw [← (List.cons_prefix_cons.mp dotted).1] at letter
  revert letter
  decide

/-- Read again, a name with well-formed segments has its shape just if no
segment holds two hyphens in a row. -/
theorem sameShape_parse_text_iff (settings : Settings)
    (valid : ∀ segment ∈ name.segments, Segment.isValid segment = true) :
    SameShape (parse settings name.text) name ↔
      ∀ element ∈ name.row, ∀ segment ∈ element.segments,
        Text.Undoubled '-' segment := by
  rw [sameShape_iff_row, row_parse,
    dropDot_of_undotted (not_isPrefix_dot_text valid),
    splitOnDouble_text valid, List.map_map, List.map_map, List.map_inj_left]
  refine forall_congr' fun element => forall_congr' fun member => ?_
  exact Element.length_modifiers_ofText_text_iff
    (isValid_of_mem_row valid element member)

end Corrected

/-! ## How the shape of a name changes -/

section Shape

variable {settings : Settings} {name : Text}

/-- A pair of an underscore and a hyphen stands inside of a segment if all
segments can be corrected. -/
theorem exists_segment_of_pair {a b : Char} (different : a ≠ b)
    (first : Segment.correctChar a = '-') (second : Segment.correctChar b = '-')
    (valid : ∀ piece ∈ Text.splitOnDouble '_' name,
      Segment.isValid (Segment.correct piece) = true ∧
        ∀ segment ∈ Text.splitOnDouble '-' piece,
          Segment.isValid (Segment.correct segment) = true)
    (inside : [a, b] <:+: name) :
    ∃ piece ∈ Text.splitOnDouble '_' name,
      ∃ segment ∈ Text.splitOnDouble '-' piece, [a, b] <:+: segment := by
  have firm : ∀ {text : Text}, Segment.isValid (Segment.correct text) = true →
      text ≠ [] ∧ ¬ [a] <:+ text ∧ ¬ [b] <+: text := fun textValid =>
    ⟨(Segment.not_at_ends_of_isValid_correct textValid first).1,
      (Segment.not_at_ends_of_isValid_correct textValid first).2.1,
      (Segment.not_at_ends_of_isValid_correct textValid second).2.2⟩
  rw [← Text.join_splitOnDouble '_' name] at inside
  obtain ⟨piece, isPiece, inPiece⟩ := Text.exists_of_pair_isInfix_join different
    (fun piece member => (firm (valid piece member).1).1)
    (fun piece member => (firm (valid piece member).1).2.1)
    (fun piece member => (firm (valid piece member).1).2.2) inside
  rw [← Text.join_splitOnDouble '-' piece] at inPiece
  obtain ⟨segment, isSegment, inSegment⟩ :=
    Text.exists_of_pair_isInfix_join different
      (fun segment member => (firm ((valid piece isPiece).2 segment member)).1)
    (fun segment member => (firm ((valid piece isPiece).2 segment member)).2.1)
    (fun segment member => (firm ((valid piece isPiece).2 segment member)).2.2)
    inPiece
  exact ⟨piece, isPiece, segment, isSegment, inSegment⟩

private theorem undoubled_correct_segments_iff
    (valid : ∀ piece ∈ Text.splitOnDouble '_' name,
      Segment.isValid (Segment.correct piece) = true ∧
        ∀ segment ∈ Text.splitOnDouble '-' piece,
          Segment.isValid (Segment.correct segment) = true) :
    (∀ piece ∈ Text.splitOnDouble '_' name,
      ∀ segment ∈ Text.splitOnDouble '-' piece,
        Text.Undoubled '-' (Segment.correct segment)) ↔ ¬ Touching name := by
  have exactly : ∀ piece ∈ Text.splitOnDouble '_' name,
      ∀ segment ∈ Text.splitOnDouble '-' piece,
        (Text.Undoubled '-' (Segment.correct segment) ↔
          ¬ Touching segment) := by
    intro piece isPiece segment isSegment
    apply Segment.undoubled_correct_iff
      (Text.undoubled_of_mem_splitOnDouble isSegment)
    exact (Text.undoubled_of_mem_splitOnDouble isPiece).of_isInfix
      (Text.isInfix_of_mem_splitOnDouble isSegment)
  constructor
  · rintro undoubled (inside | inside)
    · obtain ⟨piece, isPiece, segment, isSegment, found⟩ :=
        exists_segment_of_pair (by decide) rfl rfl valid inside
      exact (exactly piece isPiece segment isSegment).mp
        (undoubled piece isPiece segment isSegment) (.inl found)
    · obtain ⟨piece, isPiece, segment, isSegment, found⟩ :=
        exists_segment_of_pair (by decide) rfl rfl valid inside
      exact (exactly piece isPiece segment isSegment).mp
        (undoubled piece isPiece segment isSegment) (.inr found)
  · intro apart piece isPiece segment isSegment
    apply (exactly piece isPiece segment isSegment).mpr
    have inside : segment <:+: name :=
      (Text.isInfix_of_mem_splitOnDouble isSegment).trans
        (Text.isInfix_of_mem_splitOnDouble isPiece)
    rintro (found | found)
    · exact apart (.inl (found.trans inside))
    · exact apart (.inr (found.trans inside))

/-- A corrected name has the shape of the name just if no underscore of the name
stands beside a hyphen. -/
theorem sameShape_parse_corrected_iff (undotted : ¬ ['.'] <+: name)
    (valid :
      ∀ segment ∈ ((parse settings name).mapSegments Segment.correct).segments,
      Segment.isValid segment = true) :
    SameShape
      (parse settings ((parse settings name).mapSegments Segment.correct).text)
        (parse settings name) ↔ ¬ Touching name := by
  have corrected : ((parse settings name).mapSegments Segment.correct).row =
      (Text.splitOnDouble '_' name).map fun piece =>
        (Element.ofText piece).mapSegments Segment.correct := by
    rw [row_mapSegments, row_parse, dropDot_of_undotted undotted, List.map_map]
    rfl
  have inRow : ∀ piece ∈ Text.splitOnDouble '_' name,
      (Element.ofText piece).mapSegments Segment.correct ∈
        ((parse settings name).mapSegments Segment.correct).row := by
    intro piece member
    rw [corrected]
    exact List.mem_map_of_mem member
  rw [← sameShape_mapSegments_iff, sameShape_parse_text_iff settings valid,
    ← undoubled_correct_segments_iff, corrected]
  · simp [Element.segments_mapSegments_ofText]
  · intro piece member
    constructor
    · rw [← Element.text_ofText piece, ← Element.text_mapSegments]
      exact isValid_text_of_mem_row valid (inRow piece member)
    · intro segment isSegment
      apply isValid_of_mem_row valid _ (inRow piece member)
      rw [Element.segments_mapSegments_ofText]
      exact List.mem_map_of_mem isSegment

end Shape

/-! ## Where a corrected name is malformed again -/

section Malformed

theorem splitScope_default (text : Text) :
    splitScope {} text = (none, text) := by
  rw [splitScope]
  split <;> rfl

theorem isAlpha_of_isLower {c : Char} (lower : c.isLower = true) :
    c.isAlpha = true := by
  unfold Char.isAlpha
  rw [lower, Bool.or_true]

private theorem isAlpha_of_toLower {c : Char}
    (lower : c.toLower.isLower = true) : c.isAlpha = true := by
  unfold Char.toLower at lower
  split at lower
  · rename_i upper
    have isUpper : c.isUpper = true := decide_eq_true upper
    unfold Char.isAlpha
    rw [isUpper, Bool.true_or]
  · exact isAlpha_of_isLower lower

/-- Under the default settings a type prefix is a single letter. -/
theorem exists_letter_of_accepted {front : Text}
    (accepted : (({} : Settings).allows (lowerAscii front) ||
      isSingleLetter front) = true) :
    ∃ letter, front = [letter] ∧ letter.isAlpha = true := by
  rcases (Bool.or_eq_true _ _).mp accepted with allowed | single
  · have known : lowerAscii front = ['c'] ∨ lowerAscii front = ['u'] := by
      simpa [Settings.allows] using allowed
    obtain ⟨lower, written, isLower⟩ : ∃ lower, lowerAscii front = [lower] ∧
        lower.isLower = true := by
      rcases known with same | same
      · exact ⟨'c', same, rfl⟩
      · exact ⟨'u', same, rfl⟩
    obtain ⟨letter, rfl, rfl⟩ := List.map_eq_singleton_iff.mp written
    exact ⟨letter, rfl, isAlpha_of_toLower isLower⟩
  · unfold isSingleLetter at single
    split at single
    · exact ⟨_, rfl, single⟩
    · cases single

theorem splitFirst?_hyphen {first : Char} (other : first ≠ '-') (rest : Text) :
    Text.splitFirst? (· == '-') (first :: '-' :: rest) = some ([first], rest) :=
  Text.splitFirst?_beq_iff.mpr ⟨rfl, by simpa using Ne.symm other⟩

/-- What stands behind a hyphen of a segment is well formed unless it begins
with a digit. -/
theorem isValid_rest_iff {front rest : Text}
    (segment : Segment.IsSegment (front ++ '-' :: rest)) :
    Segment.isValid rest = true ↔
      ¬ ∃ digit more, rest = digit :: more ∧ digit.isDigit = true := by
  have behind : '-' :: rest <:+ front ++ '-' :: rest := List.suffix_append _ _
  have notLast : ¬ ['-'] <:+ rest := fun ends =>
    segment.notLast (ends.trans ((List.suffix_cons '-' rest).trans behind))
  cases rest with
  | nil => exact (segment.notLast behind).elim
  | cons d more =>
      have chars : ∀ c ∈ d :: more,
          ('a' ≤ c ∧ c ≤ 'z') ∨ ('0' ≤ c ∧ c ≤ '9') ∨ c = '-' := fun c member =>
        segment.chars c (behind.subset (List.mem_cons_of_mem _ member))
      have isChar := Segment.isChar_iff.mpr (chars d List.mem_cons_self)
      have other : d ≠ '-' := by
        rintro rfl
        exact segment.undoubled ⟨front, more, by simp⟩
      have letter : Segment.isValid (d :: more) = true ↔ d.isLower = true := by
        rw [Segment.isValid_iff, Segment.isLower_iff]
        constructor
        · rintro ⟨⟨c, others, same, letter⟩, -⟩
          rwa [(List.cons.inj same).1]
        · intro letter
          exact ⟨⟨d, more, rfl, letter⟩, notLast, chars⟩
      rw [letter, ← Bool.not_eq_false, Segment.isLower_eq_false_iff isChar,
        or_iff_right other]
      constructor
      · rintro noDigit ⟨digit, others, same, isDigit⟩
        rw [← (List.cons.inj same).1] at isDigit
        exact noDigit isDigit
      · exact fun noDigit isDigit => noDigit ⟨d, more, rfl, isDigit⟩

/-- The parts of the head of a name under the default settings are well formed
unless a digit stands behind what is taken for a type prefix. -/
theorem splitPrefix_default_isValid_iff {name : Text}
    (segment : Segment.IsSegment name) :
    ((∀ typePrefix ∈ (splitPrefix {} name).1,
      Segment.isValid typePrefix = true) ∧
        Segment.isValid (splitPrefix {} name).2 = true) ↔
      ¬ ∃ first digit rest, name = first :: '-' :: digit :: rest ∧
        digit.isDigit = true := by
  obtain ⟨letter, more, begins, low, high⟩ := segment.first
  have single : ∀ {first rest}, name = first :: '-' :: rest →
      isSingleLetter [first] = true ∧
        Text.splitFirst? (· == '-') name = some ([first], rest) := by
    rintro first rest rfl
    obtain ⟨rfl, -⟩ := List.cons.inj begins
    have notHyphen : first ≠ '-' := by
      rintro rfl
      revert low
      decide
    constructor
    · exact isAlpha_of_isLower (Segment.isLower_iff.mpr ⟨low, high⟩)
    · exact splitFirst?_hyphen notHyphen rest
  rw [splitPrefix]
  split
  · rename_i missing
    refine iff_of_true ⟨by simp, segment.isValid⟩ ?_
    rintro ⟨first, digit, rest, written, -⟩
    rw [(single written).2] at missing
    cases missing
  · rename_i front rest found
    obtain ⟨rfl, whole⟩ := Text.splitFirst?_beq_iff.mp found
    split
    · rename_i accepted
      obtain ⟨first, rfl, -⟩ := exists_letter_of_accepted accepted
      have frontValid := isValid_front segment whole
      simp only [Option.mem_def, Option.some.injEq, forall_eq',
        frontValid, true_and]
      rw [isValid_rest_iff segment]
      apply not_congr
      constructor
      · rintro ⟨digit, others, rfl, isDigit⟩
        exact ⟨first, digit, others, rfl, isDigit⟩
      · rintro ⟨_, digit, others, written, isDigit⟩
        exact ⟨digit, others, (List.cons.inj (List.cons.inj written).2).2,
          isDigit⟩
    · rename_i refused
      refine iff_of_true ⟨by simp, segment.isValid⟩ ?_
      rintro ⟨first, digit, others, written, -⟩
      obtain ⟨isLetter, divided⟩ := single written
      rw [found] at divided
      obtain ⟨rfl, -⟩ := Prod.mk.inj (Option.some.inj divided)
      rw [isLetter, Bool.or_true] at refused
      exact refused rfl

theorem segments_parse_default {name piece : Text} {pieces : List Text}
    (cut : Text.splitOnDouble '_' (dropDot name) = piece :: pieces) :
    (parse {} name).segments =
      (splitPrefix {} (Element.ofText piece).name).1.toList ++
        (splitPrefix {} (Element.ofText piece).name).2 ::
          (Element.ofText piece).modifiers ++
        (pieces.map Element.ofText).flatMap Element.segments := by
  rcases split : splitPrefix {} (Element.ofText piece).name with
    ⟨typePrefix, rest⟩
  cases typePrefix with
  | none =>
      rw [parse_of_untyped cut split]
      rfl
  | some front =>
      rw [parse_of_typed cut split, splitScope_default]
      rfl

/-- Two hyphens in front of something other than a letter stand in one of the
pieces. -/
theorem forall_pieces_isValid_iff {name : Text}
    (valid : ∀ piece ∈ Text.splitOnDouble '_' name,
      Segment.isValid piece = true) :
    (∀ piece ∈ Text.splitOnDouble '_' name,
      ∀ segment ∈ Text.splitOnDouble '-' piece,
        Segment.isValid segment = true) ↔
      ¬ ∃ c, (c = '-' ∨ c.isDigit = true) ∧ ['-', '-', c] <:+: name := by
  have exactly : ∀ piece ∈ Text.splitOnDouble '_' name,
      ∀ c, ['-', '-', c] <:+: piece →
      (c.isLower = false ↔ c = '-' ∨ c.isDigit = true) := by
    intro piece member c inside
    apply Segment.isLower_eq_false_iff
    rw [Segment.isChar_iff]
    exact (Segment.isValid_iff.mp (valid piece member)).2.2 c
      (inside.subset (by simp))
  constructor
  · rintro allValid ⟨c, stray, inside⟩
    have clean : '_' ∉ ['-', '-', c] := by
      rcases stray with rfl | isDigit
      · decide
      · simp only [List.mem_cons, List.not_mem_nil, or_false, not_or]
        refine ⟨by decide, by decide, ?_⟩
        rintro rfl
        cases isDigit
    rw [← Text.join_splitOnDouble '_' name] at inside
    obtain ⟨piece, member, inPiece⟩ :=
      Text.exists_of_isInfix_join (Text.splitOnDouble_ne_nil name) clean inside
    have letter :=
      (Segment.forall_splitOnDouble_isValid_iff (valid piece member)).mp
        (allValid piece member) c inPiece
    rw [(exactly piece member c inPiece).mpr stray] at letter
    cases letter
  · intro clean piece member
    apply (Segment.forall_splitOnDouble_isValid_iff (valid piece member)).mpr
    intro c inPiece
    rw [← Bool.not_eq_false]
    intro other
    have stray := (exactly piece member c inPiece).mp other
    exact clean
      ⟨c, stray, inPiece.trans (Text.isInfix_of_mem_splitOnDouble member)⟩

/-- A digit behind the first letter and a hyphen stands there in the first
segment too. -/
theorem begins_digit_iff {name piece : Text} {pieces : List Text}
    (cut : Text.splitOnDouble '_' name = piece :: pieces)
    (valid : Segment.isValid piece = true) :
    (∃ first digit rest,
      (Element.ofText piece).name = first :: '-' :: digit :: rest ∧
        digit.isDigit = true) ↔
      ∃ first digit rest, name = first :: '-' :: digit :: rest ∧
        digit.isDigit = true := by
  have segments := Element.segments_ofText piece
  constructor
  · rintro ⟨first, digit, rest, written, isDigit⟩
    obtain ⟨more, whole⟩ := (Text.isPrefix_of_splitOnDouble segments.symm).trans
      (Text.isPrefix_of_splitOnDouble cut)
    rw [written] at whole
    exact ⟨first, digit, rest ++ more, whole.symm, isDigit⟩
  · rintro ⟨first, digit, rest, rfl, isDigit⟩
    have other : ∀ mark, mark.isDigit = false → digit ≠ mark := by
      rintro mark noDigit rfl
      rw [isDigit] at noDigit
      cases noDigit
    obtain ⟨tail, others, filled⟩ := Text.exists_splitOnDouble_eq_cons '_' rest
    rw [Text.splitOnDouble_cons fun both =>
      absurd (List.cons_prefix_cons.mp both.2).1 (by decide),
      Text.splitOnDouble_cons_of_ne (by decide),
      Text.splitOnDouble_cons_of_ne (other '_' rfl), filled] at cut
    obtain ⟨rfl, -⟩ := List.cons.inj cut
    have notHyphen : first ≠ '-' := by
      rintro rfl
      cases valid
    obtain ⟨segmentRest, more, filledRest⟩ :=
      Text.exists_splitOnDouble_eq_cons '-' tail
    rw [Text.splitOnDouble_cons_of_ne notHyphen,
      Text.splitOnDouble_cons fun both =>
        other '-' rfl (List.cons_prefix_cons.mp both.2).1.symm,
      Text.splitOnDouble_cons_of_ne (other '-' rfl), filledRest] at segments
    exact ⟨first, digit, segmentRest, (List.cons.inj segments).1, isDigit⟩

/-- Under the default settings, a name whose pieces between doubled underscores
are well formed has well-formed segments unless it is divided in the wrong
place. -/
theorem isValid_segments_parse_default_iff {name : Text}
    (undotted : ¬ ['.'] <+: name)
    (valid : ∀ piece ∈ Text.splitOnDouble '_' name,
      Segment.isValid piece = true) :
    (∀ segment ∈ (parse {} name).segments, Segment.isValid segment = true) ↔
      ¬ Misdivided name := by
  obtain ⟨piece, pieces, cut⟩ := Text.exists_splitOnDouble_eq_cons '_' name
  have pieceValid : Segment.isValid piece = true :=
    valid piece (cut ▸ List.mem_cons_self)
  have segments := Element.segments_ofText piece
  have undoubled : Text.Undoubled '-' (Element.ofText piece).name := by
    apply @Text.undoubled_of_mem_splitOnDouble '-' piece
    rw [← segments]
    exact List.mem_cons_self
  have inPieces : (∀ piece ∈ Text.splitOnDouble '_' name,
        ∀ segment ∈ Text.splitOnDouble '-' piece,
          Segment.isValid segment = true) ↔
      Segment.isValid (Element.ofText piece).name = true ∧
        (∀ segment ∈ (Element.ofText piece).modifiers,
          Segment.isValid segment = true) ∧
        ∀ segment ∈ (pieces.map Element.ofText).flatMap Element.segments,
          Segment.isValid segment = true := by
    rw [cut, List.forall_mem_cons, ← segments, Element.segments,
      List.forall_mem_cons, and_assoc]
    simp only [List.forall_mem_flatMap, List.forall_mem_map,
      Element.segments_ofText]
  rw [Misdivided, not_or, ← forall_pieces_isValid_iff valid,
    ← begins_digit_iff cut pieceValid, inPieces,
    segments_parse_default (dropDot_of_undotted undotted ▸ cut)]
  simp only [List.forall_mem_append, List.forall_mem_cons, Option.mem_toList]
  constructor
  · rintro ⟨⟨typePrefix, block, modifiers⟩, elements⟩
    have nameValid := isValid_hyphenated_append typePrefix block
    rw [splitPrefix_text] at nameValid
    have segment := Segment.isSegment_iff.mpr ⟨nameValid, undoubled⟩
    exact ⟨⟨nameValid, modifiers, elements⟩,
      (splitPrefix_default_isValid_iff segment).mp ⟨typePrefix, block⟩⟩
  · rintro ⟨⟨nameValid, modifiers, elements⟩, noDigit⟩
    have segment := Segment.isSegment_iff.mpr ⟨nameValid, undoubled⟩
    obtain ⟨typePrefix, block⟩ :=
      (splitPrefix_default_isValid_iff segment).mpr noDigit
    exact ⟨⟨typePrefix, block, modifiers⟩, elements⟩

end Malformed

end ClassName

end StyleAudit
