import StyleAudit.Proofs.ClassName.Correction
import StyleAudit.Proofs.ClassName.Violations

/-!
# What the offered names mend

For a broken rule about the type prefix or the segments of a name, another name
is offered.  Under the default settings, a name with another type prefix never
breaks the rule again.  A name with a type prefix put in front breaks it again
just if it began with a hyphen, and a name with corrected segments may be
divided anew.
-/

namespace StyleAudit

namespace ClassName

/-! ## Type prefixes -/

section TypePrefix

variable {settings : Settings}

theorem typePrefix_parse {name piece : Text} {pieces : List Text}
    (cut : Text.splitOnDouble '_' (dropDot name) = piece :: pieces) :
    (parse settings name).typePrefix =
      (splitPrefix settings (Element.ofText piece).name).1 := by
  rcases split : splitPrefix settings (Element.ofText piece).name with
    ⟨typePrefix, rest⟩
  cases typePrefix with
  | none => rw [parse_of_untyped cut split]
  | some front => rw [parse_of_typed cut split]

theorem ne_of_isAlpha {letter other : Char} (isLetter : letter.isAlpha = true)
    (noLetter : other.isAlpha = false) : letter ≠ other := by
  rintro rfl
  rw [isLetter] at noLetter
  cases noLetter

/-- The first piece of a name that begins with a letter and a hyphen. -/
theorem exists_cut_of_letter {letter : Char} (isLetter : letter.isAlpha = true)
    (rest : Text) :
    ∃ piece pieces, piece <+: rest ∧
      Text.splitOnDouble '_' rest = piece :: pieces ∧
      Text.splitOnDouble '_' (dropDot (letter :: '-' :: rest)) =
        (letter :: '-' :: piece) :: pieces := by
  obtain ⟨piece, pieces, cut⟩ := Text.exists_splitOnDouble_eq_cons '_' rest
  have undotted : ¬ ['.'] <+: letter :: '-' :: rest := by
    intro dotted
    exact ne_of_isAlpha isLetter (by decide)
      (List.cons_prefix_cons.mp dotted).1.symm
  refine ⟨piece, pieces, Text.isPrefix_of_splitOnDouble cut, cut, ?_⟩
  rw [dropDot_of_undotted undotted,
    Text.splitOnDouble_cons_of_ne (ne_of_isAlpha isLetter (by decide)),
    Text.splitOnDouble_cons_of_ne (by decide), cut]
  rfl

/-- A single letter in front of a hyphen is a type prefix, unless a second
hyphen follows. -/
theorem typePrefix_parse_letter_iff {letter : Char}
    (isLetter : letter.isAlpha = true) {rest : Text} :
    ((parse settings (letter :: '-' :: rest)).typePrefix = none ↔
      ['-'] <+: rest) ∧
      (¬ ['-'] <+: rest → (parse settings (letter :: '-' :: rest)).typePrefix =
        some [letter]) := by
  obtain ⟨piece, pieces, begins, cut, whole⟩ :=
    exists_cut_of_letter isLetter rest
  have notHyphen : letter ≠ '-' := ne_of_isAlpha isLetter (by decide)
  have segments := Element.segments_ofText (letter :: '-' :: piece)
  rw [Text.splitOnDouble_cons_of_ne notHyphen] at segments
  rw [typePrefix_parse whole]
  by_cases doubled : ['-'] <+: piece
  · obtain ⟨behind, rfl⟩ := doubled
    have name : (Element.ofText (letter :: '-' :: (['-'] ++ behind))).name =
        [letter] := by
      rw [List.singleton_append, Text.splitOnDouble, if_pos ⟨rfl, rfl⟩]
        at segments
      exact (List.cons.inj segments).1
    have alone : Text.splitFirst? (· == '-') [letter] = none := by
      simp [Text.splitFirst?, notHyphen]
    have inRest : ['-'] <+: rest :=
      (List.prefix_append ['-'] behind).trans begins
    rw [name, splitPrefix, alone]
    exact ⟨iff_of_true rfl inRest, fun single => (single inRest).elim⟩
  · obtain ⟨front, others, filled⟩ :=
      Text.exists_splitOnDouble_eq_cons '-' piece
    have name : (Element.ofText (letter :: '-' :: piece)).name =
        letter :: '-' :: front := by
      rw [Text.splitOnDouble_cons fun both => doubled both.2, filled]
        at segments
      exact (List.cons.inj segments).1
    have single : ¬ ['-'] <+: rest := by
      rintro ⟨behind, rfl⟩
      rw [List.singleton_append, Text.splitOnDouble_cons_of_ne (by decide)]
        at cut
      obtain ⟨first, more, filledRest⟩ :=
        Text.exists_splitOnDouble_eq_cons '_' behind
      rw [filledRest] at cut
      obtain ⟨rfl, -⟩ := List.cons.inj cut
      exact doubled ⟨first, rfl⟩
    have divided : splitPrefix settings (letter :: '-' :: front) =
        (some [letter], front) := by
      rw [splitPrefix, splitFirst?_hyphen notHyphen]
      simp [isSingleLetter, isLetter]
    rw [name, divided]
    exact ⟨iff_of_false (by simp) single, fun _ => rfl⟩

/-- Under the default settings, a name with a type prefix begins with a letter
and a single hyphen. -/
theorem exists_letter_of_typePrefix {name typePrefix : Text}
    (undotted : ¬ ['.'] <+: name)
    (typed : (parse {} name).typePrefix = some typePrefix) :
    ∃ letter rest, typePrefix = [letter] ∧ name = letter :: '-' :: rest ∧
      ¬ ['-'] <+: rest := by
  obtain ⟨piece, pieces, cut⟩ :=
    Text.exists_splitOnDouble_eq_cons '_' (dropDot name)
  have split := (typePrefix_parse cut).symm.trans typed
  obtain ⟨letter, rfl, isLetter⟩ : ∃ letter,
    typePrefix = [letter] ∧ letter.isAlpha = true := by
    rw [splitPrefix] at split
    split at split
    · cases split
    · split at split
      · rename_i accepted
        obtain rfl := Option.some.inj split
        exact exists_letter_of_accepted accepted
      · cases split
  have written := text_parse {} name
  rw [dropDot_of_undotted undotted, text, typed, hyphenated] at written
  simp only [List.append_assoc, List.cons_append, List.nil_append] at written
  refine ⟨letter, _, rfl, written.symm, ?_⟩
  intro doubled
  rw [← written, (typePrefix_parse_letter_iff isLetter).1.mpr doubled] at typed
  cases typed

end TypePrefix

/-! ## Names with another type prefix -/

section Offered

variable {kind : DeclarationKind} {name other : Text}

/-- The type prefixes that are offered under the default settings. -/
theorem exists_letter_of_expected {expected : Text}
    (isExpected : expected = expectedPrefix {} kind ∨ prefixOfKind? kind =
      some expected) :
    ∃ letter, expected = [letter] ∧ letter.isAlpha = true ∧
    lowerAscii [letter] = [letter] ∧
      [letter] ∈ ({} : Settings).allowedPrefixes := by
  have known : expected = ['c'] ∨ expected = ['u'] := by
    rcases isExpected with rfl | ofKind
    · cases kind <;> decide
    · cases kind <;> simp_all [prefixOfKind?]
  rcases known with rfl | rfl
  · exact ⟨'c', rfl, by decide, by decide, by decide⟩
  · exact ⟨'u', rfl, by decide, by decide, by decide⟩

theorem dropDot_letter {letter : Char} (isLetter : letter.isAlpha = true)
    (rest : Text) :
    dropDot (letter :: rest) = letter :: rest := by
  apply dropDot_of_undotted
  intro dotted
  exact ne_of_isAlpha isLetter (by decide)
    (List.cons_prefix_cons.mp dotted).1.symm

theorem reports_missingPrefix_offered_iff (undotted : ¬ ['.'] <+: name)
    (offered : Offers {} kind name .missingPrefix other) :
    Reports {} kind other .missingPrefix ↔ ['-'] <+: name := by
  obtain ⟨violation, member, coded, suggested⟩ := offered
  cases mem_violations_iff.mp member with
  | untyped _ =>
      obtain ⟨letter, expected, isLetter, -⟩ :=
        exists_letter_of_expected (.inl rfl)
      rw [Violation.suggestion, expected, dropDot_of_undotted undotted]
        at suggested
      obtain rfl := Option.some.inj suggested
      rw [reports_missingPrefix_iff, List.singleton_append,
        dropDot_letter isLetter]
      exact (typePrefix_parse_letter_iff isLetter).1
  | _ => cases coded

/-- A name whose type prefix is replaced by another letter has that letter as
its type prefix. -/
theorem typePrefix_parse_replaced (undotted : ¬ ['.'] <+: name)
    {typePrefix : Text} (typed : (parse {} name).typePrefix = some typePrefix)
    {letter : Char} (isLetter : letter.isAlpha = true) :
    (parse {} (dropDot ([letter] ++ name.drop typePrefix.length))).typePrefix =
      some [letter] := by
  obtain ⟨old, rest, rfl, rfl, single⟩ :=
    exists_letter_of_typePrefix undotted typed
  rw [List.length_singleton, List.drop_succ_cons, List.drop_zero,
    List.singleton_append, dropDot_letter isLetter]
  exact (typePrefix_parse_letter_iff isLetter).2 single

theorem not_reports_unknownPrefix_offered (undotted : ¬ ['.'] <+: name)
    (offered : Offers {} kind name .unknownPrefix other) :
    ¬ Reports {} kind other .unknownPrefix := by
  obtain ⟨violation, member, coded, suggested⟩ := offered
  have plain := dropDot_of_undotted undotted
  cases mem_violations_iff.mp member with
  | unknown typed _ =>
      rw [plain] at typed
      obtain ⟨letter, expected, isLetter, lower, allowed⟩ :=
        exists_letter_of_expected (.inl rfl)
      rw [Violation.suggestion, expected, plain] at suggested
      obtain rfl := Option.some.inj suggested
      rintro ⟨again, isAgain, codedAgain⟩
      cases mem_violations_iff.mp isAgain with
      | unknown typedAgain refused =>
          rw [typePrefix_parse_replaced undotted typed isLetter] at typedAgain
          obtain rfl := Option.some.inj typedAgain
          rw [lower] at refused
          exact refused allowed
      | _ => cases codedAgain
  | _ => cases coded

theorem not_reports_prefixKindMismatch_offered (undotted : ¬ ['.'] <+: name)
    (offered : Offers {} kind name .prefixKindMismatch other) :
    ¬ Reports {} kind other .prefixKindMismatch := by
  obtain ⟨violation, member, coded, suggested⟩ := offered
  have plain := dropDot_of_undotted undotted
  cases mem_violations_iff.mp member with
  | mismatched typed _ ofKind _ _ =>
      rw [plain] at typed
      obtain ⟨letter, rfl, isLetter, lower, -⟩ :=
        exists_letter_of_expected (.inr ofKind)
      rw [Violation.suggestion, plain] at suggested
      obtain rfl := Option.some.inj suggested
      rintro ⟨again, isAgain, codedAgain⟩
      cases mem_violations_iff.mp isAgain with
      | mismatched typedAgain _ ofKindAgain _ different =>
          rw [typePrefix_parse_replaced undotted typed isLetter] at typedAgain
          obtain rfl := Option.some.inj typedAgain
          rw [ofKind] at ofKindAgain
          obtain rfl := Option.some.inj ofKindAgain
          exact different lower
      | _ => cases codedAgain
  | _ => cases coded

/-! ## Names with corrected segments -/

/-- A corrected name is offered just if its segments are well formed. -/
theorem eq_text_of_offers_invalidSegment (undotted : ¬ ['.'] <+: name)
    (offered : Offers {} kind name .invalidSegment other) :
    (∀ segment ∈ ((parse {} name).mapSegments Segment.correct).segments,
        Segment.isValid segment = true) ∧
      other = ((parse {} name).mapSegments Segment.correct).text := by
  obtain ⟨violation, member, coded, suggested⟩ := offered
  cases mem_violations_iff.mp member with
  | malformed _ =>
      rw [dropDot_of_undotted undotted, Violation.suggestion, corrected?]
        at suggested
      split at suggested
      · rename_i allValid
        exact ⟨List.all_eq_true.mp allValid, (Option.some.inj suggested).symm⟩
      · cases suggested
  | _ => cases coded

private theorem reports_invalidSegment_offered_iff (undotted : ¬ ['.'] <+: name)
    (offered : Offers {} kind name .invalidSegment other) :
    Reports {} kind other .invalidSegment ↔ Misdivided other := by
  obtain ⟨valid, rfl⟩ := eq_text_of_offers_invalidSegment undotted offered
  have plain := not_isPrefix_dot_text valid
  have pieces : ∀ piece ∈ Text.splitOnDouble '_'
      ((parse {} name).mapSegments Segment.correct).text,
      Segment.isValid piece = true := by
    intro piece member
    rw [splitOnDouble_text valid] at member
    obtain ⟨element, inRow, rfl⟩ := List.mem_map.mp member
    exact isValid_text_of_mem_row valid inRow
  rw [reports_invalidSegment_iff, dropDot_of_undotted plain,
    ← Classical.not_not (a := Misdivided _),
    ← isValid_segments_parse_default_iff plain pieces]
  simp

end Offered

/-! ## All of them -/

/-- Under the default settings, a name that is offered for one without a dot in
front breaks the same rule again as follows.  With a type prefix put in front,
it does so just if the name began with a hyphen.  With the type prefix replaced,
it never does.  With its segments corrected, it does so just if two hyphens in
it stand in front of a third one or of a digit, or it begins with a character, a
hyphen and a digit; and it has as many elements and modifiers as the name, each
in its place, just if no underscore of the name stood beside a hyphen. -/
theorem suggestion_mends_iff (kind : DeclarationKind) {name : Text}
    (undotted : ¬ ['.'] <+: name) {code : Code} {other : Text}
    (offered : Offers {} kind name code other) :
    (code = .missingPrefix → (Reports {} kind other code ↔ ['-'] <+: name)) ∧
      (code = .unknownPrefix ∨ code = .prefixKindMismatch →
        ¬ Reports {} kind other code) ∧
      (code = .invalidSegment →
        (Reports {} kind other code ↔ Misdivided other) ∧
          (SameShape (parse {} other) (parse {} name) ↔ ¬ Touching name)) := by
  refine ⟨?_, ?_, ?_⟩
  · rintro rfl
    exact reports_missingPrefix_offered_iff undotted offered
  · rintro (rfl | rfl)
    · exact not_reports_unknownPrefix_offered undotted offered
    · exact not_reports_prefixKindMismatch_offered undotted offered
  · rintro rfl
    refine ⟨reports_invalidSegment_offered_iff undotted offered, ?_⟩
    obtain ⟨valid, rfl⟩ := eq_text_of_offers_invalidSegment undotted offered
    exact sameShape_parse_corrected_iff undotted valid

/-- Names that are mended: one for each rule. -/
theorem suggestion_mends_each :
    (Offers {} .utility "Card__x".toList .missingPrefix "u-Card__x".toList ∧
        ¬ Reports {} .utility "u-Card__x".toList .missingPrefix) ∧
      (Offers {} .component "X-a--b".toList .unknownPrefix "c-a--b".toList ∧
        ¬ Reports {} .component "c-a--b".toList .unknownPrefix) ∧
      (Offers {} .component "U-a-b".toList .prefixKindMismatch "c-a-b".toList ∧
        ¬ Reports {} .component "c-a-b".toList .prefixKindMismatch) ∧
      (Offers {} .unknown "C-My_Card--B_2__T".toList .invalidSegment
        "c-my-card--b-2__t".toList ∧
        SameShape (parse {} "c-my-card--b-2__t".toList)
          (parse {} "C-My_Card--B_2__T".toList)) := by
  have missing : Offers {} .utility "Card__x".toList .missingPrefix
      "u-Card__x".toList := by decide
  have unknown : Offers {} .component "X-a--b".toList .unknownPrefix
      "c-a--b".toList := by decide
  have mismatched : Offers {} .component "U-a-b".toList .prefixKindMismatch
      "c-a-b".toList := by
    decide
  have malformed : Offers {} .unknown "C-My_Card--B_2__T".toList .invalidSegment
      "c-my-card--b-2__t".toList := by decide
  have apart : ¬ Touching "C-My_Card--B_2__T".toList := by
    simp [Touching, List.infix_cons_iff]
  refine ⟨⟨missing, ?_⟩, ⟨unknown, ?_⟩, ⟨mismatched, ?_⟩, ⟨malformed, ?_⟩⟩
  · exact fun again => absurd
      (((suggestion_mends_iff _ (by decide) missing).1 rfl).mp again)
      (by decide)
  · exact (suggestion_mends_iff _ (by decide) unknown).2.1 (.inl rfl)
  · exact (suggestion_mends_iff _ (by decide) mismatched).2.1 (.inr rfl)
  · exact ((suggestion_mends_iff _ (by decide) malformed).2.2 rfl).2.mpr apart

/-- Names that are not mended: a prefix in front of a hyphen, three hyphens that
meet, a letter and a digit that are taken apart, and two hyphens that make a
modifier. -/
theorem suggestion_repeats :
    (Offers {} .component "-a".toList .missingPrefix "c--a".toList ∧
        Reports {} .component "c--a".toList .missingPrefix) ∧
      (Offers {} .component "c-a-_-b".toList .invalidSegment "c-a---b".toList ∧
        Reports {} .component "c-a---b".toList .invalidSegment) ∧
      (Offers {} .component "c_9".toList .invalidSegment "c-9".toList ∧
        Reports {} .component "c-9".toList .invalidSegment) ∧
      (Offers {} .component "c-a_-b".toList .invalidSegment "c-a--b".toList ∧
        ¬ SameShape (parse {} "c-a--b".toList) (parse {} "c-a_-b".toList)) := by
  refine ⟨by decide, by decide, by decide, by decide, ?_⟩
  intro same
  have modifiers := same.modifiers
  revert modifiers
  decide

end ClassName

end StyleAudit
