import StyleAudit.Proofs.ClassName.Row

/-!
# Which rules a class name breaks

Each violation that the check reports is one rule broken by the parts of the
name, and each rule that the parts break is reported.
-/

namespace StyleAudit

namespace ClassName

/-- The parts of a name break a rule, and this is what is said about it. -/
inductive Breaks (settings : Settings) (kind : DeclarationKind) (name : Text)
    (parts : ClassName) : Violation → Prop where
  | untyped : parts.typePrefix = none →
      Breaks settings kind name parts
        (.missingPrefix name (expectedPrefix settings kind))
  | unknown {typePrefix : Text} : parts.typePrefix = some typePrefix →
      lowerAscii typePrefix ∉ settings.allowedPrefixes →
      Breaks settings kind name parts
        (.unknownPrefix name typePrefix (expectedPrefix settings kind)
          settings.allowedPrefixes)
  | mismatched {typePrefix expected : Text} : parts.typePrefix =
    some typePrefix →
      lowerAscii typePrefix ∈ settings.allowedPrefixes →
      prefixOfKind? kind = some expected →
      (lowerAscii typePrefix = ['c'] ∨ lowerAscii typePrefix = ['u']) →
      lowerAscii typePrefix ≠ expected →
      Breaks settings kind name parts
        (.kindMismatch name typePrefix expected kind)
  | malformed {segment : Text} :
      parts.segments.find? (!Segment.isValid ·) = some segment →
      Breaks settings kind name parts
        (.invalidSegment name segment (corrected? parts))
  | deep : settings.maxElementDepth < parts.elements.length →
      Breaks settings kind name parts (elementCount settings name parts)
  | several : (1 < parts.modifiers.length ∨ ∃ element ∈ parts.elements,
        1 < element.modifiers.length) →
      Breaks settings kind name parts (.severalModifiers name)

variable {settings : Settings} {kind : DeclarationKind} {name : Text}
  {parts : ClassName} {violation : Violation}

private theorem breaks_of_prefixViolation?
    (found : prefixViolation? settings kind name parts = some violation) :
    Breaks settings kind name parts violation := by
  rw [prefixViolation?] at found
  split at found
  · rename_i untyped
    obtain rfl := Option.some.inj found
    exact .untyped untyped
  · rename_i typePrefix typed
    simp only [Settings.allows, List.contains_eq_mem, Bool.not_eq_true',
      decide_eq_false_iff_not]
      at found
    split at found
    · rename_i refused
      obtain rfl := Option.some.inj found
      exact .unknown typed refused
    · rename_i allowed
      split at found
      · cases found
      · rename_i expected ofKind
        split at found
        · rename_i wrong
          obtain rfl := Option.some.inj found
          exact .mismatched typed (Decidable.not_not.mp allowed) ofKind
            wrong.1 wrong.2
        · cases found

/-- What the check reports are the rules that are broken. -/
theorem mem_violations_iff :
    violation ∈ violations settings kind name ↔
      Breaks settings kind (dropDot name) (parse settings (dropDot name))
        violation := by
  simp only [violations, List.mem_append, Option.mem_toList]
  generalize parse settings (dropDot name) = parts
  constructor
  · rintro (((onPrefix | onSegment) | onDepth) | onModifiers)
    · exact breaks_of_prefixViolation? onPrefix
    · obtain ⟨segment, found, rfl⟩ := Option.map_eq_some_iff.mp onSegment
      exact .malformed found
    · rw [depthViolation?] at onDepth
      split at onDepth
      · rename_i deep
        obtain rfl := Option.some.inj onDepth
        exact .deep deep
      · cases onDepth
    · rw [modifierViolation?] at onModifiers
      split at onModifiers
      · rename_i several
        obtain rfl := Option.some.inj onModifiers
        refine .several ?_
        simpa using several
      · cases onModifiers
  · intro breaks
    cases breaks with
    | untyped untyped => simp [prefixViolation?, untyped]
    | unknown typed refused =>
        simp [prefixViolation?, typed, Settings.allows, refused]
    | mismatched typed allowed ofKind known other =>
        simp [prefixViolation?, typed, Settings.allows, allowed, ofKind,
          known, other]
    | malformed found => simp [segmentViolation?, found]
    | deep deep => simp [depthViolation?, deep]
    | several several =>
        refine .inr ?_
        rw [modifierViolation?, if_pos (by simpa using several)]

/-! ## One rule at a time -/

/-- The rule is reported for the name. -/
def Reports (settings : Settings) (kind : DeclarationKind) (name : Text)
    (code : Code) : Prop :=
  ∃ violation ∈ violations settings kind name, violation.code = code

/-- The rule is reported for the name, and another name is offered instead. -/
def Offers (settings : Settings) (kind : DeclarationKind) (name : Text)
    (code : Code) (other : Text) : Prop :=
  ∃ violation ∈ violations settings kind name,
    violation.code = code ∧ violation.suggestion = some other

instance (code : Code) : Decidable (Reports settings kind name code) :=
  inferInstanceAs
    (Decidable (∃ violation ∈ violations settings kind name,
      violation.code = code))

instance (code : Code) (other : Text) :
    Decidable (Offers settings kind name code other) :=
  inferInstanceAs (Decidable (∃ violation ∈ violations settings kind name,
    violation.code = code ∧ violation.suggestion = some other))

theorem reports_missingPrefix_iff :
    Reports settings kind name .missingPrefix ↔
      (parse settings (dropDot name)).typePrefix = none := by
  constructor
  · rintro ⟨violation, member, coded⟩
    cases mem_violations_iff.mp member with
    | untyped untyped => exact untyped
    | _ => cases coded
  · intro untyped
    exact ⟨_, mem_violations_iff.mpr (.untyped untyped), rfl⟩

theorem reports_invalidSegment_iff :
    Reports settings kind name .invalidSegment ↔
      ∃ segment ∈ (parse settings (dropDot name)).segments,
        Segment.isValid segment = false := by
  constructor
  · rintro ⟨violation, member, coded⟩
    cases mem_violations_iff.mp member with
    | malformed found =>
        have invalid := List.find?_some found
        exact ⟨_, List.mem_of_find?_eq_some found, by simpa using invalid⟩
    | _ => cases coded
  · rintro ⟨segment, member, invalid⟩
    have found : ((parse settings (dropDot name)).segments.find?
        (!Segment.isValid ·)).isSome = true :=
      List.find?_isSome.mpr ⟨segment, member, by simp [invalid]⟩
    obtain ⟨first, found⟩ := Option.isSome_iff_exists.mp found
    exact ⟨_, mem_violations_iff.mpr (.malformed found), rfl⟩

theorem reports_elementDepth_iff :
    Reports settings kind name .elementDepth ↔
      settings.maxElementDepth < (parse settings name).elements.length := by
  have sameElements :
      (parse settings (dropDot name)).elements =
        (parse settings name).elements := by
    rw [elements_parse, tail_splitOnDouble_dropDot, elements_parse]
  constructor
  · rintro ⟨violation, member, coded⟩
    cases mem_violations_iff.mp member with
    | deep deep => rwa [sameElements] at deep
    | _ => cases coded
  · intro deep
    rw [← sameElements] at deep
    exact ⟨_, mem_violations_iff.mpr (.deep deep), rfl⟩

end ClassName

end StyleAudit
