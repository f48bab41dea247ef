import StyleAudit.Proofs.ClassName.Violations
import StyleAudit.Proofs.FirstOfKey
import StyleAudit.Proofs.Selector.Names

/-!
# What is reported about a selector

The names in a selector are checked one after the other, and of each rule only
the first violation is kept.  A single name breaks each rule at most once, and
at most one of the rules about its type prefix.  So what is reported are the
rules that some name breaks, each with what is said about the first name that
breaks it.
-/

namespace StyleAudit

/-- Is the rule about type prefixes? -/
def Code.isPrefixRule : Code → Bool
  | .missingPrefix | .unknownPrefix | .prefixKindMismatch => true
  | _ => false

theorem Code.rank_lt_of_isPrefixRule {code : Code}
    (prefixRule : code.isPrefixRule = true) :
    code.rank < Code.invalidSegment.rank := by
  revert prefixRule
  cases code <;> decide

namespace ClassName

variable {settings : Settings} {kind : DeclarationKind} {name : Text}
  {parts : ClassName} {violation : Violation}

/-! ## One check of a name -/

theorem isPrefixRule_of_prefixViolation?
    (found : prefixViolation? settings kind name parts = some violation) :
    violation.code.isPrefixRule = true := by
  rw [prefixViolation?] at found
  split at found
  · cases found
    rfl
  · dsimp only at found
    split at found
    · cases found
      rfl
    · split at found
      · cases found
      · split at found
        · cases found
          rfl
        · cases found

theorem code_of_segmentViolation?
    (found : segmentViolation? name parts = some violation) :
    violation.code = .invalidSegment := by
  obtain ⟨segment, -, rfl⟩ := Option.map_eq_some_iff.mp found
  rfl

theorem code_of_depthViolation?
    (found : depthViolation? settings name parts = some violation) :
    violation.code = .elementDepth := by
  rw [depthViolation?] at found
  split at found
  · cases found
    rfl
  · cases found

theorem code_of_modifierViolation?
    (found : modifierViolation? name parts = some violation) :
    violation.code = .multipleModifiers := by
  rw [modifierViolation?] at found
  split at found
  · cases found
    rfl
  · cases found

/-! ## All checks of a name -/

private theorem pairwise_toList {α : Type} (relation : α → α → Prop)
    (option : Option α) :
    option.toList.Pairwise relation := by
  cases option with
  | none => exact List.Pairwise.nil
  | some only => exact List.pairwise_singleton relation only

/-- The violations of a name come in the order of their rules. -/
theorem pairwise_violations (settings : Settings) (kind : DeclarationKind)
    (name : Text) :
    (violations settings kind name).Pairwise fun left right =>
      left.code.rank < right.code.rank := by
  simp only [violations, List.pairwise_append, pairwise_toList, true_and,
    List.mem_append, Option.mem_toList]
  refine ⟨⟨?_, ?_⟩, ?_⟩
  · intro left onPrefix right onSegment
    have early :=
      Code.rank_lt_of_isPrefixRule (isPrefixRule_of_prefixViolation? onPrefix)
    rwa [code_of_segmentViolation? onSegment]
  · rintro left (onPrefix | onSegment) right onDepth
    · have early :=
        Code.rank_lt_of_isPrefixRule (isPrefixRule_of_prefixViolation? onPrefix)
      rw [code_of_depthViolation? onDepth]
      exact Nat.lt_trans early (by decide)
    · rw [code_of_segmentViolation? onSegment, code_of_depthViolation? onDepth]
      decide
  · rintro left ((onPrefix | onSegment) | onDepth) right onModifiers
    · have early :=
        Code.rank_lt_of_isPrefixRule (isPrefixRule_of_prefixViolation? onPrefix)
      rw [code_of_modifierViolation? onModifiers]
      exact Nat.lt_trans early (by decide)
    · rw [code_of_segmentViolation? onSegment,
        code_of_modifierViolation? onModifiers]
      decide
    · rw [code_of_depthViolation? onDepth,
        code_of_modifierViolation? onModifiers]
      decide

/-- A name breaks each rule at most once. -/
theorem nodup_codes (settings : Settings) (kind : DeclarationKind)
    (name : Text) :
    ((violations settings kind name).map Violation.code).Nodup := by
  rw [List.nodup_iff_pairwise_ne, List.pairwise_map]
  refine (pairwise_violations settings kind name).imp ?_
  intro left right before same
  rw [same] at before
  exact Nat.lt_irrefl _ before

theorem countP_isPrefixRule_eq_zero (option : Option Violation) {code : Code}
    (coded : ∀ violation, option = some violation → violation.code = code)
    (other : code.isPrefixRule = false) :
    option.toList.countP (·.code.isPrefixRule) = 0 := by
  rw [List.countP_eq_zero]
  intro violation member
  rw [coded violation (Option.mem_toList.mp member), other]
  exact Bool.false_ne_true

/-- A name breaks at most one of the rules about type prefixes. -/
theorem countP_isPrefixRule_le (settings : Settings) (kind : DeclarationKind)
    (name : Text) :
    (violations settings kind name).countP (·.code.isPrefixRule) ≤ 1 := by
  simp only [violations, List.countP_append]
  generalize parse settings (dropDot name) = parts
  have onSegment :=
    countP_isPrefixRule_eq_zero (segmentViolation? (dropDot name) parts)
      (fun _ => code_of_segmentViolation?) rfl
  have onDepth :=
    countP_isPrefixRule_eq_zero (depthViolation? settings (dropDot name) parts)
      (fun _ => code_of_depthViolation?) rfl
  have onModifiers :=
    countP_isPrefixRule_eq_zero (modifierViolation? (dropDot name) parts)
      (fun _ => code_of_modifierViolation?) rfl
  rw [onSegment, onDepth, onModifiers]
  exact Nat.le_trans List.countP_le_length Option.length_toList_le

theorem find?_code_eq_none_iff {code : Code} :
    (violations settings kind name).find? (·.code == code) = none ↔
      ¬ Reports settings kind name code := by
  rw [List.find?_eq_none, Reports]
  simp only [beq_iff_eq, not_exists, not_and]

end ClassName

namespace Selector

variable {settings : Settings} {kind : DeclarationKind} {selector : Text}

/-! ## All names of a selector -/

theorem violations_eq (settings : Settings) (kind : DeclarationKind)
    (selector : Text) :
    violations settings kind selector =
      ((checkedNames selector).flatMap
        (ClassName.violations settings kind)).foldl (addByKey Violation.code)
          [] :=
  rfl

theorem reports_iff {code : Code} :
    code ∈ (violations settings kind selector).map Violation.code ↔
      ∃ name ∈ checkedNames selector,
        ClassName.Reports settings kind name code := by
  rw [violations_eq, mem_map_foldl_addByKey_iff, List.nil_append, List.mem_map]
  constructor
  · rintro ⟨violation, member, coded⟩
    obtain ⟨name, inSelector, onName⟩ := List.mem_flatMap.mp member
    exact ⟨name, inSelector, violation, onName, coded⟩
  · rintro ⟨name, inSelector, violation, onName, coded⟩
    exact ⟨violation, List.mem_flatMap.mpr ⟨name, inSelector, onName⟩, coded⟩

/-- What is said about a rule is said about the first name that breaks it. -/
theorem mem_violations_iff_first {violation : Violation} :
    violation ∈ violations settings kind selector ↔
      ∃ front name back, checkedNames selector = front ++ name :: back ∧
        violation ∈ ClassName.violations settings kind name ∧
        ∀ earlier ∈ front,
          ¬ ClassName.Reports settings kind earlier violation.code := by
  rw [violations_eq, mem_foldl_addByKey_iff, List.find?_flatMap,
    List.findSome?_eq_some_iff]
  simp only [find?_eq_some_iff_mem Violation.code
    (ClassName.nodup_codes settings kind _), ClassName.find?_code_eq_none_iff]

private theorem checkedNames_eq (selector : Text) :
    checkedNames selector =
      if classNames selector = [] then (firstIdentifier? selector).toList
      else classNames selector := by
  simp only [checkedNames, List.isEmpty_iff]

/-- A selector is reported for the rules that its classes break.  The classes
are the names that stand behind dots in the open, and a selector without any has
its first word checked instead.  No rule is reported twice, and no name breaks
two of the rules about type prefixes.  A rule is reported just if one of the
names breaks it, and what is reported is what is wrong with the first name that
breaks it. -/
theorem violations_first_of_each_rule (settings : Settings)
    (kind : DeclarationKind) (selector : Text) :
    let names :=
      if classNames selector = [] then (firstIdentifier? selector).toList
      else classNames selector
    (∀ name, name ∈ classNames selector ↔ NamesClass selector name) ∧
    (∀ name, firstIdentifier? selector = some name ↔
      IsFirstWord selector name) ∧
    ((violations settings kind selector).map Violation.code).Nodup ∧
    (∀ name, (ClassName.violations settings kind name).countP
      (·.code.isPrefixRule) ≤ 1) ∧
    (∀ code, code ∈ (violations settings kind selector).map Violation.code ↔
      ∃ name ∈ names, ClassName.Reports settings kind name code) ∧
    ∀ violation, violation ∈ violations settings kind selector ↔
      ∃ front name back, names = front ++ name :: back ∧
        violation ∈ ClassName.violations settings kind name ∧
        ∀ earlier ∈ front,
          ¬ ClassName.Reports settings kind earlier violation.code := by
  rw [← checkedNames_eq]
  refine ⟨fun _ => mem_classNames_iff,
    fun _ => firstIdentifier?_eq_some_iff, ?_,
    ClassName.countP_isPrefixRule_le settings kind, ?_, ?_⟩
  · exact nodup_foldl_addByKey Violation.code _ [] List.nodup_nil
  · exact fun _ => reports_iff
  · exact fun _ => mem_violations_iff_first

end Selector

end StyleAudit
