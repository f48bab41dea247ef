import StyleAudit.Proofs.Text.Order
import StyleAudit.Report

/-!
# A report lists its findings in order

The order of findings compares one thing after the other, so it is transitive
and total because each of these comparisons is.  Sorting therefore sorts, and if
the order tells all findings apart, then dropping repeats leaves no two that it
does not tell apart.
-/

namespace StyleAudit

open Std (TransCmp)

/-! ## Comparing one thing after the other -/

theorem transCmp_then {α : Type} {first second : α → α → Ordering}
    (firstTrans : TransCmp first) (secondTrans : TransCmp second) :
    TransCmp fun left right => (first left right).then (second left right) :=
  inferInstanceAs (TransCmp (compareLex first second))

theorem Location.transCmp_compare : TransCmp Location.compare :=
  transCmp_then (transCmp_on Text.transCmp_compare Location.file) <|
    transCmp_then
      (transCmp_nat fun location : Location => location.span.start.line)
        (transCmp_nat fun location : Location => location.span.start.column)

namespace Note

theorem transCmp_compare : TransCmp Note.compare :=
  transCmp_then (transCmp_on Location.transCmp_compare Note.location)
    (transCmp_on Text.transCmp_compare fun note : Note => note.message.toList)

private theorem transCmp_compareList : TransCmp compareList := by
  have lexicographic : compareList = List.compareLex Note.compare := by
    funext left right
    fun_induction compareList left right with
    | case1 => rfl
    | case2 => rfl
    | case3 => rfl
    | case4 a left b right ih => rw [ih, List.compareLex_cons_cons]
  rw [lexicographic]
  have notes := transCmp_compare
  infer_instance

end Note

namespace Diagnostic

theorem transCmp_compareSuggestion : TransCmp compareSuggestion where
  eq_swap := by
    intro left right
    cases left with
    | none => cases right <;> rfl
    | some first =>
        cases right with
        | none => rfl
        | some second => exact Text.transCmp_compare.eq_swap
  isLE_trans := by
    intro left middle right before after
    cases left with
    | none => cases right <;> rfl
    | some first =>
        cases middle with
        | none => cases before
        | some second =>
            cases right with
            | none => cases after
            | some third => exact Text.transCmp_compare.isLE_trans before after

theorem transCmp_compare : TransCmp Diagnostic.compare := by
  have places := transCmp_on Location.transCmp_compare location
  have severities :=
    transCmp_nat fun diagnostic : Diagnostic => diagnostic.severity.rank
  have codes := transCmp_nat fun diagnostic : Diagnostic => diagnostic.code.rank
  have messages :=
    transCmp_on Text.transCmp_compare fun diagnostic : Diagnostic =>
      diagnostic.message.toList
  have stops :=
    transCmp_nat fun diagnostic : Diagnostic =>
      diagnostic.location.span.stop.offset
  have suggestions := transCmp_on transCmp_compareSuggestion suggestion
  have notes := transCmp_on Note.transCmp_compareList related
  exact transCmp_then places <| transCmp_then severities <|
    transCmp_then codes <|
    transCmp_then messages <| transCmp_then stops <|
      transCmp_then suggestions notes

theorem compare_self (diagnostic : Diagnostic) :
    compare diagnostic diagnostic = .eq := by
  have trans := transCmp_compare
  exact Std.ReflCmp.compare_self

theorem le_trans {left middle right : Diagnostic}
    (before : left.le middle = true) (after : middle.le right = true) :
    left.le right = true :=
  transCmp_compare.isLE_trans before after

theorem le_total (left right : Diagnostic) :
    (left.le right || right.le left) = true := by
  have swapped := @transCmp_compare.eq_swap left right
  rw [le, le, swapped]
  cases compare right left <;> rfl

end Diagnostic

/-! ## What the order looks at -/

theorem Severity.eq_of_rank {left right : Severity}
    (same : left.rank = right.rank) :
    left = right := by
  have found : ∀ severity : Severity,
      Severity.all[severity.rank]? = some severity := by
    intro severity
    cases severity <;> rfl
  rw [← Option.some.injEq, ← found left, ← found right, same]

theorem Code.eq_of_rank {left right : Code} (same : left.rank = right.rank) :
    left = right := by
  have found : ∀ code : Code, Code.all[code.rank]? = some code := by
    intro code
    cases code <;> rfl
  rw [← Option.some.injEq, ← found left, ← found right, same]

theorem Text.eq_of_compare_toList {left right : String}
    (same : Text.compare left.toList right.toList = .eq) : left = right :=
  String.toList_inj.mp (Text.compare_eq_eq_iff.mp same)

namespace Diagnostic

private theorem eq_of_compareSuggestion {left right : Option Text}
    (same : compareSuggestion left right = .eq) : left = right := by
  cases left with
  | none =>
      cases right with
      | none => rfl
      | some _ => cases same
  | some first =>
      cases right with
      | none => cases same
      | some second => rw [Text.compare_eq_eq_iff.mp same]

/-- The findings agree in everything that the order looks at. -/
structure Alike (left right : Diagnostic) : Prop where
  file : left.location.file = right.location.file
  line : left.location.span.start.line = right.location.span.start.line
  column : left.location.span.start.column = right.location.span.start.column
  severity : left.severity = right.severity
  code : left.code = right.code
  message : left.message = right.message
  stop : left.location.span.stop.offset = right.location.span.stop.offset
  suggestion : left.suggestion = right.suggestion
  related : Note.compareList left.related right.related = .eq

theorem alike_of_compare {left right : Diagnostic}
    (same : compare left right = .eq) :
    Alike left right := by
  simp only [compare, Location.compare, Ordering.then_eq_eq, Nat.compare_eq_eq]
    at same
  obtain ⟨⟨file, line, column⟩, severity, code, message, stop, suggestion,
    related⟩ := same
  exact
    { file := Text.compare_eq_eq_iff.mp file
      line
      column
      severity := Severity.eq_of_rank severity
      code := Code.eq_of_rank code
      message := Text.eq_of_compare_toList message
      stop
      suggestion := eq_of_compareSuggestion suggestion
      related }

end Diagnostic

/-! ## Dropping repeats -/

section Repeats

variable {α : Type} [DecidableEq α]

theorem mem_dropRepeats {a : α} {list : List α} : a ∈ dropRepeats list ↔
    a ∈ list := by
  fun_induction dropRepeats list with
  | case1 => exact Iff.rfl
  | case2 only => exact Iff.rfl
  | case3 first rest ih =>
      rw [ih]
      simp only [List.mem_cons, or_self_left]
  | case4 first second rest _ ih => rw [List.mem_cons, ih, ← List.mem_cons]

/-- If the order tells the members of a sorted list apart, then what is left
without repeats increases. -/
theorem pairwise_dropRepeats {cmp : α → α → Ordering} {list : List α}
    (trans : TransCmp cmp)
    (sorted : list.Pairwise fun left right => (cmp left right).isLE)
    (apart : ∀ left ∈ list,
      ∀ right ∈ list, cmp left right = .eq → left = right) :
    (dropRepeats list).Pairwise fun left right => cmp left right = .lt := by
  fun_induction dropRepeats list with
  | case1 => exact List.Pairwise.nil
  | case2 only => exact List.pairwise_singleton _ only
  | case3 first rest ih =>
      exact ih sorted.tail fun left inLeft right inRight =>
        apart left (List.mem_cons_of_mem _ inLeft) right
          (List.mem_cons_of_mem _ inRight)
  | case4 first second rest different ih =>
      obtain ⟨below, later⟩ := List.pairwise_cons.mp sorted
      have step : cmp first second = .lt := by
        have order := below second List.mem_cons_self
        cases outcome : cmp first second with
        | lt => rfl
        | eq =>
            exact absurd (apart first List.mem_cons_self second
              (List.mem_cons_of_mem _ List.mem_cons_self) outcome) different
        | gt =>
            rw [outcome] at order
            cases order
      refine List.pairwise_cons.mpr ⟨?_, ih later ?_⟩
      · intro other member
        rcases List.mem_cons.mp (mem_dropRepeats.mp member) with rfl | further
        · exact step
        · have order := (List.pairwise_cons.mp later).1 other further
          exact Std.TransCmp.lt_of_lt_of_isLE step order
      · intro left inLeft right inRight
        exact apart left (List.mem_cons_of_mem _ inLeft) right
          (List.mem_cons_of_mem _ inRight)

end Repeats

namespace Diagnostic

theorem mem_finish {diagnostic : Diagnostic} {found : List Diagnostic} :
    diagnostic ∈ finish found ↔ diagnostic ∈ found := by
  rw [finish, mem_dropRepeats, List.mem_mergeSort]

/-- Findings that the order tells apart are listed in increasing order. -/
theorem pairwise_finish {found : List Diagnostic}
    (apart : ∀ left ∈ found,
      ∀ right ∈ found, compare left right = .eq → left = right) :
    (finish found).Pairwise fun left right => compare left right = .lt := by
  have sorted := List.pairwise_mergeSort (@le_trans) le_total found
  apply pairwise_dropRepeats transCmp_compare sorted
  intro left inLeft right inRight same
  rw [List.mem_mergeSort] at inLeft inRight
  exact apart left inLeft right inRight same

end Diagnostic

end StyleAudit
