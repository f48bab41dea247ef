import StyleAudit.Text.Basic

/-!
# Fixed beginnings and ends of texts

The functions that cut a fixed text off the front or the back of another one,
in terms of appending.
-/

namespace StyleAudit

namespace Text

theorem dropFront?_eq_some_iff {front text rest : Text} :
    dropFront? front text = some rest ↔ text = front ++ rest := by
  fun_induction dropFront? front text with
  | case1 text => simp [eq_comm]
  | case2 a front => simp
  | case3 front c rest ih => simpa using ih
  | case4 a front c rest different => simp [Ne.symm different]

theorem beginsWith_iff {front text : Text} :
    beginsWith front text = true ↔ front <+: text := by
  rw [beginsWith, Option.isSome_iff_exists]
  constructor
  · rintro ⟨rest, found⟩
    exact ⟨rest, (dropFront?_eq_some_iff.mp found).symm⟩
  · rintro ⟨rest, rfl⟩
    exact ⟨rest, dropFront?_eq_some_iff.mpr rfl⟩

theorem dropBack?_eq_some_iff {back text rest : Text} :
    dropBack? back text = some rest ↔ text = rest ++ back := by
  rw [dropBack?, Option.map_eq_some_iff]
  constructor
  · rintro ⟨reversed, found, rfl⟩
    have whole := congrArg List.reverse (dropFront?_eq_some_iff.mp found)
    simpa using whole
  · rintro rfl
    exact ⟨rest.reverse, dropFront?_eq_some_iff.mpr (by simp), by simp⟩

theorem endsWith_iff {back text : Text} :
    endsWith back text = true ↔ back <:+ text := by
  rw [endsWith, Option.isSome_iff_exists]
  constructor
  · rintro ⟨rest, found⟩
    exact ⟨rest, (dropBack?_eq_some_iff.mp found).symm⟩
  · rintro ⟨rest, rfl⟩
    exact ⟨rest, dropBack?_eq_some_iff.mpr rfl⟩

theorem dropBack?_eq_none_iff {back text : Text} :
    dropBack? back text = none ↔ endsWith back text = false := by
  rw [endsWith, Option.isSome_eq_false_iff, Option.isNone_iff_eq_none]

/-- A text does not end with a character that it does not hold. -/
theorem beginsWith_concat {front : Text} {c : Char} (absent : c ∉ front)
    (text : Text) :
    beginsWith front (text ++ [c]) = beginsWith front text := by
  rw [Bool.eq_iff_iff, beginsWith_iff, beginsWith_iff, List.prefix_concat_iff]
  refine or_iff_right fun whole => ?_
  rw [whole] at absent
  exact absent List.mem_concat_self

/-- A text does not reach back over a character that it does not hold. -/
theorem endsWith_append_cons {back : Text} {c : Char} (absent : c ∉ back)
    (front rest : Text) :
    endsWith back (front ++ c :: rest) = endsWith back rest := by
  rw [Bool.eq_iff_iff, endsWith_iff, endsWith_iff]
  constructor
  · rintro ⟨before, whole⟩
    rcases List.append_eq_append_iff.mp whole with
      ⟨more, _, reached⟩ | ⟨more, _, rest_eq⟩
    · exact (absent (by simp [reached])).elim
    · cases more with
      | nil =>
          exact (absent (by simp [← show c :: rest = back from rest_eq])).elim
      | cons _ more => exact ⟨more, (List.cons.inj rest_eq).2.symm⟩
  · intro ends
    exact (ends.trans (List.suffix_cons c rest)).trans (List.suffix_append _ _)

end Text

end StyleAudit
