import StyleAudit.Proofs.Path

/-!
# Where a path leads

Normalising goes down by one segment for every name in a path and up by one for
every two dots, so whether a path leads out of its root is a matter of counting.
What is kept on the way says all about where the path leads: a normal form is
kept as it is, and a path may be replaced by its normal form in front of any
other path.
-/

namespace StyleAudit

namespace Path

/-- How many segments name a file or a directory. -/
def named (segments : List Text) : Nat :=
  segments.countP fun segment => IsOrdinary segment

/-- How many segments are two dots. -/
def climbs (segments : List Text) : Nat :=
  segments.count ['.', '.']

/-- Some beginning of the segments climbs higher than it goes down, from so far
below the root. -/
def ClimbsOut (depth : Nat) (segments : List Text) : Prop :=
  ∃ front, front <+: segments ∧ depth + named front < climbs front

/-! ## One segment -/

theorem segment_cases (segment : Text) :
    IsOrdinary segment ∨ segment = ['.', '.'] ∨ segment = [] ∨
      segment = ['.'] := by
  by_cases dots : segment = ['.', '.']
  · exact .inr (.inl dots)
  · by_cases silent : segment = [] ∨ segment = ['.']
    · exact .inr (.inr silent)
    · exact .inl ⟨(not_or.mp silent).1, (not_or.mp silent).2, dots⟩

theorem push?_dots_nil : push? [] ['.', '.'] = none :=
  rfl

theorem push?_dots_cons (last : Text) (segments : List Text) :
    push? (last :: segments) ['.', '.'] = some segments :=
  rfl

theorem push?_of_silent {segment : Text}
    (silent : segment = [] ∨ segment = ['.']) (segments : List Text) :
    push? segments segment = some segments :=
  if_pos silent

theorem counts_of_isOrdinary {segment : Text} (ordinary : IsOrdinary segment)
    (rest : List Text) :
    named (segment :: rest) = named rest + 1 ∧ climbs (segment :: rest) =
      climbs rest :=
  ⟨List.countP_cons_of_pos (decide_eq_true ordinary),
    List.count_cons_of_ne ordinary.2.2⟩

theorem counts_of_dots (rest : List Text) :
    named (['.', '.'] :: rest) = named rest ∧
      climbs (['.', '.'] :: rest) = climbs rest + 1 :=
  ⟨List.countP_cons_of_neg (by decide), List.count_cons_self⟩

theorem counts_of_silent {segment : Text}
    (silent : segment = [] ∨ segment = ['.']) (rest : List Text) :
    named (segment :: rest) = named rest ∧ climbs (segment :: rest) =
      climbs rest := by
  rcases silent with rfl | rfl <;>
    exact ⟨List.countP_cons_of_neg (by decide),
      List.count_cons_of_ne (by decide)⟩

/-! ## Climbing out of the root -/

theorem not_climbsOut_nil (depth : Nat) : ¬ ClimbsOut depth [] := by
  rintro ⟨front, begins, higher⟩
  rw [List.prefix_nil.mp begins] at higher
  exact Nat.not_lt_zero _ higher

/-- The first segment is passed before anything can climb out. -/
theorem climbsOut_cons {depth : Nat} {segment : Text} {rest : List Text} :
    ClimbsOut depth (segment :: rest) ↔
      ∃ front, front <+: rest ∧
        depth + named (segment :: front) < climbs (segment :: front) := by
  constructor
  · rintro ⟨front, begins, higher⟩
    rcases List.prefix_cons_iff.mp begins with rfl | ⟨front, rfl, beginsRest⟩
    · exact (Nat.not_lt_zero _ higher).elim
    · exact ⟨front, beginsRest, higher⟩
  · rintro ⟨front, begins, higher⟩
    exact ⟨segment :: front, List.cons_prefix_cons.mpr ⟨rfl, begins⟩, higher⟩

theorem climbsOut_of_isOrdinary {depth : Nat} {segment : Text}
    {rest : List Text} (ordinary : IsOrdinary segment) :
    ClimbsOut depth (segment :: rest) ↔ ClimbsOut (depth + 1) rest := by
  rw [climbsOut_cons]
  refine exists_congr fun front => and_congr_right fun _ => ?_
  obtain ⟨down, up⟩ := counts_of_isOrdinary ordinary front
  rw [down, up]
  omega

theorem climbsOut_of_silent {depth : Nat} {segment : Text} {rest : List Text}
    (silent : segment = [] ∨ segment = ['.']) :
    ClimbsOut depth (segment :: rest) ↔ ClimbsOut depth rest := by
  rw [climbsOut_cons]
  refine exists_congr fun front => and_congr_right fun _ => ?_
  obtain ⟨down, up⟩ := counts_of_silent silent front
  rw [down, up]

private theorem climbsOut_zero_dots (rest : List Text) :
    ClimbsOut 0 (['.', '.'] :: rest) :=
  ⟨[['.', '.']], List.prefix_append _ rest, by decide⟩

private theorem climbsOut_succ_dots {depth : Nat} {rest : List Text} :
    ClimbsOut (depth + 1) (['.', '.'] :: rest) ↔ ClimbsOut depth rest := by
  rw [climbsOut_cons]
  refine exists_congr fun front => and_congr_right fun _ => ?_
  obtain ⟨down, up⟩ := counts_of_dots front
  rw [down, up]
  omega

/-- A run fails just if it climbs higher than the row that it begins with. -/
theorem foldlM_push?_eq_none_iff {added segments : List Text} :
    added.foldlM push? segments = none ↔ ClimbsOut segments.length added := by
  induction added generalizing segments with
  | nil =>
      exact iff_of_false (Option.some_ne_none segments) (not_climbsOut_nil _)
  | cons segment added ih =>
      rw [List.foldlM_cons]
      rcases segment_cases segment with ordinary | rfl | silent
      · rw [push?_of_isOrdinary ordinary, climbsOut_of_isOrdinary ordinary]
        exact ih
      · cases segments with
        | nil =>
            rw [push?_dots_nil]
            exact iff_of_true rfl (climbsOut_zero_dots added)
        | cons last segments =>
            rw [push?_dots_cons, List.length_cons, climbsOut_succ_dots]
            exact ih
      · rw [push?_of_silent silent, climbsOut_of_silent silent]
        exact ih

/-! ## Normal forms in place of paths -/

/-- A normal form leads where the path leads. -/
theorem row?_join {path : Text} {segments : List Text}
    (leads : row? path = some segments) :
    row? (Text.join ['/'] segments.reverse) = some segments := by
  by_cases empty : segments = []
  · rw [empty]
    rfl
  · rw [row?, splitOn_of_row? leads empty,
      foldlM_push?_of_isOrdinary fun segment member =>
      (isOrdinary_of_row? leads (List.mem_reverse.mp member)).1,
      List.reverse_reverse, List.append_nil]

private theorem row?_of_normalize? {path found : Text}
    (normalized : normalize? path = some found) :
    row? found = row? path := by
  obtain ⟨segments, leads, rfl⟩ := Option.map_eq_some_iff.mp normalized
  rw [row?_join leads]
  exact leads.symm

/-- Where a longer path leads depends on the first part only by where that
leads. -/
theorem row?_append (path rest : Text) :
    row? (path ++ '/' :: rest) =
      (row? path).bind ((Text.splitOn '/' rest).foldlM push?) := by
  rw [row?, Text.splitOn_append, List.foldlM_append]
  rfl

/-- All segments of a normal form are ordinary, it is its own normal form, and
it may take the place of the path in front of any other path.  There is none
just if some beginning of the path has more segments that climb than segments
that name something. -/
theorem normalize?_normal_form (path : Text) :
    (∀ found, normalize? path = some found →
      (found = [] ∨ IsNormal found) ∧ normalize? found = some found ∧
        ∀ rest, normalize? (path ++ '/' :: rest) =
          normalize? (found ++ '/' :: rest)) ∧
    (normalize? path = none ↔
      ∃ front, front <+: Text.splitOn '/' path ∧
        named front < climbs front) := by
  refine ⟨?_, ?_⟩
  · intro found normalized
    have sameRow := row?_of_normalize? normalized
    refine ⟨isNormal_of_normalize? normalized, ?_, ?_⟩
    · rw [← normalized, normalize?_eq_map, normalize?_eq_map, sameRow]
    · intro rest
      rw [normalize?_eq_map, normalize?_eq_map, row?_append,
        row?_append, sameRow]
  · rw [normalize?_eq_map, Option.map_eq_none_iff, row?,
      foldlM_push?_eq_none_iff]
    simp only [ClimbsOut, List.length_nil, Nat.zero_add]

/-- Dots, doubled slashes and a way down and up again, in front of a path that
climbs; and a path that climbs out although it has as many names as climbs. -/
theorem normalize?_normal_form_mixed :
    let path := "/a//./b/../c/".toList
    let outside := "a/../../b".toList
    normalize? path = some "a/c".toList ∧ IsNormal "a/c".toList ∧
      normalize? "a/c".toList = some "a/c".toList ∧
      normalize? (path ++ '/' :: "../d".toList) =
        normalize? ("a/c".toList ++ '/' :: "../d".toList) ∧
      normalize? (path ++ '/' :: "../d".toList) = some "a/d".toList ∧
      named (Text.splitOn '/' outside) = climbs (Text.splitOn '/' outside) ∧
      normalize? outside = none := by
  intro path outside
  have normalized : normalize? path = some "a/c".toList := by decide
  obtain ⟨normal, again, replaced⟩ :=
    (normalize?_normal_form path).1 _ normalized
  have climbing : ∃ front, front <+: Text.splitOn '/' outside ∧
      named front < climbs front :=
    ⟨(Text.splitOn '/' outside).take 3, List.take_prefix _ _, by decide⟩
  exact ⟨normalized, normal.resolve_left (by decide), again,
    replaced _, by decide, by decide,
    (normalize?_normal_form outside).2.mpr climbing⟩

end Path

end StyleAudit
