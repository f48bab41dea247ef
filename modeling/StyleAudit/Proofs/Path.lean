import StyleAudit.Path
import StyleAudit.Proofs.Text.Pieces
import StyleAudit.Proofs.Text.Words

/-!
# Normal paths

Normalising goes over the segments of a path and keeps a row of those that name
something.  What it keeps is ordinary, so a normalised path is normal; and a
path that is normal already stays as it is.
-/

namespace StyleAudit

namespace Path

/-- The segment names a file or a directory. -/
def IsOrdinary (segment : Text) : Prop :=
  segment ≠ [] ∧ segment ≠ ['.'] ∧ segment ≠ ['.', '.']

instance (segment : Text) : Decidable (IsOrdinary segment) :=
  inferInstanceAs (Decidable (_ ∧ _ ∧ _))

/-- Every segment of the path names a file or a directory. -/
def IsNormal (path : Text) : Prop :=
  ∀ segment ∈ Text.splitOn '/' path, IsOrdinary segment

instance (path : Text) : Decidable (IsNormal path) :=
  List.decidableBAll IsOrdinary (Text.splitOn '/' path)

theorem isNormal_append {front back : Text} :
    IsNormal (front ++ '/' :: back) ↔ IsNormal front ∧ IsNormal back := by
  simp only [IsNormal, Text.splitOn_append, List.mem_append, or_imp, forall_and]

theorem isNormal_of_not_mem {segment : Text} (single : '/' ∉ segment) :
    IsNormal segment ↔ IsOrdinary segment := by
  rw [IsNormal, Text.splitOn_of_not_mem single, List.forall_mem_singleton]

/-! ## What normalising keeps -/

theorem push?_of_isOrdinary {segment : Text} (ordinary : IsOrdinary segment)
    (segments : List Text) :
    push? segments segment = some (segment :: segments) := by
  obtain ⟨filled, noDot, noDots⟩ := ordinary
  unfold push?
  rw [if_neg (by simp [filled, noDot]), if_neg noDots]

theorem foldlM_push?_of_isOrdinary {added : List Text}
    (ordinary : ∀ segment ∈ added, IsOrdinary segment) (segments : List Text) :
    added.foldlM push? segments = some (added.reverse ++ segments) := by
  induction added generalizing segments with
  | nil => rfl
  | cons segment added ih =>
      obtain ⟨first, others⟩ := List.forall_mem_cons.mp ordinary
      have later := ih others (segment :: segments)
      rw [List.foldlM_cons, push?_of_isOrdinary first]
      apply later.trans
      rw [List.reverse_cons, List.append_assoc, List.singleton_append]

/-- A normal path is its own normal form. -/
theorem normalize?_of_isNormal {path : Text} (normal : IsNormal path) :
    normalize? path = some path := by
  rw [normalize?, foldlM_push?_of_isOrdinary normal, Option.map_some,
    List.append_nil, List.reverse_reverse, Text.join_splitOn]

private theorem mem_of_push? {segments next : List Text} {segment other : Text}
    (pushed : push? segments segment = some next) (member : other ∈ next) :
    other ∈ segments ∨ other = segment ∧ IsOrdinary segment := by
  unfold push? at pushed
  split at pushed
  · cases pushed
    exact .inl member
  · rename_i named
    split at pushed
    · split at pushed
      · cases pushed
      · cases pushed
        exact .inl (List.mem_cons_of_mem _ member)
    · rename_i noDots
      cases pushed
      rcases List.mem_cons.mp member with rfl | earlier
      · exact .inr ⟨rfl, (not_or.mp named).1, (not_or.mp named).2, noDots⟩
      · exact .inl earlier

theorem mem_of_foldlM_push? {added segments final : List Text} {other : Text}
    (ran : added.foldlM push? segments = some final) (member : other ∈ final) :
    other ∈ segments ∨ other ∈ added ∧ IsOrdinary other := by
  induction added generalizing segments with
  | nil =>
      cases ran
      exact .inl member
  | cons segment added ih =>
      rw [List.foldlM_cons] at ran
      obtain ⟨next, pushed, later⟩ := Option.bind_eq_some_iff.mp ran
      rcases ih later with inNext | ⟨inAdded, ordinary⟩
      · rcases mem_of_push? pushed inNext with earlier | ⟨rfl, ordinary⟩
        · exact .inl earlier
        · exact .inr ⟨List.mem_cons_self, ordinary⟩
      · exact .inr ⟨List.mem_cons_of_mem segment inAdded, ordinary⟩

/-- The segments from the root to where a path leads, the last first. -/
def row? (path : Text) : Option (List Text) :=
  (Text.splitOn '/' path).foldlM push? []

theorem normalize?_eq_map (path : Text) :
    normalize? path = (row? path).map fun segments =>
      Text.join ['/'] segments.reverse :=
  rfl

theorem isOrdinary_of_row? {path segment : Text} {segments : List Text}
    (leads : row? path = some segments) (member : segment ∈ segments) :
    IsOrdinary segment ∧ '/' ∉ segment := by
  rcases mem_of_foldlM_push? leads member with nowhere | ⟨inPath, ordinary⟩
  · cases nowhere
  · exact ⟨ordinary, Text.not_mem_of_mem_splitOn inPath⟩

/-- The segments of a normal form are those that the path leads along. -/
theorem splitOn_of_row? {path : Text} {segments : List Text}
    (leads : row? path = some segments) (filled : segments ≠ []) :
    Text.splitOn '/' (Text.join ['/'] segments.reverse) = segments.reverse := by
  apply Text.splitOn_join fun empty => filled (List.reverse_eq_nil_iff.mp empty)
  intro segment member
  exact (isOrdinary_of_row? leads (List.mem_reverse.mp member)).2

/-- A normal form is normal, unless nothing is left of the path. -/
theorem isNormal_of_normalize? {path found : Text}
    (normalized : normalize? path = some found) :
    found = [] ∨ IsNormal found := by
  obtain ⟨segments, leads, rfl⟩ := Option.map_eq_some_iff.mp normalized
  by_cases empty : segments = []
  · rw [empty]
    exact .inl rfl
  · right
    rw [IsNormal, splitOn_of_row? leads empty]
    exact fun segment member =>
      (isOrdinary_of_row? leads (List.mem_reverse.mp member)).1

/-! ## Directories -/

theorem directory_append {file : Text} (single : '/' ∉ file) (front : Text) :
    directory (front ++ '/' :: file) = front := by
  rw [directory, Text.splitLast?_append_cons single]
  rfl

end Path

end StyleAudit
