import StyleAudit.Text.Basic

/-!
# Character boundaries

Offsets count bytes, and not every byte begins a character.  An offset is on a
boundary when some beginning of the text has that many bytes.
-/

namespace StyleAudit

namespace Text

/-- Does a character of the text, or its end, stand at this offset? -/
def IsBoundary (text : Text) (offset : Nat) : Prop :=
  ∃ front, front <+: text ∧ byteSize front = offset

theorem byteSize_pos_of_ne_nil {text : Text} (filled : text ≠ []) :
    0 < byteSize text := by
  cases text with
  | nil => exact (filled rfl).elim
  | cons c rest =>
      have positive : 0 < c.utf8Size := Char.utf8Size_pos c
      rw [byteSize_cons]
      omega

theorem byteSize_le_of_isPrefix {front text : Text} (begins : front <+: text) :
    byteSize front ≤ byteSize text := by
  obtain ⟨rest, rfl⟩ := begins
  rw [byteSize_append]
  exact Nat.le_add_right _ _

theorem byteSize_lt_of_isPrefix {front text : Text} (begins : front <+: text)
    (shorter : front.length < text.length) :
    byteSize front < byteSize text := by
  obtain ⟨rest, rfl⟩ := begins
  have someText : 0 < byteSize rest := by
    apply byteSize_pos_of_ne_nil
    intro empty
    simp [empty] at shorter
  rw [byteSize_append]
  omega

theorem IsBoundary.le {text : Text} {offset : Nat}
    (boundary : IsBoundary text offset) : offset ≤ byteSize text := by
  obtain ⟨front, begins, rfl⟩ := boundary
  exact byteSize_le_of_isPrefix begins

/-- The first character of a text takes at least one byte. -/
theorem byteSize_cons_eq_succ (c : Char) (rest : Text) :
    ∃ count, byteSize (c :: rest) = count + 1 ∧ count + 1 - c.utf8Size =
      byteSize rest := by
  have positive : 0 < c.utf8Size := Char.utf8Size_pos c
  refine ⟨c.utf8Size + byteSize rest - 1, ?_, ?_⟩
  · rw [byteSize_cons]
    omega
  · omega

private theorem dropBytes_append (front back : Text) :
    dropBytes (byteSize front) (front ++ back) = back := by
  induction front with
  | nil => rw [byteSize_nil, List.nil_append, dropBytes]
  | cons c front ih =>
      obtain ⟨count, size, left⟩ := byteSize_cons_eq_succ c front
      rw [size, List.cons_append, dropBytes, left, ih]

private theorem takeBytes_append (text back : Text) :
    takeBytes (byteSize text) (text ++ back) = text := by
  induction text with
  | nil => rw [byteSize_nil, List.nil_append, takeBytes]
  | cons c text ih =>
      obtain ⟨count, size, left⟩ := byteSize_cons_eq_succ c text
      rw [size, List.cons_append, takeBytes, left, ih]

/-- Cutting a text at two boundaries gives what stands between them. -/
theorem slice_append (front text back : Text) :
    slice (byteSize front) (byteSize (front ++ text)) (front ++ text ++ back) =
      text := by
  have size : byteSize (front ++ text) - byteSize front = byteSize text := by
    rw [byteSize_append, Nat.add_sub_cancel_left]
  rw [slice, size, List.append_assoc, dropBytes_append, takeBytes_append]

end Text

end StyleAudit
