import StyleAudit.Proofs.Text.Pieces

/-!
# Parts of texts that are put together

A part of two texts put together stands in one of them or reaches from the first
into the second.  So a part without a character that keeps the texts apart
stands in one of them, and a pair of two characters reaches across only if the
texts end and begin with them.
-/

namespace StyleAudit

namespace Text

theorem isInfix_append_iff {part front back : Text} :
    part <:+: front ++ back ↔
      part <:+: front ∨ part <:+: back ∨
        ∃ left right, part = left ++ right ∧ left <:+ front ∧
          right <+: back := by
  constructor
  · rintro ⟨before, behind, whole⟩
    rw [List.append_assoc] at whole
    rcases List.append_eq_append_iff.mp whole with
      ⟨rest, rfl, inside⟩ | ⟨rest, rfl, rfl⟩
    · rcases List.append_eq_append_iff.mp inside with
        ⟨more, rfl, rfl⟩ | ⟨more, rfl, rfl⟩
      · exact .inl ⟨before, more, List.append_assoc _ _ _⟩
      · exact .inr (.inr ⟨rest, more, rfl, ⟨before, rfl⟩, ⟨behind, rfl⟩⟩)
    · exact .inr (.inl ⟨rest, behind, List.append_assoc _ _ _⟩)
  · rintro (inFront | inBack | ⟨left, right, rfl, ⟨before, rfl⟩, ⟨behind, rfl⟩⟩)
    · exact inFront.trans (List.prefix_append front back).isInfix
    · exact inBack.trans (List.suffix_append front back).isInfix
    · exact ⟨before, behind, by simp⟩

theorem isInfix_of_isInfix_append_cons {part front back : Text} {c : Char}
    (clean : c ∉ part) (inside : part <:+: front ++ c :: back) :
    part <:+: front ∨ part <:+: back := by
  rcases isInfix_append_iff.mp inside with
    inFront | inBack | ⟨left, right, rfl, inFront, across⟩
  · exact .inl inFront
  · rcases List.infix_cons_iff.mp inBack with here | later
    · cases part with
      | nil => exact .inl List.nil_infix
      | cons d part =>
          exact (clean
            ((List.cons_prefix_cons.mp here).1 ▸ List.mem_cons_self)).elim
    · exact .inr later
  · cases right with
    | nil =>
        rw [List.append_nil]
        exact .inl inFront.isInfix
    | cons d right =>
        obtain ⟨rfl, -⟩ := List.cons_prefix_cons.mp across
        exact (clean (List.mem_append_right _ List.mem_cons_self)).elim

/-- A piece of a joined text stands in it. -/
theorem isInfix_join_of_mem {between piece : Text} {pieces : List Text}
    (member : piece ∈ pieces) : piece <:+: join between pieces := by
  fun_induction join between pieces with
  | case1 => cases member
  | case2 only =>
      obtain rfl := List.mem_singleton.mp member
      exact List.infix_refl piece
  | case3 first next pieces ih =>
      rcases List.mem_cons.mp member with rfl | later
      · rw [List.append_assoc]
        exact (List.prefix_append _ _).isInfix
      · exact (ih later).trans (List.suffix_append _ _).isInfix

/-- A part without the mark stands in one of the pieces. -/
theorem exists_of_isInfix_join {mark : Char} {part : Text} {pieces : List Text}
    (nonempty : pieces ≠ []) (clean : mark ∉ part)
    (inside : part <:+: join [mark, mark] pieces) :
    ∃ piece ∈ pieces, part <:+: piece := by
  fun_induction join [mark, mark] pieces with
  | case1 => exact (nonempty rfl).elim
  | case2 piece => exact ⟨piece, List.mem_cons_self, inside⟩
  | case3 piece next pieces ih =>
      rw [List.append_assoc] at inside
      rcases isInfix_of_isInfix_append_cons clean inside with here | later
      · exact ⟨piece, List.mem_cons_self, here⟩
      · obtain ⟨other, member, found⟩ : ∃ other ∈ next :: pieces,
          part <:+: other := by
          rcases @isInfix_of_isInfix_append_cons part [] _ mark clean later with
            nothing | later
          · rw [List.infix_nil.mp nothing]
            exact ⟨next, List.mem_cons_self, List.nil_infix⟩
          · exact ih (List.cons_ne_nil _ _) later
        exact ⟨other, List.mem_cons_of_mem _ member, found⟩

/-! ### Pairs -/

theorem pair_isInfix_append_iff {a b : Char} {front back : Text} :
    [a, b] <:+: front ++ back ↔
      [a, b] <:+: front ∨ [a, b] <:+: back ∨ [a] <:+ front ∧ [b] <+: back := by
  rw [isInfix_append_iff]
  constructor
  · rintro (inFront | inBack | ⟨left, right, parts, inFront, inBack⟩)
    · exact .inl inFront
    · exact .inr (.inl inBack)
    · match left, right with
      | [], right =>
          obtain rfl := parts
          exact .inr (.inl inBack.isInfix)
      | [c], right =>
          obtain ⟨rfl, rfl⟩ := List.cons.inj parts
          exact .inr (.inr ⟨inFront, inBack⟩)
      | c :: d :: left, right =>
          simp only [List.cons_append, List.cons.injEq, List.nil_eq,
            List.append_eq_nil_iff]
            at parts
          obtain ⟨rfl, rfl, rfl, -⟩ := parts
          exact .inl inFront.isInfix
  · rintro (inFront | inBack | ⟨inFront, inBack⟩)
    · exact .inl inFront
    · exact .inr (.inl inBack)
    · exact .inr (.inr ⟨[a], [b], rfl, inFront, inBack⟩)

/-- A character that is not in the pair keeps two texts apart. -/
theorem pair_isInfix_append_cons_iff {a b c : Char} (notFirst : c ≠ a)
    (notSecond : c ≠ b) {front back : Text} :
    [a, b] <:+: front ++ c :: back ↔ [a, b] <:+: front ∨ [a, b] <:+: back := by
  constructor
  · apply isInfix_of_isInfix_append_cons
    simp [notFirst, notSecond]
  · rintro (inFront | inBack)
    · exact inFront.trans (List.prefix_append front _).isInfix
    · exact inBack.trans
        ((List.suffix_cons c back).trans (List.suffix_append front _)).isInfix

/-- A pair of two different characters stands in one of the pieces, unless it
begins at the end of a piece or ends at the beginning of one. -/
theorem exists_of_pair_isInfix_join {mark a b : Char} {pieces : List Text}
    (different : a ≠ b) (nonempty : ∀ piece ∈ pieces, piece ≠ [])
    (ends : ∀ piece ∈ pieces, ¬ [a] <:+ piece)
    (begins : ∀ piece ∈ pieces, ¬ [b] <+: piece)
    (inside : [a, b] <:+: join [mark, mark] pieces) :
    ∃ piece ∈ pieces, [a, b] <:+: piece := by
  fun_induction join [mark, mark] pieces with
  | case1 => simp at inside
  | case2 piece => exact ⟨piece, List.mem_cons_self, inside⟩
  | case3 piece next pieces ih =>
      rw [List.append_assoc] at inside
      rcases pair_isInfix_append_iff.mp inside with here | later | ⟨across, -⟩
      · exact ⟨piece, List.mem_cons_self, here⟩
      · have restBegins : ¬ [b] <+: join [mark, mark] (next :: pieces) := by
          rw [join_cons_eq_flatMap]
          intro first
          obtain ⟨c, more, rfl⟩ := List.exists_cons_of_ne_nil
            (nonempty next (List.mem_cons_of_mem _ List.mem_cons_self))
          have same := (List.cons_prefix_cons.mp first).1
          exact begins _ (List.mem_cons_of_mem _ List.mem_cons_self)
            ⟨more, same ▸ rfl⟩
        have inRest : [a, b] <:+: join [mark, mark] (next :: pieces) := by
          rcases pair_isInfix_append_iff.mp later with
            inMarks | inRest | ⟨-, across⟩
          · have same := inMarks.eq_of_length rfl
            simp only [List.cons.injEq] at same
            exact (different (same.1.trans same.2.1.symm)).elim
          · exact inRest
          · exact (restBegins across).elim
        obtain ⟨other, member, found⟩ := ih
          (fun other member => nonempty other (List.mem_cons_of_mem _ member))
          (fun other member => ends other (List.mem_cons_of_mem _ member))
          (fun other member => begins other (List.mem_cons_of_mem _ member))
          inRest
        exact ⟨other, List.mem_cons_of_mem _ member, found⟩
      · exact (ends piece List.mem_cons_self across).elim

end Text

end StyleAudit
