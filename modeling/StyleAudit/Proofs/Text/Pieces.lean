import StyleAudit.Text.Basic

/-!
# Cutting texts into pieces and putting them together

Cutting at a character and joining with it undo each other, as long as no piece
holds the character.
-/

namespace StyleAudit

namespace Text

variable {mark : Char}

theorem splitOn_of_not_mem {piece : Text} (clean : mark ∉ piece) :
    splitOn mark piece = [piece] := by
  induction piece with
  | nil => rfl
  | cons c rest ih =>
      have different := List.ne_of_not_mem_cons clean
      have restClean := List.not_mem_of_not_mem_cons clean
      rw [splitOn, if_neg (Ne.symm different), ih restClean]
      rfl

private theorem splitOn_append_cons {piece : Text} (clean : mark ∉ piece)
    (rest : Text) :
    splitOn mark (piece ++ mark :: rest) = piece :: splitOn mark rest := by
  induction piece with
  | nil => rw [List.nil_append, splitOn, if_pos rfl]
  | cons c others ih =>
      have different := List.ne_of_not_mem_cons clean
      have othersClean := List.not_mem_of_not_mem_cons clean
      rw [List.cons_append, splitOn, if_neg (Ne.symm different), ih othersClean]
      rfl

theorem splitOn_join {pieces : List Text} (nonempty : pieces ≠ [])
    (clean : ∀ piece ∈ pieces, mark ∉ piece) :
    splitOn mark (join [mark] pieces) = pieces := by
  fun_induction join [mark] pieces with
  | case1 => exact (nonempty rfl).elim
  | case2 piece => exact splitOn_of_not_mem (clean piece List.mem_cons_self)
  | case3 piece next pieces ih =>
      have later := ih (List.cons_ne_nil next pieces) fun other member =>
        clean other (List.mem_cons_of_mem piece member)
      rw [List.append_assoc, List.singleton_append,
        splitOn_append_cons (clean piece List.mem_cons_self), later]

theorem splitOn_ne_nil (text : Text) : splitOn mark text ≠ [] := by
  cases text with
  | nil => exact List.cons_ne_nil _ _
  | cons c rest =>
      rw [splitOn]
      split
      · exact List.cons_ne_nil _ _
      · cases splitOn mark rest <;> exact List.cons_ne_nil _ _

theorem not_mem_of_mem_splitOn {text piece : Text}
    (member : piece ∈ splitOn mark text) : mark ∉ piece := by
  induction text generalizing piece with
  | nil =>
      rw [List.mem_singleton.mp member]
      exact List.not_mem_nil
  | cons c rest ih =>
      rw [splitOn] at member
      split at member
      · rcases List.mem_cons.mp member with rfl | later
        · exact List.not_mem_nil
        · exact ih later
      · rename_i other
        cases pieces : splitOn mark rest with
        | nil => exact (splitOn_ne_nil rest pieces).elim
        | cons first others =>
            rw [pieces, consFirst] at member
            rcases List.mem_cons.mp member with rfl | later
            · have clean := ih (pieces ▸ List.mem_cons_self)
              rw [List.mem_cons, not_or]
              exact ⟨Ne.symm other, clean⟩
            · exact ih (pieces ▸ List.mem_cons_of_mem first later)

theorem splitOn_append (left right : Text) :
    splitOn mark (left ++ mark :: right) =
      splitOn mark left ++ splitOn mark right := by
  induction left with
  | nil => simp [splitOn]
  | cons c rest ih =>
      rw [List.cons_append, splitOn, splitOn, ih]
      split
      · rfl
      · obtain ⟨piece, pieces, filled⟩ :=
          List.exists_cons_of_ne_nil (splitOn_ne_nil rest)
        rw [filled]
        rfl

theorem splitOn_append_front {front : Text} (clean : mark ∉ front)
    {text first : Text} {others : List Text}
    (split : splitOn mark text = first :: others) :
    splitOn mark (front ++ text) = (front ++ first) :: others := by
  induction front with
  | nil => exact split
  | cons c front ih =>
      have different := List.ne_of_not_mem_cons clean
      rw [List.cons_append, splitOn, if_neg (Ne.symm different),
        ih (List.not_mem_of_not_mem_cons clean)]
      rfl

theorem length_splitOn (text : Text) :
    (splitOn mark text).length = text.count mark + 1 := by
  induction text with
  | nil => rfl
  | cons c rest ih =>
      rw [splitOn]
      split
      · rename_i same
        rw [List.length_cons, ih, same, List.count_cons_self]
      · rename_i other
        obtain ⟨piece, pieces, filled⟩ :=
          List.exists_cons_of_ne_nil (splitOn_ne_nil rest)
        rw [List.count_cons_of_ne other, ← ih, filled]
        rfl

theorem join_consFirst (between : Text) (c : Char) {pieces : List Text}
    (nonempty : pieces ≠ []) :
    join between (consFirst c pieces) = c :: join between pieces := by
  match pieces with
  | [] => exact (nonempty rfl).elim
  | [piece] => rfl
  | piece :: next :: others => rfl

theorem join_cons (between piece : Text) {pieces : List Text}
    (nonempty : pieces ≠ []) :
    join between (piece :: pieces) =
      piece ++ between ++ join between pieces := by
  match pieces with
  | [] => exact (nonempty rfl).elim
  | next :: others => rfl

theorem join_cons_eq_flatMap (between piece : Text) (pieces : List Text) :
    join between (piece :: pieces) =
      piece ++ pieces.flatMap (between ++ ·) := by
  induction pieces generalizing piece with
  | nil => rw [join, List.flatMap_nil, List.append_nil]
  | cons next pieces ih =>
      rw [join, ih, List.flatMap_cons]
      simp only [List.append_assoc]

theorem join_splitOn (text : Text) :
    join [mark] (splitOn mark text) = text := by
  induction text with
  | nil => rfl
  | cons c rest ih =>
      rw [splitOn]
      split
      · rename_i same
        rw [join_cons _ _ (splitOn_ne_nil rest), ih, same]
        rfl
      · rw [join_consFirst _ _ (splitOn_ne_nil rest), ih]

theorem splitOn_append_back {back : Text} (clean : mark ∉ back)
    {text last : Text} {others : List Text}
    (split : splitOn mark text = others ++ [last]) :
    splitOn mark (text ++ back) = others ++ [last ++ back] := by
  have inText : ∀ piece ∈ others ++ [last], mark ∉ piece := fun piece member =>
    not_mem_of_mem_splitOn (split ▸ member)
  have whole : text ++ back = join [mark] (others ++ [last ++ back]) := by
    rw [← join_splitOn text, split]
    cases others with
    | nil => rfl
    | cons first others =>
        simp only [List.cons_append, join_cons_eq_flatMap, List.flatMap_append,
          List.flatMap_cons, List.flatMap_nil, List.append_assoc,
          List.append_nil]
  rw [whole]
  apply splitOn_join (by simp)
  intro piece member
  rcases List.mem_append.mp member with inOthers | isLast
  · exact inText piece (List.mem_append_left _ inOthers)
  · rw [List.mem_singleton.mp isLast, List.mem_append, not_or]
    exact ⟨inText last (by simp), clean⟩

end Text

end StyleAudit
