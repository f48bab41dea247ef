import StyleAudit.Proofs.Text.Parts

/-!
# Cutting texts at a doubled character

Cutting goes from the left, so a run of three marks is cut behind its second
one.  Joining undoes the cut in any case.  The cut undoes joining when no piece
holds the mark twice in a row or ends with it; the last piece may end with it.
-/

namespace StyleAudit

namespace Text

variable {mark : Char}

/-- The mark never stands twice in a row. -/
def Undoubled (mark : Char) (text : Text) : Prop :=
  ¬ [mark, mark] <:+: text

theorem undoubled_of_not_mem {text : Text} (absent : mark ∉ text) :
    Undoubled mark text := by
  intro doubled
  exact absent (doubled.subset List.mem_cons_self)

theorem undoubled_singleton (c : Char) : Undoubled mark [c] := by
  intro doubled
  have short := doubled.length_le
  simp at short

theorem Undoubled.of_isInfix {part text : Text}
    (undoubled : Undoubled mark text) (inside : part <:+: text) :
    Undoubled mark part := by
  intro doubled
  exact undoubled (doubled.trans inside)

theorem Undoubled.cons {c : Char} {rest : Text}
    (undoubled : Undoubled mark rest) (other : c ≠ mark) :
    Undoubled mark (c :: rest) := by
  intro doubled
  rcases List.infix_cons_iff.mp doubled with here | later
  · exact other (List.cons_prefix_cons.mp here).1.symm
  · exact undoubled later

/-- A single mark between two texts. -/
theorem Undoubled.append_cons {front back : Text}
    (undoubled : Undoubled mark back) (absent : mark ∉ front)
    (single : ¬ [mark] <+: back) :
    Undoubled mark (front ++ mark :: back) := by
  induction front with
  | nil =>
      intro doubled
      rcases List.infix_cons_iff.mp doubled with here | later
      · exact single (List.cons_prefix_cons.mp here).2
      · exact undoubled later
  | cons c front ih =>
      have later := ih (List.not_mem_of_not_mem_cons absent)
      exact later.cons (Ne.symm (List.ne_of_not_mem_cons absent))

theorem undoubled_cons_cons_iff {c d : Char} {rest : Text} :
    Undoubled mark (c :: d :: rest) ↔
      ¬ (c = mark ∧ d = mark) ∧ Undoubled mark (d :: rest) := by
  rw [Undoubled, List.infix_cons_iff, List.cons_prefix_cons,
    List.cons_prefix_cons, not_or, eq_comm, @eq_comm _ mark d]
  simp [Undoubled]

/-- Pieces that hold no doubled mark, with something else between them. -/
theorem undoubled_join {between : Text} {pieces : List Text}
    (apart : between ≠ []) (clean : mark ∉ between)
    (undoubled : ∀ piece ∈ pieces, Undoubled mark piece) :
    Undoubled mark (join between pieces) := by
  fun_induction join between pieces with
  | case1 => exact undoubled_of_not_mem List.not_mem_nil
  | case2 piece => exact undoubled piece List.mem_cons_self
  | case3 piece next pieces ih =>
      have later :=
        ih fun other member => undoubled other (List.mem_cons_of_mem _ member)
      intro doubled
      rcases pair_isInfix_append_iff.mp doubled with
        inFront | inBack | ⟨ends, -⟩
      · rcases pair_isInfix_append_iff.mp inFront with
          here | inBetween | ⟨-, begins⟩
        · exact undoubled piece List.mem_cons_self here
        · exact clean (inBetween.subset List.mem_cons_self)
        · exact clean (begins.subset List.mem_cons_self)
      · exact later inBack
      · obtain ⟨last, ended⟩ := List.getLast?_isSome.mpr apart |>
          Option.isSome_iff_exists.mp
        have same : last = mark := by
          have atEnd :=
            List.getLast?_eq_some_iff.mpr (ends.imp fun _ => Eq.symm)
          rw [List.getLast?_append, ended, Option.some_or] at atEnd
          exact Option.some.inj atEnd
        exact clean (same ▸ List.mem_of_getLast? ended)

theorem splitOnDouble_ne_nil (text : Text) : splitOnDouble mark text ≠ [] := by
  fun_cases splitOnDouble mark text with
  | case1 => exact List.cons_ne_nil _ _
  | case2 c => exact List.cons_ne_nil _ _
  | case3 c d rest doubled => exact List.cons_ne_nil _ _
  | case4 c d rest single =>
      cases splitOnDouble mark (d :: rest) with
      | nil => exact List.cons_ne_nil _ _
      | cons piece pieces => exact List.cons_ne_nil _ _

theorem exists_splitOnDouble_eq_cons (mark : Char) (text : Text) :
    ∃ piece pieces, splitOnDouble mark text = piece :: pieces :=
  List.exists_cons_of_ne_nil (splitOnDouble_ne_nil text)

theorem splitOnDouble_cons {c : Char} {rest : Text}
    (single : ¬ (c = mark ∧ [mark] <+: rest)) :
    splitOnDouble mark (c :: rest) = consFirst c (splitOnDouble mark rest) := by
  cases rest with
  | nil => rfl
  | cons d rest =>
      rw [splitOnDouble, if_neg]
      rintro ⟨first, rfl⟩
      exact single ⟨first, rest, rfl⟩

theorem splitOnDouble_cons_of_ne {c : Char} (other : c ≠ mark) (rest : Text) :
    splitOnDouble mark (c :: rest) = consFirst c (splitOnDouble mark rest) :=
  splitOnDouble_cons fun doubled => other doubled.1

/-- Nothing is lost by cutting. -/
theorem join_splitOnDouble (mark : Char) (text : Text) :
    join [mark, mark] (splitOnDouble mark text) = text := by
  fun_induction splitOnDouble mark text with
  | case1 => rfl
  | case2 c => rfl
  | case3 c d rest doubled ih =>
      obtain ⟨rfl, rfl⟩ := doubled
      rw [join_cons _ _ (splitOnDouble_ne_nil rest), ih]
      rfl
  | case4 c d rest single ih =>
      rw [join_consFirst _ _ (splitOnDouble_ne_nil (d :: rest)), ih]

theorem isPrefix_of_splitOnDouble {text piece : Text} {pieces : List Text}
    (cut : splitOnDouble mark text = piece :: pieces) : piece <+: text := by
  have whole := join_splitOnDouble mark text
  rw [cut, join_cons_eq_flatMap] at whole
  exact ⟨_, whole⟩

theorem undoubled_of_mem_splitOnDouble {text piece : Text}
    (member : piece ∈ splitOnDouble mark text) : Undoubled mark piece := by
  fun_induction splitOnDouble mark text generalizing piece with
  | case1 =>
      rw [List.mem_singleton.mp member]
      exact undoubled_of_not_mem List.not_mem_nil
  | case2 c =>
      rw [List.mem_singleton.mp member]
      exact undoubled_singleton c
  | case3 c d rest doubled ih =>
      rcases List.mem_cons.mp member with rfl | later
      · exact undoubled_of_not_mem List.not_mem_nil
      · exact ih later
  | case4 c d rest single ih =>
      cases cut : splitOnDouble mark (d :: rest) with
      | nil => exact (splitOnDouble_ne_nil _ cut).elim
      | cons first others =>
          rw [cut] at member ih
          rcases List.mem_cons.mp member with rfl | later
          · have begins := isPrefix_of_splitOnDouble cut
            cases first with
            | nil => exact undoubled_singleton c
            | cons e more =>
                obtain ⟨rfl, -⟩ := List.cons_prefix_cons.mp begins
                exact undoubled_cons_cons_iff.mpr
                  ⟨single, ih List.mem_cons_self⟩
          · exact ih (List.mem_cons_of_mem first later)

theorem isInfix_of_mem_splitOnDouble {text piece : Text}
    (member : piece ∈ splitOnDouble mark text) : piece <:+: text := by
  have inside : piece <:+: join [mark, mark] (splitOnDouble mark text) :=
    isInfix_join_of_mem member
  rwa [join_splitOnDouble] at inside

theorem splitOnDouble_of_undoubled {text : Text}
    (undoubled : Undoubled mark text) :
    splitOnDouble mark text = [text] := by
  fun_induction splitOnDouble mark text with
  | case1 => rfl
  | case2 c => rfl
  | case3 c d rest doubled ih =>
      exact ((undoubled_cons_cons_iff.mp undoubled).1 doubled).elim
  | case4 c d rest single ih =>
      rw [ih (undoubled_cons_cons_iff.mp undoubled).2]
      rfl

/-- A piece that may stand in front of a doubled mark: it neither holds one nor
reaches into it. -/
structure Cuttable (mark : Char) (piece : Text) : Prop where
  undoubled : Undoubled mark piece
  notLast : ¬ [mark] <:+ piece

theorem cuttable_of_not_mem {piece : Text} (absent : mark ∉ piece) :
    Cuttable mark piece := by
  constructor
  · exact undoubled_of_not_mem absent
  · intro ends
    exact absent (ends.subset List.mem_cons_self)

theorem splitOnDouble_append_of_not_isSuffix {front : Text}
    (notLast : ¬ [mark] <:+ front) (back : Text) :
    splitOnDouble mark (front ++ mark :: mark :: back) =
      splitOnDouble mark front ++ splitOnDouble mark back := by
  fun_induction splitOnDouble mark front with
  | case1 =>
      rw [List.nil_append, splitOnDouble, if_pos ⟨rfl, rfl⟩,
        List.singleton_append]
  | case2 c =>
      have other : ¬ (c = mark ∧ mark = mark) := by
        rintro ⟨rfl, -⟩
        exact notLast (List.suffix_refl _)
      have later : splitOnDouble mark (mark :: mark :: back) =
          [] :: splitOnDouble mark back := by
        rw [splitOnDouble, if_pos ⟨rfl, rfl⟩]
      rw [List.singleton_append, splitOnDouble, if_neg other, later]
      rfl
  | case3 c d rest doubled ih =>
      have restNotLast : ¬ [mark] <:+ rest := fun ends =>
        notLast (ends.trans (List.suffix_append [c, d] rest))
      rw [List.cons_append, List.cons_append, splitOnDouble, if_pos doubled,
        ih restNotLast, List.cons_append]
  | case4 c d rest single ih =>
      have restNotLast : ¬ [mark] <:+ d :: rest := fun ends =>
        notLast (ends.trans (List.suffix_cons c _))
      have later := ih restNotLast
      rw [List.cons_append] at later
      rw [List.cons_append, List.cons_append, splitOnDouble,
        if_neg single, later]
      obtain ⟨piece, pieces, filled⟩ :=
        exists_splitOnDouble_eq_cons mark (d :: rest)
      rw [filled]
      rfl

theorem splitOnDouble_append {piece : Text} (cuttable : Cuttable mark piece)
    (rest : Text) :
    splitOnDouble mark (piece ++ mark :: mark :: rest) =
      piece :: splitOnDouble mark rest := by
  rw [splitOnDouble_append_of_not_isSuffix cuttable.notLast,
    splitOnDouble_of_undoubled cuttable.undoubled, List.singleton_append]

/-! ### What a cut looks like -/

/-- Pieces as a cut leaves them: none holds a doubled mark, and only the last
may end with the mark. -/
structure IsCut (mark : Char) (pieces : List Text) : Prop where
  nonempty : pieces ≠ []
  undoubled : ∀ piece ∈ pieces, Undoubled mark piece
  notLast : ∀ piece ∈ pieces.dropLast, ¬ [mark] <:+ piece

theorem not_isSuffix_of_mem_dropLast_splitOnDouble {text piece : Text}
    (member : piece ∈ (splitOnDouble mark text).dropLast) :
    ¬ [mark] <:+ piece := by
  fun_induction splitOnDouble mark text generalizing piece with
  | case1 => exact (List.not_mem_nil member).elim
  | case2 c => exact (List.not_mem_nil member).elim
  | case3 c d rest doubled ih =>
      rw [List.dropLast_cons_of_ne_nil (splitOnDouble_ne_nil rest)] at member
      rcases List.mem_cons.mp member with rfl | later
      · simp
      · exact ih later
  | case4 c d rest single ih =>
      have whole := join_splitOnDouble mark (d :: rest)
      obtain ⟨first, others, cut⟩ :=
        exists_splitOnDouble_eq_cons mark (d :: rest)
      rw [cut] at member ih whole
      rw [consFirst] at member
      cases others with
      | nil => exact (List.not_mem_nil member).elim
      | cons next others =>
          rw [List.dropLast_cons_of_ne_nil (List.cons_ne_nil _ _)] at member ih
          rcases List.mem_cons.mp member with rfl | later
          · intro ends
            cases first with
            | nil =>
                obtain ⟨rfl, -⟩ := List.cons.inj whole
                have same : c = mark := by
                  simpa using ends.eq_of_length rfl |>.symm
                exact single ⟨same, rfl⟩
            | cons e more =>
                have shorter : [mark] <:+ e :: more := by
                  rcases List.suffix_cons_iff.mp ends with all | later
                  · cases all
                  · exact later
                exact ih List.mem_cons_self shorter
          · exact ih (List.mem_cons_of_mem first later)

theorem isCut_splitOnDouble (text : Text) :
    IsCut mark (splitOnDouble mark text) where
  nonempty := splitOnDouble_ne_nil text
  undoubled _ := undoubled_of_mem_splitOnDouble
  notLast _ := not_isSuffix_of_mem_dropLast_splitOnDouble

/-- Where no piece but the last ends with the mark, each piece is cut by
itself. -/
theorem splitOnDouble_join_eq_flatMap {pieces : List Text}
    (nonempty : pieces ≠ [])
    (notLast : ∀ piece ∈ pieces.dropLast, ¬ [mark] <:+ piece) :
    splitOnDouble mark (join [mark, mark] pieces) =
      pieces.flatMap (splitOnDouble mark) := by
  fun_induction join [mark, mark] pieces with
  | case1 => exact (nonempty rfl).elim
  | case2 piece => rw [List.flatMap_cons, List.flatMap_nil, List.append_nil]
  | case3 piece next pieces ih =>
      rw [List.dropLast_cons_of_ne_nil (List.cons_ne_nil _ _)] at notLast
      have later := ih (List.cons_ne_nil next pieces) fun other member =>
        notLast other (List.mem_cons_of_mem piece member)
      rw [List.append_assoc, List.cons_append, List.singleton_append,
        splitOnDouble_append_of_not_isSuffix (notLast piece List.mem_cons_self),
        later]
      exact List.flatMap_cons.symm

theorem IsCut.splitOnDouble_join {pieces : List Text}
    (cut : IsCut mark pieces) :
    splitOnDouble mark (join [mark, mark] pieces) = pieces := by
  have single : ∀ piece ∈ pieces, splitOnDouble mark piece = [piece] :=
    fun piece member =>
    splitOnDouble_of_undoubled (cut.undoubled piece member)
  rw [splitOnDouble_join_eq_flatMap cut.nonempty cut.notLast, List.flatMap_def,
    List.map_congr_left single, ← List.flatMap_def, List.flatMap_singleton']

theorem splitOnDouble_join {pieces : List Text} (nonempty : pieces ≠ [])
    (cuttable : ∀ piece ∈ pieces, Cuttable mark piece) :
    splitOnDouble mark (join [mark, mark] pieces) = pieces := by
  apply IsCut.splitOnDouble_join
  exact
    { nonempty
      undoubled := fun piece member => (cuttable piece member).undoubled
      notLast := fun piece member =>
        (cuttable piece (List.dropLast_subset _ member)).notLast }

private theorem isSuffix_of_splitOnDouble {text last : Text} {front : List Text}
    (cut : splitOnDouble mark text = front ++ [last]) : last <:+ text := by
  rw [← join_splitOnDouble mark text, cut]
  cases front with
  | nil => exact List.suffix_refl last
  | cons piece front =>
      rw [List.cons_append, join_cons_eq_flatMap, List.flatMap_append,
        List.flatMap_singleton]
      exact (List.suffix_append [mark, mark] last).trans
        ((List.suffix_append _ _).trans (List.suffix_append _ _))

theorem not_isSuffix_of_mem_splitOnDouble {text piece : Text}
    (notLast : ¬ [mark] <:+ text) (member : piece ∈ splitOnDouble mark text) :
    ¬ [mark] <:+ piece := by
  rcases List.eq_nil_or_concat (splitOnDouble mark text) with
    nothing | ⟨front, last, cut⟩
  · exact (splitOnDouble_ne_nil text nothing).elim
  · rw [List.concat_eq_append] at cut
    rw [cut] at member
    rcases List.mem_append.mp member with inFront | isLast
    · apply @not_isSuffix_of_mem_dropLast_splitOnDouble mark text
      rw [cut, List.dropLast_concat]
      exact inFront
    · rw [List.mem_singleton.mp isLast]
      exact fun ends => notLast (ends.trans (isSuffix_of_splitOnDouble cut))

/-- The first piece begins as the text does, as far as a test that refuses the
mark can tell. -/
theorem any_head?_of_splitOnDouble {test : Char → Bool}
    (refused : test mark = false) {text piece : Text} {pieces : List Text}
    (cut : splitOnDouble mark text = piece :: pieces) :
    piece.head?.any test = text.head?.any test := by
  cases piece with
  | cons c more =>
      obtain ⟨rest, rfl⟩ := isPrefix_of_splitOnDouble cut
      rfl
  | nil =>
      cases text with
      | nil => rfl
      | cons c rest =>
          have isMark : c = mark := by
            refine Decidable.byContradiction fun other => ?_
            obtain ⟨first, others, filled⟩ :=
              exists_splitOnDouble_eq_cons mark rest
            rw [splitOnDouble_cons_of_ne other, filled] at cut
            cases cut
          rw [isMark, List.head?_cons, Option.any_some, refused]
          rfl

/-- How the pieces behind the first one begin: as the text goes on behind its
doubled marks. -/
theorem forall_tail_splitOnDouble_iff {test : Char → Bool}
    (refused : test mark = false) {text : Text} (notLast : ¬ [mark] <:+ text) :
    (∀ piece ∈ (splitOnDouble mark text).tail, piece.head?.any test = true) ↔
      ∀ c, [mark, mark, c] <:+: text → test c = true := by
  fun_induction splitOnDouble mark text with
  | case1 => simp
  | case2 c =>
      refine ⟨fun _ d inside => ?_,
        fun _ piece member => (List.not_mem_nil member).elim⟩
      have short := inside.length_le
      simp at short
  | case3 c d rest doubled ih =>
      obtain ⟨rfl, rfl⟩ := doubled
      have restNotLast : ¬ [d] <:+ rest := fun ends =>
        notLast (ends.trans (List.suffix_append [d, d] rest))
      obtain ⟨first, others, cut⟩ := exists_splitOnDouble_eq_cons d rest
      have later := ih restNotLast
      rw [cut, List.tail_cons] at later
      rw [List.tail_cons, cut, List.forall_mem_cons, later,
        any_head?_of_splitOnDouble refused cut]
      cases rest with
      | nil => exact (notLast ⟨[d], rfl⟩).elim
      | cons e more =>
          rw [List.head?_cons, Option.any_some]
          constructor
          · rintro ⟨accepted, inRest⟩ c inside
            rcases List.infix_cons_iff.mp inside with here | inside
            · simp only [List.cons_prefix_cons] at here
              rw [here.2.2.1]
              exact accepted
            · rcases List.infix_cons_iff.mp inside with here | inside
              · simp only [List.cons_prefix_cons] at here
                rw [← here.2.1, refused] at accepted
                cases accepted
              · exact inRest c inside
          · intro behind
            refine ⟨behind e ⟨[], more, rfl⟩, fun c inside => behind c ?_⟩
            exact inside.trans (List.suffix_append [d, d] _).isInfix
  | case4 c d rest single ih =>
      have restNotLast : ¬ [mark] <:+ d :: rest := fun ends =>
        notLast (ends.trans (List.suffix_cons c _))
      have sameTail : (consFirst c (splitOnDouble mark (d :: rest))).tail =
          (splitOnDouble mark (d :: rest)).tail := by
        obtain ⟨piece, pieces, filled⟩ :=
          exists_splitOnDouble_eq_cons mark (d :: rest)
        rw [filled]
        rfl
      rw [sameTail, ih restNotLast]
      refine forall_congr' fun e => imp_congr_left ?_
      rw [List.infix_cons_iff (a := c)]
      simp only [List.cons_prefix_cons, eq_comm (a := mark)]
      exact ⟨.inr,
        fun inside => inside.resolve_left fun here => single ⟨here.1, here.2.1⟩⟩

/-! ### How many pieces there are -/

theorem length_consFirst (c : Char) {pieces : List Text}
    (nonempty : pieces ≠ []) :
    (consFirst c pieces).length = pieces.length := by
  cases pieces with
  | nil => exact (nonempty rfl).elim
  | cons piece rest => rfl

private theorem length_splitOnDouble_pos (text : Text) :
    0 < (splitOnDouble mark text).length :=
  List.length_pos_iff.mpr (splitOnDouble_ne_nil text)

private theorem length_splitOnDouble_eq_one_iff {text : Text} :
    (splitOnDouble mark text).length = 1 ↔ Undoubled mark text := by
  constructor
  · intro single
    obtain ⟨piece, cut⟩ := List.length_eq_one_iff.mp single
    have whole := join_splitOnDouble mark text
    rw [cut, join] at whole
    obtain rfl := whole
    exact undoubled_of_mem_splitOnDouble (cut ▸ List.mem_cons_self)
  · intro undoubled
    rw [splitOnDouble_of_undoubled undoubled, List.length_singleton]

/-- Texts are cut into as many pieces as there are texts just if none of them is
cut. -/
theorem length_flatMap_splitOnDouble (texts : List Text) :
    texts.length ≤ (texts.flatMap (splitOnDouble mark)).length ∧
      ((texts.flatMap (splitOnDouble mark)).length = texts.length ↔
        ∀ text ∈ texts, Undoubled mark text) := by
  induction texts with
  | nil => simp
  | cons text texts ih =>
      obtain ⟨least, exactly⟩ := ih
      have positive := @length_splitOnDouble_pos mark text
      rw [List.flatMap_cons, List.length_append, List.length_cons,
        List.forall_mem_cons, ← exactly, ← length_splitOnDouble_eq_one_iff]
      constructor
      · omega
      · omega

/-- A further character in front makes at most one more piece, and none less. -/
theorem length_splitOnDouble_cons (c : Char) (text : Text) :
    (splitOnDouble mark text).length ≤ (splitOnDouble mark (c :: text)).length ∧
      (splitOnDouble mark (c :: text)).length ≤
        (splitOnDouble mark text).length + 1 := by
  induction text generalizing c with
  | nil => exact ⟨Nat.le_refl 1, Nat.le_succ 1⟩
  | cons d rest ih =>
      obtain ⟨least, most⟩ := ih d
      rw [splitOnDouble]
      split
      · rw [List.length_cons]
        omega
      · rw [length_consFirst c (splitOnDouble_ne_nil _)]
        omega

/-- Two texts together are cut at least where each of them is. -/
theorem length_splitOnDouble_append (front back : Text) :
    (splitOnDouble mark front).length + (splitOnDouble mark back).length ≤
      (splitOnDouble mark (front ++ back)).length + 1 := by
  fun_induction splitOnDouble mark front with
  | case1 => exact Nat.le_of_eq (Nat.add_comm _ _)
  | case2 c =>
      have least := (@length_splitOnDouble_cons mark c back).1
      rw [List.length_singleton, List.singleton_append]
      omega
  | case3 c d rest doubled ih =>
      rw [List.cons_append, List.cons_append, splitOnDouble, if_pos doubled,
        List.length_cons, List.length_cons]
      omega
  | case4 c d rest single ih =>
      rw [List.cons_append, List.cons_append, splitOnDouble, if_neg single,
        length_consFirst c (splitOnDouble_ne_nil _),
        length_consFirst c (splitOnDouble_ne_nil _)]
      exact ih

end Text

end StyleAudit
