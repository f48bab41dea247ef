import StyleAudit.Proofs.Text.Ends
import StyleAudit.Proofs.Text.Parts

/-!
# Texts that close no comment

A comment ends at the first star with a slash behind it.  A text without such a
pair can stand in a comment, and putting texts together makes no pair as long as
another character stands between them.
-/

namespace StyleAudit

namespace Text

/-- The text holds no closing mark of a comment. -/
def Unclosed (text : Text) : Prop :=
  ¬ ['*', '/'] <:+: text

instance (text : Text) : Decidable (Unclosed text) :=
  inferInstanceAs (Decidable (¬ ['*', '/'] <:+: text))

theorem unclosed_nil : Unclosed [] := by
  decide

theorem unclosed_of_not_mem {text : Text} (noStar : '*' ∉ text) :
    Unclosed text :=
  fun closing => noStar (closing.subset List.mem_cons_self)

theorem Unclosed.of_isInfix {text part : Text} (unclosed : Unclosed text)
    (inside : part <:+: text) : Unclosed part :=
  fun closing => unclosed (closing.trans inside)

theorem Unclosed.endsWith_eq_false {text : Text} (unclosed : Unclosed text) :
    endsWith ['*', '/'] text = false := by
  rw [← Bool.not_eq_true, endsWith_iff]
  exact fun closing => unclosed closing.isInfix

theorem unclosed_cons {c : Char} (noStar : c ≠ '*') {rest : Text} :
    Unclosed (c :: rest) ↔ Unclosed rest := by
  simp [Unclosed, List.infix_cons_iff, Ne.symm noStar]

/-- A character that is no part of the mark keeps two texts apart. -/
theorem unclosed_append_cons {c : Char} (noStar : c ≠ '*') (noSlash : c ≠ '/')
    {left right : Text} : Unclosed (left ++ c :: right) ↔ Unclosed left ∧
    Unclosed right := by
  rw [Unclosed, pair_isInfix_append_cons_iff noStar noSlash, not_or,
    Unclosed, Unclosed]

theorem unclosed_join {c : Char} (noStar : c ≠ '*') (noSlash : c ≠ '/')
    {pieces : List Text} :
    Unclosed (join [c] pieces) ↔ ∀ piece ∈ pieces, Unclosed piece := by
  fun_induction join [c] pieces with
  | case1 => simp [unclosed_nil]
  | case2 piece => simp
  | case3 piece next pieces ih =>
      rw [List.append_assoc, List.singleton_append,
        unclosed_append_cons noStar noSlash, ih,
        List.forall_mem_cons (l := next :: pieces)]

theorem isInfix_of_mem_splitOn {mark : Char} {text piece : Text}
    (member : piece ∈ splitOn mark text) : piece <:+: text := by
  have inside : piece <:+: join [mark] (splitOn mark text) :=
    isInfix_join_of_mem member
  rwa [join_splitOn] at inside

end Text

end StyleAudit
