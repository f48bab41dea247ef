import Mathlib.Logic.Basic
import StyleAudit.Proofs.Outcome
import StyleAudit.Proofs.Token.Gap
import StyleAudit.Proofs.Token.Layout

/-!
# A token with something else behind it

A construct that is closed ends with its own characters, and a word ends at the
next character that is no part of it.  So a token stays the same when the text
behind it is left out, or replaced by a text with the same first character or a
space in front.  Only a run of doc lines looks further, to the beginning of the
next line.
-/

namespace StyleAudit

namespace Token

variable {tail old new text : Text}

/-! ## Closed constructs -/

theorem commentLength_append {length : Nat}
    (closed : commentLength text = some length) (more : Text) :
    commentLength (text ++ more) = some length := by
  fun_induction commentLength text generalizing length with
  | case1 => cases closed
  | case2 rest => exact closed
  | case3 c rest notClosing ih =>
      obtain ⟨inner, innerClosed, rfl⟩ := Option.map_eq_some_iff.mp closed
      rw [List.cons_append, commentLength, ih innerClosed, Option.map_some]
      intro behind star slash
      cases rest with
      | nil => cases innerClosed
      | cons d rest =>
          rw [List.cons_append] at slash
          exact notClosing rest star (by rw [(List.cons.inj slash).1])

theorem stringLength_cons {quote c : Char} (unescaped : c ≠ '\\')
    (rest : Text) :
    stringLength quote (c :: rest) =
      if c = quote then some 1 else (stringLength quote rest).map (1 + ·) := by
  rw [stringLength]
  · exact fun same _ => unescaped same
  · exact fun _ _ same => (unescaped same).elim

theorem stringLength_append {quote : Char} {length : Nat}
    (closed : stringLength quote text = some length) (more : Text) :
    stringLength quote (text ++ more) = some length := by
  fun_induction stringLength quote text generalizing length with
  | case1 => cases closed
  | case2 => cases closed
  | case3 escaped rest ih =>
      obtain ⟨inner, innerClosed, rfl⟩ := Option.map_eq_some_iff.mp closed
      rw [List.cons_append, List.cons_append, stringLength, ih innerClosed,
        Option.map_some]
  | case4 rest notLast notEscape =>
      have unescaped : quote ≠ '\\' := by
        rintro rfl
        cases rest with
        | nil => exact notLast rfl rfl
        | cons d rest => exact notEscape d rest rfl rfl
      rw [List.cons_append, stringLength_cons unescaped, if_pos rfl, closed]
  | case5 c rest notLast notEscape other ih =>
      have unescaped : c ≠ '\\' := by
        rintro rfl
        cases rest with
        | nil => exact notLast rfl rfl
        | cons d rest => exact notEscape d rest rfl rfl
      obtain ⟨inner, innerClosed, rfl⟩ := Option.map_eq_some_iff.mp closed
      rw [List.cons_append, stringLength_cons unescaped, if_neg other,
        ih innerClosed, Option.map_some]

theorem parametersLength_append {depth : Nat} {quote : Option Char}
    {length : Nat} (closed : parametersLength depth quote text = .ok length)
    (more : Text) :
    parametersLength depth quote (text ++ more) = .ok length := by
  fun_induction parametersLength depth quote text generalizing length with
  | case1 => cases closed
  | case2 => cases closed
  | case3 depth mark escaped rest ih =>
      obtain ⟨inner, innerClosed, rfl⟩ := exists_ok_of_map closed
      simp [parametersLength, ih innerClosed, Except.map]
  | case4 depth c rest mark unescaped ih =>
      obtain ⟨inner, innerClosed, rfl⟩ := exists_ok_of_map closed
      rw [List.cons_append]
      unfold parametersLength
      simp [unescaped, ih innerClosed, Except.map]
  | case5 rest => simpa [parametersLength] using closed
  | case6 rest depth ih =>
      obtain ⟨inner, innerClosed, rfl⟩ := exists_ok_of_map closed
      simp [parametersLength, ih innerClosed, Except.map]
  | case7 depth rest _ ih =>
      obtain ⟨inner, innerClosed, rfl⟩ := exists_ok_of_map closed
      simp [parametersLength, ih innerClosed, Except.map]
  | case8 depth c rest notClosing notOpening ih =>
      obtain ⟨inner, innerClosed, rfl⟩ := exists_ok_of_map closed
      simp [parametersLength, notClosing, notOpening,
        ih innerClosed, Except.map]

theorem interpolationLength_append {depth length : Nat}
    (closed : interpolationLength depth text = some length) (more : Text) :
    interpolationLength depth (text ++ more) = some length := by
  fun_induction interpolationLength depth text generalizing length with
  | case1 => cases closed
  | case2 rest => simpa [interpolationLength] using closed
  | case3 rest depth ih =>
      obtain ⟨inner, innerClosed, rfl⟩ := Option.map_eq_some_iff.mp closed
      simp [interpolationLength, ih innerClosed]
  | case4 depth c rest other ih =>
      obtain ⟨inner, innerClosed, rfl⟩ := Option.map_eq_some_iff.mp closed
      simp [interpolationLength, other, ih innerClosed]

theorem commentLength_take {text : Text} {length : Nat}
    (closed : commentLength text = some length) :
    commentLength (text.take length) = some length := by
  fun_induction commentLength text generalizing length with
  | case1 => cases closed
  | case2 rest =>
      cases closed
      rfl
  | case3 c rest notClosing ih =>
      obtain ⟨inner, innerClosed, rfl⟩ := Option.map_eq_some_iff.mp closed
      rw [Nat.add_comm, List.take_succ_cons, commentLength, ih innerClosed,
        Option.map_some, Nat.add_comm]
      intro behind star slash
      obtain ⟨others, rfl⟩ : ['/'] <+: rest :=
        .trans (slash ▸ List.prefix_append ['/'] behind)
          (List.take_prefix inner rest)
      exact notClosing others star rfl

theorem stringLength_take {quote : Char} {text : Text} {length : Nat}
    (closed : stringLength quote text = some length) :
    stringLength quote (text.take length) = some length := by
  fun_induction stringLength quote text generalizing length with
  | case1 => cases closed
  | case2 => cases closed
  | case3 escaped rest ih =>
      obtain ⟨inner, innerClosed, rfl⟩ := Option.map_eq_some_iff.mp closed
      rw [Nat.add_comm, List.take_succ_cons, List.take_succ_cons, stringLength,
        ih innerClosed, Option.map_some, Nat.add_comm]
  | case4 rest notLast notEscape =>
      have unescaped : quote ≠ '\\' := by
        rintro rfl
        cases rest with
        | nil => exact notLast rfl rfl
        | cons d rest => exact notEscape d rest rfl rfl
      cases closed
      rw [List.take_succ_cons, stringLength_cons unescaped, if_pos rfl]
  | case5 c rest notLast notEscape other ih =>
      have unescaped : c ≠ '\\' := by
        rintro rfl
        cases rest with
        | nil => exact notLast rfl rfl
        | cons d rest => exact notEscape d rest rfl rfl
      obtain ⟨inner, innerClosed, rfl⟩ := Option.map_eq_some_iff.mp closed
      rw [Nat.add_comm, List.take_succ_cons, stringLength_cons unescaped,
        if_neg other, ih innerClosed, Option.map_some, Nat.add_comm]

theorem parametersLength_take {depth : Nat} {quote : Option Char} {text : Text}
    {length : Nat} (closed : parametersLength depth quote text = .ok length) :
    parametersLength depth quote (text.take length) = .ok length := by
  fun_induction parametersLength depth quote text generalizing length with
  | case1 => cases closed
  | case2 => cases closed
  | case3 depth mark escaped rest ih =>
      obtain ⟨inner, innerClosed, rfl⟩ := exists_ok_of_map closed
      simp [Nat.add_comm 2, parametersLength, ih innerClosed, Except.map]
  | case4 depth c rest mark unescaped ih =>
      obtain ⟨inner, innerClosed, rfl⟩ := exists_ok_of_map closed
      rw [Nat.add_comm, List.take_succ_cons]
      unfold parametersLength
      simp [unescaped, ih innerClosed, Except.map, Nat.add_comm]
  | case5 rest =>
      cases closed
      rfl
  | case6 rest depth ih =>
      obtain ⟨inner, innerClosed, rfl⟩ := exists_ok_of_map closed
      simp [Nat.add_comm 1, parametersLength, ih innerClosed, Except.map]
  | case7 depth rest _ ih =>
      obtain ⟨inner, innerClosed, rfl⟩ := exists_ok_of_map closed
      simp [Nat.add_comm 1, parametersLength, ih innerClosed, Except.map]
  | case8 depth c rest notClosing notOpening ih =>
      obtain ⟨inner, innerClosed, rfl⟩ := exists_ok_of_map closed
      simp [Nat.add_comm 1, parametersLength, notClosing, notOpening,
        ih innerClosed, Except.map]

theorem interpolationLength_take {depth : Nat} {text : Text} {length : Nat}
    (closed : interpolationLength depth text = some length) :
    interpolationLength depth (text.take length) = some length := by
  fun_induction interpolationLength depth text generalizing length with
  | case1 => cases closed
  | case2 rest =>
      cases closed
      rfl
  | case3 rest depth ih =>
      obtain ⟨inner, innerClosed, rfl⟩ := Option.map_eq_some_iff.mp closed
      simp [Nat.add_comm 1, interpolationLength, ih innerClosed]
  | case4 depth c rest other ih =>
      obtain ⟨inner, innerClosed, rfl⟩ := Option.map_eq_some_iff.mp closed
      simp [Nat.add_comm 1, interpolationLength, other, ih innerClosed]

/-! ## Bounds -/

theorem wordLength_le (text : Text) : wordLength text ≤ text.length := by
  fun_induction wordLength text <;>
    simp only [List.length_cons, List.length_nil] <;> omega

theorem docLinesLength_le (text : Text) :
    docLinesLength text ≤ text.length := by
  fun_induction docLinesLength text <;>
    simp only [List.length_cons, List.length_nil] <;> omega

theorem commentLength_le {text : Text} {length : Nat}
    (closed : commentLength text = some length) :
    length ≤ text.length := by
  fun_induction commentLength text generalizing length with
  | case1 => cases closed
  | case2 rest =>
      cases closed
      simp only [List.length_cons]
      omega
  | case3 c rest _ ih =>
      obtain ⟨inner, innerClosed, rfl⟩ := Option.map_eq_some_iff.mp closed
      have shorter := ih innerClosed
      rw [List.length_cons]
      omega

theorem two_le_of_commentLength {text : Text} {length : Nat}
    (closed : commentLength text = some length) : 2 ≤ length := by
  fun_induction commentLength text generalizing length with
  | case1 => cases closed
  | case2 rest => exact Nat.le_of_eq (Option.some.inj closed)
  | case3 c rest _ ih =>
      obtain ⟨inner, innerClosed, rfl⟩ := Option.map_eq_some_iff.mp closed
      have longer := ih innerClosed
      omega

theorem stringLength_le {quote : Char} {text : Text} {length : Nat}
    (closed : stringLength quote text = some length) :
    length ≤ text.length := by
  fun_induction stringLength quote text generalizing length with
  | case1 => cases closed
  | case2 => cases closed
  | case3 escaped rest ih =>
      obtain ⟨inner, innerClosed, rfl⟩ := Option.map_eq_some_iff.mp closed
      have shorter := ih innerClosed
      simp only [List.length_cons]
      omega
  | case4 rest =>
      cases closed
      rw [List.length_cons]
      omega
  | case5 c rest _ _ _ ih =>
      obtain ⟨inner, innerClosed, rfl⟩ := Option.map_eq_some_iff.mp closed
      have shorter := ih innerClosed
      rw [List.length_cons]
      omega

theorem parametersLength_le {depth : Nat} {quote : Option Char} {text : Text}
    {length : Nat} (closed : parametersLength depth quote text = .ok length) :
    length ≤ text.length := by
  fun_induction parametersLength depth quote text generalizing length with
  | case1 => cases closed
  | case2 => cases closed
  | case5 rest =>
      cases closed
      rw [List.length_cons]
      omega
  | case3 | case4 | case6 | case7 | case8 =>
      rename_i ih
      obtain ⟨inner, innerClosed, rfl⟩ := exists_ok_of_map closed
      have shorter := ih innerClosed
      simp only [List.length_cons]
      omega

theorem interpolationLength_le {depth : Nat} {text : Text} {length : Nat}
    (closed : interpolationLength depth text = some length) :
    length ≤ text.length := by
  fun_induction interpolationLength depth text generalizing length with
  | case1 => cases closed
  | case2 rest =>
      cases closed
      rw [List.length_cons]
      omega
  | case3 | case4 =>
      rename_i ih
      obtain ⟨inner, innerClosed, rfl⟩ := Option.map_eq_some_iff.mp closed
      have shorter := ih innerClosed
      rw [List.length_cons]
      omega

theorem Lexeme.signed_tail_le (sign : Char) (kind : Text → Kind) (rest : Text) :
    (signed sign kind rest).tail ≤ rest.length := by
  unfold signed
  split
  · exact Nat.zero_le _
  · split
    · exact wordLength_le _
    · exact Nat.zero_le _

/-- A token does not reach beyond the text. -/
theorem Lexeme.tail_read_le (c : Char) (rest : Text) :
    (read c rest).tail ≤ rest.length := by
  apply read_elim (motive := fun lexeme => lexeme.tail ≤ rest.length)
  case mark => exact fun kind _ => Nat.zero_le _
  case docLines => exact fun _ _ => docLinesLength_le rest
  case comment =>
    intro _ star
    obtain ⟨behind, rfl⟩ := Text.beginsWith_iff.mp star
    rw [comment]
    split
    · exact Nat.le_refl _
    · rename_i length closed
      have shorter : length ≤ behind.length := commentLength_le closed
      simp only [List.length_append, List.length_singleton]
      omega
  case string =>
    intro _
    rw [string]
    split
    · exact Nat.le_refl _
    · rename_i length closed
      exact stringLength_le closed
  case parameters =>
    intro _
    rw [parameters]
    split
    · exact Nat.le_refl _
    · rename_i length closed
      exact parametersLength_le closed
  case interpolation =>
    intro _ brace
    obtain ⟨behind, rfl⟩ := Text.beginsWith_iff.mp brace
    rw [interpolation]
    split
    · exact Nat.le_refl _
    · rename_i length closed
      have shorter : length ≤ behind.length := interpolationLength_le closed
      simp only [List.length_append, List.length_singleton]
      omega
  case keyword => exact fun _ => signed_tail_le '@' .atKeyword rest
  case variableName => exact fun _ => signed_tail_le '$' .variableName rest
  case word =>
    intro _
    have shorter := wordLength_le (c :: rest)
    rw [List.length_cons] at shorter
    exact Nat.sub_le_of_le_add shorter
  case delimiter => exact Nat.zero_le _

/-! ## The next character -/

theorem wordLength_cons {c : Char} (unescaped : c ≠ '\\') (rest : Text) :
    wordLength (c :: rest) = if isWordChar c then 1 + wordLength rest
      else 0 := by
  rw [wordLength]
  · exact fun same _ => unescaped same
  · exact fun _ _ same => (unescaped same).elim

theorem wordLength_pos {c : Char} (isWord : isWordChar c = true ∨ c = '\\')
    (rest : Text) :
    0 < wordLength (c :: rest) := by
  rcases isWord with isWord | rfl
  · have unescaped : c ≠ '\\' := by
      rintro rfl
      exact absurd isWord (by decide)
    rw [wordLength_cons unescaped, if_pos isWord]
    omega
  · cases rest with
    | nil => exact Nat.one_pos
    | cons d rest =>
        rw [wordLength]
        omega

/-- A text that may stand where another one stood: it has the same first
character, or a space in front. -/
def Follows (old new : Text) : Prop :=
  new.head? = old.head? ∨ new.head? = some ' '

/-- The new text offers a token nothing that the old one did not: it is empty,
or it has the same first character, or a space there. -/
def OffersNoMore (old new : Text) : Prop :=
  ∀ c, new.head? = some c → c = ' ' ∨ old.head? = some c

theorem Follows.offersNoMore (follows : Follows old new) :
    OffersNoMore old new := by
  intro c head
  rcases follows with same | space
  · exact .inr (same ▸ head)
  · exact .inl (Option.some.inj (head.symm.trans space))

theorem offersNoMore_nil (old : Text) : OffersNoMore old [] := by
  intro c head
  cases head

theorem OffersNoMore.head_append (offers : OffersNoMore old new) {c : Char}
    (filled : c ≠ ' ') (head : (tail ++ new).head? = some c) :
    (tail ++ old).head? = some c := by
  cases tail with
  | nil => exact (offers c head).resolve_left filled
  | cons d tail => exact head

theorem beginsWith_singleton_iff {c : Char} {text : Text} :
    Text.beginsWith [c] text = true ↔ text.head? = some c := by
  rw [Text.beginsWith_iff]
  cases text with
  | nil => simp
  | cons d text => simp [eq_comm]

theorem isPrefix_append_iff_of_length_le {front : Text}
    (short : front.length ≤ tail.length) (more : Text) :
    front <+: tail ++ more ↔ front <+: tail := by
  constructor
  · intro begins
    exact List.prefix_of_prefix_length_le begins (List.prefix_append tail more)
      short
  · intro begins
    exact begins.trans (List.prefix_append tail more)

theorem beginsWith_change {front : Text} (short : front.length ≤ tail.length)
    (old new : Text) :
    Text.beginsWith front (tail ++ new) =
      Text.beginsWith front (tail ++ old) := by
  rw [Bool.eq_iff_iff, Text.beginsWith_iff, Text.beginsWith_iff,
    isPrefix_append_iff_of_length_le short,
    isPrefix_append_iff_of_length_le short]

theorem wordLength_eq_zero_of_head {c : Char} (unescaped : c ≠ '\\')
    (other : ¬ isWordChar c = true) (head : text.head? = some c) :
    wordLength text = 0 := by
  obtain ⟨rest, rfl⟩ := List.head?_eq_some_iff.mp head
  rw [wordLength_cons unescaped, if_neg other]

theorem OffersNoMore.wordLength_eq_zero (offers : OffersNoMore old new)
    (filled : old ≠ []) (stops : wordLength old = 0) : wordLength new = 0 := by
  obtain ⟨c, rest, rfl⟩ := List.exists_cons_of_ne_nil filled
  have unescaped : c ≠ '\\' := by
    rintro rfl
    cases rest with
    | nil => cases stops
    | cons d rest =>
        rw [wordLength] at stops
        omega
  have other : ¬ isWordChar c = true := by
    intro isWord
    rw [wordLength_cons unescaped, if_pos isWord] at stops
    omega
  cases new with
  | nil => rfl
  | cons d others =>
      rcases offers d rfl with rfl | same
      · exact wordLength_eq_zero_of_head (by decide) (by decide) rfl
      · exact wordLength_eq_zero_of_head unescaped other same.symm

theorem OffersNoMore.wordLength_append (offers : OffersNoMore old new)
    (filled : old ≠ []) (reach : wordLength (tail ++ old) = tail.length) :
    wordLength (tail ++ new) = tail.length := by
  induction tail using wordLength.induct with
  | case1 => exact offers.wordLength_eq_zero filled reach
  | case2 =>
      obtain ⟨c, rest, rfl⟩ := List.exists_cons_of_ne_nil filled
      rw [List.cons_append, List.nil_append, wordLength, List.length_singleton]
        at reach
      omega
  | case3 escaped rest ih =>
      rw [List.cons_append, List.cons_append, wordLength, List.length_cons,
        List.length_cons]
        at reach ⊢
      rw [ih (by omega)]
      omega
  | case4 c rest notLast notEscape isWord ih =>
      have unescaped : c ≠ '\\' := by
        rintro rfl
        exact absurd isWord (by decide)
      rw [List.cons_append, wordLength_cons unescaped, if_pos isWord,
        List.length_cons] at reach ⊢
      rw [ih (by omega)]
      omega
  | case5 c rest notLast notEscape notWord =>
      have unescaped : c ≠ '\\' := by
        rintro rfl
        cases rest with
        | nil => exact notLast rfl rfl
        | cons d rest => exact notEscape d rest rfl rfl
      rw [List.cons_append, wordLength_cons unescaped, if_neg notWord,
        List.length_cons] at reach
      omega

/-! ## Lexemes -/

namespace Lexeme

theorem tail_unterminated_ne (construct : OpenConstruct) (filled : old ≠ []) :
    (unterminated construct (tail ++ old)).tail ≠ tail.length := by
  have length := List.length_pos_iff.mpr filled
  change (tail ++ old).length ≠ tail.length
  rw [List.length_append]
  omega

theorem comment_change (filled : old ≠ [])
    (reach : (comment (tail ++ old)).tail = tail.length) (new : Text) :
    tail ≠ [] ∧ comment (tail ++ new) = comment (tail ++ old) := by
  rw [comment] at reach
  cases closed : commentLength ((tail ++ old).drop 1) with
  | none =>
      rw [closed] at reach
      exact (tail_unterminated_ne .comment filled reach).elim
  | some length =>
      rw [closed] at reach
      cases tail with
      | nil => exact absurd reach (by simp)
      | cons c inner =>
          have whole : 1 + length = (c :: inner).length := reach
          have inside : length = inner.length := by
            rw [List.length_cons] at whole
            omega
          subst inside
          have ended := commentLength_take closed
          rw [List.cons_append, List.drop_succ_cons, List.drop_zero,
            List.take_left] at ended
          have long : ['*', '*', '/'].length ≤ (c :: inner).length :=
            Nat.succ_le_succ (two_le_of_commentLength ended)
          have longer : ['*', '*'].length ≤ (c :: inner).length :=
            Nat.le_of_succ_le long
          have behind : (c :: inner ++ new).drop 1 = inner ++ new := rfl
          refine ⟨List.cons_ne_nil c inner, ?_⟩
          rw [comment, comment, closed, behind, commentLength_append ended]
          simp only [whole, List.take_left, beginsWith_change long old new,
            beginsWith_change longer old new]

theorem string_change {quote : Char} (filled : old ≠ [])
    (reach : (string quote (tail ++ old)).tail = tail.length) (new : Text) :
    string quote (tail ++ new) = string quote (tail ++ old) := by
  rw [string] at reach
  cases closed : stringLength quote (tail ++ old) with
  | none =>
      rw [closed] at reach
      exact (tail_unterminated_ne .string filled reach).elim
  | some length =>
      rw [closed] at reach
      obtain rfl : length = tail.length := reach
      have ended := stringLength_take closed
      rw [List.take_left] at ended
      rw [string, string, closed, stringLength_append ended]
      simp only [List.take_append_of_le_length (Nat.sub_le tail.length 1)]

theorem parameters_change (filled : old ≠ [])
    (reach : (parameters (tail ++ old)).tail = tail.length) (new : Text) :
    parameters (tail ++ new) = parameters (tail ++ old) := by
  rw [parameters] at reach
  cases closed : parametersLength 0 none (tail ++ old) with
  | error construct =>
      rw [closed] at reach
      exact (tail_unterminated_ne construct filled reach).elim
  | ok length =>
      rw [closed] at reach
      obtain rfl : length = tail.length := reach
      have ended := parametersLength_take closed
      rw [List.take_left] at ended
      rw [parameters, parameters, closed, parametersLength_append ended]
      simp only [List.take_append_of_le_length (Nat.sub_le tail.length 1)]

theorem interpolation_change (filled : old ≠ [])
    (reach : (interpolation (tail ++ old)).tail = tail.length) (new : Text) :
    tail ≠ [] ∧ interpolation (tail ++ new) = interpolation (tail ++ old) := by
  rw [interpolation] at reach
  cases closed : interpolationLength 0 ((tail ++ old).drop 1) with
  | none =>
      rw [closed] at reach
      exact (tail_unterminated_ne .interpolation filled reach).elim
  | some length =>
      rw [closed] at reach
      cases tail with
      | nil => exact absurd reach (by simp)
      | cons c inner =>
          have whole : 1 + length = (c :: inner).length := reach
          have inside : length = inner.length := by
            rw [List.length_cons] at whole
            omega
          subst inside
          have ended := interpolationLength_take closed
          rw [List.cons_append, List.drop_succ_cons, List.drop_zero,
            List.take_left] at ended
          refine ⟨List.cons_ne_nil c inner, ?_⟩
          rw [interpolation, interpolation, closed, List.cons_append,
            List.drop_succ_cons, List.drop_zero,
            interpolationLength_append ended, List.cons_append,
            List.drop_succ_cons, List.drop_zero]
          simp only [List.take_append_of_le_length (Nat.sub_le inner.length 1)]

theorem signed_change {sign : Char} {kind : Text → Kind}
    (offers : OffersNoMore old new) (filled : old ≠ [])
    (reach : (signed sign kind (tail ++ old)).tail = tail.length) :
    signed sign kind (tail ++ new) = signed sign kind (tail ++ old) := by
  cases tail with
  | nil =>
      obtain ⟨c, rest, rfl⟩ := List.exists_cons_of_ne_nil filled
      rw [List.nil_append, signed] at reach
      rw [List.nil_append, List.nil_append, signed]
      split at reach
      · rename_i isWord
        have unescaped : c ≠ '\\' := by
          rintro rfl
          exact absurd isWord (by decide)
        have nothing : wordLength (c :: rest) = 0 := reach
        rw [wordLength_cons unescaped, if_pos isWord] at nothing
        omega
      · rename_i other
        rw [if_neg other]
        cases new with
        | nil => rfl
        | cons d others =>
            rcases offers d rfl with rfl | same
            · rfl
            · obtain rfl := Option.some.inj same
              rw [signed, if_neg other]
  | cons c tail =>
      rw [List.cons_append, signed] at reach
      rw [List.cons_append, List.cons_append, signed, signed]
      split
      · rename_i isWord
        rw [if_pos isWord] at reach
        have length : wordLength (c :: (tail ++ old)) = (c :: tail).length :=
          reach
        have same : wordLength (c :: (tail ++ new)) = (c :: tail).length := by
          rw [← List.cons_append] at length ⊢
          exact offers.wordLength_append filled length
        rw [length, same, ← List.cons_append, ← List.cons_append,
          List.take_left, List.take_left]
      · rfl

private theorem word_change {c : Char} (isWord : isWordChar c = true ∨ c = '\\')
    (offers : OffersNoMore old new) (filled : old ≠ [])
    (reach : wordLength (c :: (tail ++ old)) - 1 = tail.length) :
    (⟨.ident ((c :: (tail ++ new)).take (wordLength (c :: (tail ++ new)))),
      wordLength (c :: (tail ++ new)) - 1⟩ : Lexeme) =
      ⟨.ident ((c :: (tail ++ old)).take (wordLength (c :: (tail ++ old)))),
        wordLength (c :: (tail ++ old)) - 1⟩ := by
  have positive := wordLength_pos isWord (tail ++ old)
  have length : wordLength (c :: tail ++ old) = (c :: tail).length := by
    rw [List.cons_append, List.length_cons]
    omega
  have same := offers.wordLength_append filled length
  rw [← List.cons_append, ← List.cons_append, length, same, List.take_left,
    List.take_left]

/-- Two choices between lexemes agree, if they take the same side and agree on
it. -/
theorem ite_change {test test' : Prop} [Decidable test] [Decidable test']
    {left right left' right' : Lexeme} {length : Nat}
    (reach : (if test then left else right).tail = length)
    (ifLeft : test → left.tail = length → test' ∧ left' = left)
    (ifRight : ¬ test → right.tail = length → ¬ test' ∧ right' = right) :
    (if test' then left' else right') = if test then left else right := by
  by_cases passes : test
  · rw [if_pos passes] at reach ⊢
    obtain ⟨passes', same⟩ := ifLeft passes reach
    rw [if_pos passes', same]
  · rw [if_neg passes] at reach ⊢
    obtain ⟨fails', same⟩ := ifRight passes reach
    rw [if_neg fails', same]

/-- A token that is no run of doc lines stays the same in front of a text that
offers it no more than the one behind it did. -/
theorem read_change {c : Char} (offers : OffersNoMore old new)
    (filled : old ≠ [])
    (noLines : ¬ (c = '/' ∧ Text.beginsWith ['/', '/'] (tail ++ old) = true))
    (noLinesToo : ¬ (c = '/' ∧ Text.beginsWith ['/', '/'] (tail ++ new) = true))
    (reach : (read c (tail ++ old)).tail = tail.length) :
    read c (tail ++ new) = read c (tail ++ old) := by
  have asked : ∀ {sign d : Char}, d ≠ ' ' →
      ¬ (c = sign ∧ Text.beginsWith [d] (tail ++ old) = true) →
        ¬ (c = sign ∧ Text.beginsWith [d] (tail ++ new) = true) := by
    rintro sign d filled missing ⟨isSign, found⟩
    rw [beginsWith_singleton_iff] at found
    exact missing
      ⟨isSign, beginsWith_singleton_iff.mpr (offers.head_append filled found)⟩
  have given : ∀ {d : Char},
      tail ≠ [] → Text.beginsWith [d] (tail ++ old) = true →
      Text.beginsWith [d] (tail ++ new) = true := by
    intro d long found
    have short : [d].length ≤ tail.length := List.length_pos_iff.mpr long
    rw [beginsWith_change short old new]
    exact found
  unfold read at reach ⊢
  refine ite_change reach (fun mark _ => ⟨mark, rfl⟩) fun other reach =>
    ⟨other, ?_⟩
  refine ite_change reach (fun mark _ => ⟨mark, rfl⟩) fun other reach =>
    ⟨other, ?_⟩
  refine ite_change reach (fun mark _ => ⟨mark, rfl⟩) fun other reach =>
    ⟨other, ?_⟩
  refine ite_change reach (fun mark _ => ⟨mark, rfl⟩) fun other reach =>
    ⟨other, ?_⟩
  refine ite_change reach (fun mark _ => ⟨mark, rfl⟩) fun other reach =>
    ⟨other, ?_⟩
  refine ite_change reach (fun lines _ => absurd lines noLines) fun _ reach =>
    ⟨noLinesToo, ?_⟩
  refine ite_change reach (fun star reach => ?_) fun other reach =>
    ⟨asked (by decide) other, ?_⟩
  · obtain ⟨long, same⟩ := comment_change filled reach new
    exact ⟨⟨star.1, given long star.2⟩, same⟩
  refine ite_change reach
    (fun quote reach => ⟨quote, string_change filled reach new⟩)
    fun other reach => ⟨other, ?_⟩
  refine ite_change reach
    (fun opening reach => ⟨opening, parameters_change filled reach new⟩)
    fun other reach => ⟨other, ?_⟩
  refine ite_change reach (fun brace reach => ?_) fun other reach =>
    ⟨asked (by decide) other, ?_⟩
  · obtain ⟨long, same⟩ := interpolation_change filled reach new
    exact ⟨⟨brace.1, given long brace.2⟩, same⟩
  refine ite_change reach
    (fun sign reach => ⟨sign, signed_change offers filled reach⟩)
    fun other reach => ⟨other, ?_⟩
  refine ite_change reach
    (fun sign reach => ⟨sign, signed_change offers filled reach⟩)
    fun other reach => ⟨other, ?_⟩
  exact ite_change reach
    (fun isWord reach => ⟨isWord, word_change isWord offers filled reach⟩)
    fun other _ => ⟨other, rfl⟩

end Lexeme

/-! ## Doc lines -/

/-- The characters that a line may have in front: spaces, tabs and carriage
returns. -/
def isIndent (c : Char) : Bool :=
  c == ' ' || c == '\t' || c == '\r'

/-- The text behind the spaces, tabs and carriage returns at its front. -/
def afterIndent (text : Text) : Text :=
  text.dropWhile isIndent

theorem docLinesLength_newline (rest : Text) :
    docLinesLength ('\n' :: rest) =
      if isDocLine (afterIndent rest) then 1 + docLinesLength rest else 0 := by
  rw [docLinesLength, if_pos rfl]
  rfl

theorem docLinesLength_inside {c : Char} (inLine : c ≠ '\n') (rest : Text) :
    docLinesLength (c :: rest) = 1 + docLinesLength rest := by
  rw [docLinesLength, if_neg inLine]

theorem atLineEnd_of_docLinesLength {text : Text}
    (stops : docLinesLength text = 0) :
    AtLineEnd text := by
  cases text with
  | nil => exact .inl rfl
  | cons c rest =>
      by_cases newline : c = '\n'
      · exact .inr ⟨rest, by rw [newline]⟩
      · rw [docLinesLength_inside newline] at stops
        omega

theorem afterIndent_append {more : Text} (ended : AtLineEnd more)
    (line : Text) :
    afterIndent (line ++ more) = afterIndent line ++ more := by
  induction line with
  | nil =>
      rcases ended with rfl | ⟨rest, rfl⟩
      · rfl
      · rfl
  | cons c line ih =>
      rw [List.cons_append, afterIndent, afterIndent, List.dropWhile_cons,
        List.dropWhile_cons]
      split
      · exact ih
      · rfl

theorem isDocLine_change (ended : AtLineEnd old) (endedToo : AtLineEnd new)
    (line : Text) :
    isDocLine (line ++ new) = isDocLine (line ++ old) := by
  rw [Bool.eq_iff_iff, isDocLine_iff, isDocLine_iff,
    isPrefix_append_iff_of_atLineEnd (by decide) ended,
    isPrefix_append_iff_of_atLineEnd (by decide) ended,
    isPrefix_append_iff_of_atLineEnd (by decide) endedToo,
    isPrefix_append_iff_of_atLineEnd (by decide) endedToo]

/-- A run of doc lines stops in front of the text behind it. -/
theorem docLinesLength_behind
    (reach : docLinesLength (tail ++ old) = tail.length) :
    docLinesLength old = 0 := by
  induction tail with
  | nil => exact reach
  | cons c tail ih =>
      apply ih
      by_cases newline : c = '\n'
      · subst newline
        rw [List.cons_append, docLinesLength_newline, List.length_cons] at reach
        split at reach <;> omega
      · rw [List.cons_append, docLinesLength_inside newline, List.length_cons]
          at reach
        omega

/-- With another line end behind it, a run of doc lines goes on with what
follows there. -/
theorem docLinesLength_change
    (reach : docLinesLength (tail ++ old) = tail.length)
    (endedToo : AtLineEnd new) :
    docLinesLength (tail ++ new) = tail.length + docLinesLength new := by
  have ended := atLineEnd_of_docLinesLength (docLinesLength_behind reach)
  induction tail with
  | nil => rw [List.nil_append, List.length_nil, Nat.zero_add]
  | cons c tail ih =>
      by_cases newline : c = '\n'
      · subst newline
        rw [List.cons_append, docLinesLength_newline, List.length_cons,
          afterIndent_append ended] at reach
        rw [List.cons_append, docLinesLength_newline, List.length_cons,
          afterIndent_append endedToo, isDocLine_change ended endedToo]
        split at reach
        · rename_i goesOn
          rw [if_pos goesOn, ih (by omega)]
          omega
        · omega
      · rw [List.cons_append, docLinesLength_inside newline, List.length_cons]
          at reach ⊢
        rw [ih (by omega)]
        omega

/-! ## The beginning of a token -/

theorem gapLength_cons_eq_zero_iff {c : Char} {rest : Text} :
    gapLength false (c :: rest) = 0 ↔
      Text.isBlank c = false ∧ isLineComment (c :: rest) = false := by
  by_cases blank : Text.isBlank c = true
  · rw [gapLength_of_blank blank, blank]
    simp
  · by_cases slashes : isLineComment (c :: rest) = true
    · rw [gapLength_of_lineComment blank slashes, slashes]
      simp
    · rw [gapLength_of_token blank slashes]
      simp [Bool.eq_false_iff.mpr blank, Bool.eq_false_iff.mpr slashes]

theorem Lexeme.read_of_slashes {rest : Text}
    (slashes : Text.beginsWith ['/', '/'] rest = true) :
    read '/' rest = docLines rest := by
  obtain ⟨others, rfl⟩ := Text.beginsWith_iff.mp slashes
  rfl

theorem Lexeme.read_of_isDocLine {c : Char} {rest : Text}
    (isLine : isDocLine (c :: rest) = true) :
    c = '/' ∧ read c rest = docLines rest := by
  obtain ⟨others, three⟩ := (isDocLine_iff.mp isLine).1
  obtain ⟨rfl, rfl⟩ := List.cons.inj three
  exact ⟨rfl, rfl⟩

/-- A token stays where it is, and what it is, in front of a text that offers it
no more than the one behind it did; a run of doc lines asks that the run does
not go on there. -/
theorem Lexeme.read_replace {c : Char} {kind : Kind}
    (starts : gapLength false (c :: (tail ++ old)) = 0)
    (reads : read c (tail ++ old) = ⟨kind, tail.length⟩) (filled : old ≠ [])
    (offers : OffersNoMore old new)
    (stops : isDocLine (c :: (tail ++ old)) = true → docLinesLength new = 0) :
    gapLength false (c :: (tail ++ new)) = 0 ∧
      read c (tail ++ new) = ⟨kind, tail.length⟩ ∧
      isDocLine (c :: (tail ++ new)) = isDocLine (c :: (tail ++ old)) := by
  obtain ⟨filledToo, noComment⟩ := gapLength_cons_eq_zero_iff.mp starts
  rw [gapLength_cons_eq_zero_iff]
  by_cases slashes : ['/', '/'] <+: c :: (tail ++ old)
  · have isLine : isDocLine (c :: (tail ++ old)) = true := by
      rw [isLineComment, Text.beginsWith_iff.mpr slashes, Bool.true_and]
        at noComment
      simpa using noComment
    obtain ⟨rfl, run⟩ := read_of_isDocLine isLine
    rw [run] at reads
    have reach : docLinesLength (tail ++ old) = tail.length :=
      congrArg Lexeme.tail reads
    have ended := atLineEnd_of_docLinesLength (docLinesLength_behind reach)
    have endedToo := atLineEnd_of_docLinesLength (stops isLine)
    have same : docLinesLength (tail ++ new) = tail.length := by
      rw [docLinesLength_change reach endedToo, stops isLine, Nat.add_zero]
    have stillLine : isDocLine ('/' :: (tail ++ new)) = true := by
      rw [← List.cons_append, isDocLine_change ended endedToo]
      exact isLine
    obtain ⟨-, runToo⟩ := read_of_isDocLine stillLine
    refine ⟨⟨filledToo, ?_⟩, ?_, stillLine.trans isLine.symm⟩
    · rw [isLineComment, stillLine, Bool.not_true, Bool.and_false]
    · rw [runToo, ← reads, docLines, docLines, same, reach, List.take_left,
        List.take_left]
  · have noSlashes : ¬ ['/', '/'] <+: c :: (tail ++ new) := by
      intro begins
      obtain ⟨others, two⟩ := begins
      obtain ⟨rfl, behind⟩ := List.cons.inj two
      have head : (tail ++ old).head? = some '/' := by
        apply offers.head_append (by decide)
        rw [← behind]
        rfl
      obtain ⟨rest, same⟩ := List.head?_eq_some_iff.mp head
      rw [same] at slashes
      exact slashes (List.prefix_append ['/', '/'] rest)
    have noLine : ∀ {text : Text}, ¬ ['/', '/'] <+: text →
        isDocLine text = false := by
      intro text none
      rw [← Bool.not_eq_true, isDocLine_iff]
      rintro ⟨three, -⟩
      exact none ((List.prefix_append ['/', '/'] ['/']).trans three)
    refine ⟨⟨filledToo, ?_⟩, ?_, (noLine noSlashes).trans (noLine slashes).symm⟩
    · rw [← Bool.not_eq_true, isLineComment_iff]
      exact fun comment => noSlashes comment.1
    · have noLines : ∀ {text : Text}, ¬ ['/', '/'] <+: c :: text →
          ¬ (c = '/' ∧ Text.beginsWith ['/', '/'] text = true) := by
        rintro text none ⟨rfl, lines⟩
        obtain ⟨others, rfl⟩ := Text.beginsWith_iff.mp lines
        exact none (List.prefix_append ['/', '/'] ('/' :: others))
      rw [read_change offers filled (noLines slashes) (noLines noSlashes)
        (congrArg Lexeme.tail reads), reads]

end Token

end StyleAudit
