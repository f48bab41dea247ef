import StyleAudit.Proofs.Token.Lookahead

/-!
# What closed constructs hold

Strings, parameter lists and interpolations are measured by counting up to the
mark that closes them.  What stands in front of this mark is told here without
counting: a backslash in a string keeps the character behind it, and brackets
enclose one another in pairs.
-/

namespace StyleAudit

namespace Token

/-- The inside of a string, and its value.  A backslash is no part of the value,
and it keeps the character behind it, whatever that is. -/
inductive Quotes (quote : Char) : (inner value : Text) → Prop where
  | nil : Quotes quote [] []
  | plain {c : Char} {inner value : Text} :
      c ≠ '\\' → c ≠ quote → Quotes quote inner value →
        Quotes quote (c :: inner) (c :: value)
  | escaped {c : Char} {inner value : Text} :
      Quotes quote inner value → Quotes quote ('\\' :: c :: inner) (c :: value)

/-- A text with brackets in pairs.  Where there are quotes, brackets in strings
do not count. -/
inductive Balanced (opening closing : Char) (quotes : Char → Bool) :
    Text → Prop where
  | nil : Balanced opening closing quotes []
  | plain {c : Char} {rest : Text} : c ≠ opening → c ≠ closing →
    quotes c = false →
      Balanced opening closing quotes rest →
        Balanced opening closing quotes (c :: rest)
  | pair {inner rest : Text} : Balanced opening closing quotes inner →
      Balanced opening closing quotes rest →
      Balanced opening closing quotes (opening :: inner ++ closing :: rest)
  | string {quote : Char} {inner value rest : Text} : quotes quote = true →
      Quotes quote inner value → Balanced opening closing quotes rest →
      Balanced opening closing quotes (quote :: inner ++ quote :: rest)

/-- The inside of parentheses. -/
abbrev Parenthesized : Text → Prop :=
  Balanced '(' ')' isQuote

/-- The inside of braces.  Quotes have no meaning there. -/
abbrev Braced : Text → Prop :=
  Balanced '{' '}' fun _ => false

/-- One more character in front of what is measured. -/
theorem take_cons_concat {c last : Char} {rest inner : Text} {length : Nat}
    (taken : rest.take length = inner ++ [last]) :
    (c :: rest).take (1 + length) = c :: inner ++ [last] := by
  rw [Nat.add_comm, List.take_succ_cons, taken, List.cons_append]

/-! ## Strings -/

private theorem unescape_cons {c : Char} (unescaped : c ≠ '\\') (rest : Text) :
    unescape (c :: rest) = c :: unescape rest := by
  rw [unescape]
  · exact fun same _ => unescaped same
  · exact fun _ _ same => (unescaped same).elim

theorem Quotes.unescape_eq {quote : Char} {inner value : Text}
    (quotes : Quotes quote inner value) : unescape inner = value := by
  induction quotes with
  | nil => rfl
  | plain unescaped _ _ ih => rw [unescape_cons unescaped, ih]
  | escaped _ ih => rw [unescape, ih]

theorem exists_quotes_of_stringLength {quote : Char} {text : Text}
    {length : Nat} (closed : stringLength quote text = some length) :
    ∃ inner value, text.take length = inner ++ [quote] ∧
      Quotes quote inner value := by
  fun_induction stringLength quote text generalizing length with
  | case1 => cases closed
  | case2 => cases closed
  | case3 c rest ih =>
      obtain ⟨shorter, closedLater, rfl⟩ := Option.map_eq_some_iff.mp closed
      obtain ⟨inner, value, taken, quotes⟩ := ih closedLater
      refine ⟨'\\' :: c :: inner, c :: value, ?_, quotes.escaped⟩
      rw [Nat.add_comm, List.take_succ_cons, List.take_succ_cons, taken,
        List.cons_append, List.cons_append]
  | case4 rest notLast notEscape =>
      cases closed
      exact ⟨[], [], rfl, .nil⟩
  | case5 c rest notLast notEscape other ih =>
      have unescaped : c ≠ '\\' := by
        rintro rfl
        cases rest with
        | nil => exact notLast rfl rfl
        | cons d rest => exact notEscape d rest rfl rfl
      obtain ⟨shorter, closedLater, rfl⟩ := Option.map_eq_some_iff.mp closed
      obtain ⟨inner, value, taken, quotes⟩ := ih closedLater
      exact ⟨c :: inner, c :: value, take_cons_concat taken,
        quotes.plain unescaped other⟩

/-! ## Brackets -/

section Brackets

variable {opening closing : Char} {quotes : Char → Bool} {depth : Nat}
  {text : Text}

/-- A text that closes so many brackets more than it opens, and is balanced
between them. -/
def Closes (opening closing : Char) (quotes : Char → Bool) : Nat → Text → Prop
  | 0, text => Balanced opening closing quotes text
  | depth + 1, text => ∃ inner rest, text = inner ++ closing :: rest ∧
      Balanced opening closing quotes inner ∧
        Closes opening closing quotes depth rest

theorem Closes.append_front {front : Text}
    (fits : ∀ rest, Balanced opening closing quotes rest →
      Balanced opening closing quotes (front ++ rest))
    (closes : Closes opening closing quotes depth text) :
    Closes opening closing quotes depth (front ++ text) := by
  cases depth with
  | zero => exact fits text closes
  | succ depth =>
      obtain ⟨inner, rest, rfl, balanced, later⟩ := closes
      exact ⟨front ++ inner, rest, (List.append_assoc ..).symm,
        fits inner balanced, later⟩

theorem Closes.plain {c : Char} (noOpening : c ≠ opening)
    (noClosing : c ≠ closing) (noQuote : quotes c = false)
    (closes : Closes opening closing quotes depth text) :
    Closes opening closing quotes depth (c :: text) := by
  have fits : ∀ behind, Balanced opening closing quotes behind →
      Balanced opening closing quotes ([c] ++ behind) :=
    fun _ => .plain noOpening noClosing noQuote
  exact closes.append_front fits

theorem Closes.opened
    (closes : Closes opening closing quotes (depth + 1) text) :
    Closes opening closing quotes depth (opening :: text) := by
  obtain ⟨inner, rest, rfl, balanced, later⟩ := closes
  have fits : ∀ behind, Balanced opening closing quotes behind →
      Balanced opening closing quotes
        ((opening :: inner ++ [closing]) ++ behind) := by
    intro behind others
    rw [List.append_assoc, List.singleton_append]
    exact balanced.pair others
  have whole := later.append_front fits
  rwa [List.append_assoc, List.singleton_append] at whole

theorem Closes.ended (closes : Closes opening closing quotes depth text) :
    Closes opening closing quotes (depth + 1) (closing :: text) :=
  ⟨[], text, rfl, .nil, closes⟩

theorem Closes.string {quote : Char} {inner value : Text}
    (isQuote : quotes quote = true) (quoted : Quotes quote inner value)
    (closes : Closes opening closing quotes depth text) :
    Closes opening closing quotes depth (quote :: inner ++ quote :: text) := by
  have fits : ∀ behind, Balanced opening closing quotes behind →
      Balanced opening closing quotes
        ((quote :: inner ++ [quote]) ++ behind) := by
    intro behind others
    rw [List.append_assoc, List.singleton_append]
    exact .string isQuote quoted others
  have whole := closes.append_front fits
  rwa [List.append_assoc, List.singleton_append] at whole

end Brackets

theorem exists_closes_of_interpolationLength {depth : Nat} {text : Text}
    {length : Nat} (closed : interpolationLength depth text = some length) :
    ∃ inner, text.take length = inner ++ ['}'] ∧
      Closes '{' '}' (fun _ => false) depth inner := by
  fun_induction interpolationLength depth text generalizing length with
  | case1 => cases closed
  | case2 rest =>
      cases closed
      exact ⟨[], rfl, .nil⟩
  | case3 rest depth ih =>
      obtain ⟨shorter, closedLater, rfl⟩ := Option.map_eq_some_iff.mp closed
      obtain ⟨inner, taken, closes⟩ := ih closedLater
      exact ⟨'}' :: inner, take_cons_concat taken, closes.ended⟩
  | case4 depth c rest noClosing ih =>
      obtain ⟨shorter, closedLater, rfl⟩ := Option.map_eq_some_iff.mp closed
      obtain ⟨inner, taken, closes⟩ := ih closedLater
      refine ⟨c :: inner, take_cons_concat taken, ?_⟩
      split at closes
      · rename_i isOpening
        rw [isOpening]
        exact closes.opened
      · rename_i noOpening
        exact closes.plain noOpening noClosing rfl

/-- What closes parentheses, from inside a string if a quote is given. -/
def ClosesFrom (depth : Nat) : (quote : Option Char) → Text → Prop
  | none, text => Closes '(' ')' isQuote depth text
  | some quote, text => ∃ inner value rest, text = inner ++ quote :: rest ∧
      Quotes quote inner value ∧ Closes '(' ')' isQuote depth rest

theorem exists_closes_of_parametersLength {depth : Nat} {quote : Option Char}
    {text : Text} {length : Nat}
    (closed : parametersLength depth quote text = .ok length) :
    ∃ inner, text.take length = inner ++ [')'] ∧
      ClosesFrom depth quote inner := by
  fun_induction parametersLength depth quote text generalizing length with
  | case1 => cases closed
  | case2 => cases closed
  | case3 depth quote c rest ih =>
      obtain ⟨shorter, closedLater, rfl⟩ := exists_ok_of_map closed
      obtain ⟨_, taken, inner, value, behind, rfl, quotes, closes⟩ :=
        ih closedLater
      refine ⟨_, ?_, '\\' :: c :: inner, c :: value, behind, rfl,
        quotes.escaped, closes⟩
      rw [Nat.add_comm, List.take_succ_cons, List.take_succ_cons, taken]
      rfl
  | case4 depth c rest quote unescaped ih =>
      obtain ⟨shorter, closedLater, rfl⟩ := exists_ok_of_map closed
      obtain ⟨inside, taken, closes⟩ := ih closedLater
      refine ⟨c :: inside, take_cons_concat taken, ?_⟩
      split at closes
      · rename_i isQuote
        rw [isQuote]
        exact ⟨[], [], inside, rfl, .nil, closes⟩
      · rename_i other
        obtain ⟨inner, value, behind, rfl, quotes, closes⟩ := closes
        exact ⟨c :: inner, c :: value, behind, rfl,
          quotes.plain unescaped other, closes⟩
  | case5 rest =>
      cases closed
      exact ⟨[], rfl, Balanced.nil⟩
  | case6 rest depth ih =>
      obtain ⟨shorter, closedLater, rfl⟩ := exists_ok_of_map closed
      obtain ⟨inner, taken, closes⟩ := ih closedLater
      exact ⟨')' :: inner, take_cons_concat taken, Closes.ended closes⟩
  | case7 depth rest _ ih =>
      obtain ⟨shorter, closedLater, rfl⟩ := exists_ok_of_map closed
      obtain ⟨inner, taken, closes⟩ := ih closedLater
      exact ⟨'(' :: inner, take_cons_concat taken, Closes.opened closes⟩
  | case8 depth c rest noClosing noOpening ih =>
      obtain ⟨shorter, closedLater, rfl⟩ := exists_ok_of_map closed
      obtain ⟨inside, taken, closes⟩ := ih closedLater
      refine ⟨c :: inside, take_cons_concat taken, ?_⟩
      split at closes
      · rename_i isQuote
        obtain ⟨inner, value, behind, rfl, quotes, closes⟩ := closes
        exact closes.string isQuote quotes
      · rename_i noQuote
        exact Closes.plain noOpening noClosing (Bool.eq_false_iff.mpr noQuote)
          closes

end Token

end StyleAudit
