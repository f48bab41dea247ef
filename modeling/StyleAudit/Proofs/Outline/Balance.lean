import Mathlib.Data.List.Induction
import StyleAudit.Outline

/-!
# Balanced braces

Whether the braces of a token list fit together is a matter of counting them:
no beginning of the list may close more blocks than it opens, and the whole list
closes as many as it opens.  `Leaves` refines the count to the list of braces
that are still open, which is what reading a token list from the left keeps.
-/

namespace StyleAudit

namespace Outline

/-- The number of opening braces. -/
def opens (tokens : List Token) : Nat :=
  tokens.countP fun token => token.kind = .openBrace

/-- The number of closing braces. -/
def closes (tokens : List Token) : Nat :=
  tokens.countP fun token => token.kind = .closeBrace

/-- No beginning of the list closes more blocks than it opens. -/
def NeverStray (tokens : List Token) : Prop :=
  ∀ front, front <+: tokens → closes front ≤ opens front

@[mk_iff]
structure Balanced (tokens : List Token) : Prop where
  neverStray : NeverStray tokens
  settled : closes tokens = opens tokens

instance (tokens : List Token) : Decidable (NeverStray tokens) :=
  decidable_of_iff
    (∀ count ≤ tokens.length,
      closes (tokens.take count) ≤ opens (tokens.take count))
    ⟨fun counted front begins =>
        List.prefix_iff_eq_take.mp begins ▸
          counted front.length begins.length_le,
      fun never count _ => never _ (List.take_prefix count tokens)⟩

instance (tokens : List Token) : Decidable (Balanced tokens) :=
  decidable_of_iff _ (balanced_iff tokens).symm

/-- The first closing brace up to which more blocks are closed than opened. -/
def FirstStray (tokens : List Token) (brace : Token) : Prop :=
  ∃ front back, tokens = front ++ brace :: back ∧ brace.kind = .closeBrace ∧
    opens (front ++ [brace]) < closes (front ++ [brace]) ∧ NeverStray front

/-- One of the tokens closes the block that a brace in front of them opens. -/
def Closed (tokens : List Token) : Prop :=
  ∃ inner brace after, tokens = inner ++ brace :: after ∧
    brace.kind = .closeBrace ∧ Balanced inner

/-- The last opening brace whose block nothing closes. -/
def LastUnclosed (tokens : List Token) (brace : Token) : Prop :=
  ∃ front back, tokens = front ++ brace :: back ∧ brace.kind = .openBrace ∧
    ¬ Closed back ∧
    ∀ inner later after, back = inner ++ later :: after →
      later.kind = .openBrace → Closed after

/-! ## Counting -/

@[simp] theorem opens_append (left right : List Token) :
    opens (left ++ right) = opens left + opens right :=
  List.countP_append

@[simp] theorem closes_append (left right : List Token) :
    closes (left ++ right) = closes left + closes right :=
  List.countP_append

theorem opens_cons (token : Token) (rest : List Token) :
    opens (token :: rest) = opens [token] + opens rest :=
  opens_append [token] rest

theorem closes_cons (token : Token) (rest : List Token) :
    closes (token :: rest) = closes [token] + closes rest :=
  closes_append [token] rest

theorem count_openBrace {token : Token} (opening : token.kind = .openBrace) :
    opens [token] = 1 ∧ closes [token] = 0 := by
  simp [opens, closes, opening]

theorem count_closeBrace {token : Token} (closing : token.kind = .closeBrace) :
    opens [token] = 0 ∧ closes [token] = 1 := by
  simp [opens, closes, closing]

theorem count_other {token : Token} (notOpening : token.kind ≠ .openBrace)
    (notClosing : token.kind ≠ .closeBrace) :
    opens [token] = 0 ∧ closes [token] = 0 := by
  simp [opens, closes, notOpening, notClosing]

/-! ## Lists that never close too much -/

private theorem isPrefix_append_cases {front left right : List Token}
    (begins : front <+: left ++ right) :
    front <+: left ∨ ∃ more, more <+: right ∧ front = left ++ more := by
  rcases List.prefix_or_prefix_of_prefix begins
    (List.prefix_append left right) with
    short | ⟨more, rfl⟩
  · exact .inl short
  · exact .inr ⟨more, (List.prefix_append_right_inj left).mp begins, rfl⟩

theorem NeverStray.nil : NeverStray [] := by
  intro front begins
  rw [List.prefix_nil.mp begins]
  exact Nat.le_refl _

theorem NeverStray.append {left right : List Token}
    (leftNever : NeverStray left) (rightNever : NeverStray right) :
    NeverStray (left ++ right) := by
  intro front begins
  rcases isPrefix_append_cases begins with short | ⟨more, moreBegins, rfl⟩
  · exact leftNever front short
  · have leftCount := leftNever left (List.prefix_refl left)
    have rightCount := rightNever more moreBegins
    rw [closes_append, opens_append]
    omega

theorem NeverStray.concat {tokens : List Token} {token : Token}
    (never : NeverStray tokens)
    (count : closes (tokens ++ [token]) ≤ opens (tokens ++ [token])) :
    NeverStray (tokens ++ [token]) := by
  intro front begins
  rcases List.prefix_concat_iff.mp begins with rfl | short
  · exact count
  · exact never front short

theorem NeverStray.singleton {token : Token}
    (notClosing : token.kind ≠ .closeBrace) : NeverStray [token] := by
  have none : closes [token] = 0 := by simp [closes, notClosing]
  exact NeverStray.nil.concat (by simp [none])

theorem NeverStray.not_beyond {front between : List Token} {brace : Token}
    (never : NeverStray (front ++ brace :: between)) :
    ¬ opens (front ++ [brace]) < closes (front ++ [brace]) := by
  intro excess
  have count := never (front ++ [brace]) ⟨between, by simp⟩
  omega

theorem not_firstStray_of_neverStray {tokens : List Token}
    (never : NeverStray tokens) (brace : Token) :
    ¬ FirstStray tokens brace := by
  rintro ⟨front, back, rfl, _, excess, _⟩
  exact never.not_beyond excess

/-- Two places in one list: one is in front of the other, or they are the
same. -/
theorem append_cons_cases {front back front' back' : List Token}
    {token token' : Token}
    (same : front ++ token :: back = front' ++ token' :: back') :
    (∃ between, front' = front ++ token :: between ∧
      back = between ++ token' :: back') ∨
    (front = front' ∧ token = token' ∧ back = back') ∨
    (∃ between, front = front' ++ token' :: between ∧
      back' = between ++ token :: back) := by
  rcases List.append_eq_append_iff.mp same with
    ⟨more, further, rest⟩ | ⟨more, further, rest⟩
  · cases more with
    | nil =>
        obtain ⟨rfl, rfl⟩ := List.cons.inj rest
        exact .inr (.inl ⟨by simpa using further.symm, rfl, rfl⟩)
    | cons first between =>
        obtain ⟨rfl, rfl⟩ := List.cons.inj rest
        exact .inl ⟨between, further, rfl⟩
  · cases more with
    | nil =>
        obtain ⟨rfl, rfl⟩ := List.cons.inj rest
        exact .inr (.inl ⟨by simpa using further, rfl, rfl⟩)
    | cons first between =>
        obtain ⟨rfl, rfl⟩ := List.cons.inj rest
        exact .inr (.inr ⟨between, further, rfl⟩)

theorem firstStray_unique {tokens : List Token} {first second : Token}
    (isFirst : FirstStray tokens first) (isSecond : FirstStray tokens second) :
    first = second := by
  obtain ⟨front, back, rfl, _, excess, never⟩ := isFirst
  obtain ⟨front', back', same, _, excess', never'⟩ := isSecond
  rcases append_cons_cases same with ⟨_, rfl, _⟩ | ⟨_, equal, _⟩ | ⟨_, rfl, _⟩
  · exact (never'.not_beyond excess).elim
  · exact equal
  · exact (never.not_beyond excess').elim

/-! ## Balanced lists -/

theorem Balanced.nil : Balanced [] :=
  ⟨.nil, rfl⟩

theorem Balanced.append {left right : List Token} (leftBalanced : Balanced left)
    (rightBalanced : Balanced right) : Balanced (left ++ right) := by
  refine ⟨leftBalanced.neverStray.append rightBalanced.neverStray, ?_⟩
  rw [closes_append, opens_append, leftBalanced.settled, rightBalanced.settled]

theorem Balanced.singleton {token : Token}
    (notOpening : token.kind ≠ .openBrace)
    (notClosing : token.kind ≠ .closeBrace) : Balanced [token] := by
  obtain ⟨noOpen, noClose⟩ := count_other notOpening notClosing
  exact ⟨.singleton notClosing, by rw [noOpen, noClose]⟩

/-- A block around a balanced list. -/
theorem Balanced.block {inner : List Token} {opening closing : Token}
    (isOpening : opening.kind = .openBrace)
    (isClosing : closing.kind = .closeBrace) (balanced : Balanced inner) :
    Balanced (opening :: inner ++ [closing]) := by
  obtain ⟨oneOpen, noClose⟩ := count_openBrace isOpening
  obtain ⟨noOpen, oneClose⟩ := count_closeBrace isClosing
  have opened : NeverStray (opening :: inner) :=
    (NeverStray.singleton (by simp [isOpening])).append balanced.neverStray
  have count : closes (opening :: inner ++ [closing]) =
      opens (opening :: inner ++ [closing]) := by
    rw [closes_append, opens_append, closes_cons, opens_cons opening,
      balanced.settled]
    omega
  exact ⟨opened.concat (Nat.le_of_eq count), count⟩

/-! ## Braces that are still open -/

/-- The braces that the tokens leave open, the innermost first. -/
inductive Leaves : List Token → List Token → Prop where
  | nothing {tokens : List Token} : Balanced tokens → Leaves tokens []
  | brace {front back stack : List Token} {brace : Token} :
      Leaves front stack → brace.kind = .openBrace → Balanced back →
      Leaves (front ++ brace :: back) (brace :: stack)

namespace Leaves

variable {tokens stack : List Token} {token : Token}

theorem append (leaves : Leaves tokens stack) {more : List Token}
    (balanced : Balanced more) : Leaves (tokens ++ more) stack := by
  cases leaves with
  | nothing whole => exact .nothing (whole.append balanced)
  | brace outer opening inner =>
      rw [List.append_assoc, List.cons_append]
      exact .brace outer opening (inner.append balanced)

theorem neverStray (leaves : Leaves tokens stack) : NeverStray tokens := by
  induction leaves with
  | nothing balanced => exact balanced.neverStray
  | brace _ opening inner ih =>
      have single : NeverStray [_] := .singleton (by rw [opening]; simp)
      exact ih.append (single.append inner.neverStray)

theorem push (leaves : Leaves tokens stack)
    (opening : token.kind = .openBrace) :
    Leaves (tokens ++ [token]) (token :: stack) :=
  .brace leaves opening .nil

/-- A closing brace ends the block of the innermost brace. -/
theorem pop {innermost : Token} (leaves : Leaves tokens (innermost :: stack))
    (closing : token.kind = .closeBrace) :
    Leaves (tokens ++ [token]) stack := by
  cases leaves with
  | @brace front back _ _ outer opening inner =>
      have block := Balanced.block opening closing inner
      rw [List.append_assoc]
      exact outer.append block

theorem skip (leaves : Leaves tokens stack)
    (notOpening : token.kind ≠ .openBrace)
    (notClosing : token.kind ≠ .closeBrace) :
    Leaves (tokens ++ [token]) stack :=
  leaves.append (.singleton notOpening notClosing)

end Leaves

/-- Either the tokens leave some braces open, or they close a block that was
opened in front of them.  The induction is from the right, as tokens are
read. -/
theorem leaves_or_closed (tokens : List Token) :
    (∃ stack, Leaves tokens stack) ∨ Closed tokens := by
  induction tokens using List.reverseRecOn with
  | nil => exact .inl ⟨[], .nothing .nil⟩
  | append_singleton tokens token ih =>
      rcases ih with
        ⟨stack, leaves⟩ | ⟨inner, brace, after, rfl, closing, balanced⟩
      · by_cases opening : token.kind = .openBrace
        · exact .inl ⟨token :: stack, leaves.push opening⟩
        · by_cases closing : token.kind = .closeBrace
          · cases leaves with
            | nothing balanced =>
                exact .inr ⟨tokens, token, [], rfl, closing, balanced⟩
            | @brace front back stack brace outer isOpening inner =>
                exact .inl
                  ⟨stack, (Leaves.brace outer isOpening inner).pop closing⟩
          · exact .inl ⟨stack, leaves.skip opening closing⟩
      · exact .inr ⟨inner, brace, after ++ [token], by simp, closing, balanced⟩

theorem NeverStray.not_closed {tokens : List Token}
    (never : NeverStray tokens) :
    ¬ Closed tokens := by
  rintro ⟨inner, brace, after, rfl, closing, balanced⟩
  obtain ⟨none, one⟩ := count_closeBrace closing
  apply never.not_beyond
  rw [opens_append, closes_append, balanced.settled, none, one]
  omega

private theorem neverStray_of_not_closed {tokens : List Token}
    (open_ : ¬ Closed tokens) :
    NeverStray tokens := by
  obtain ⟨stack, leaves⟩ := (leaves_or_closed tokens).resolve_right open_
  exact leaves.neverStray

/-- Behind the last brace that nothing closes, all is balanced. -/
theorem lastUnclosed_iff {tokens : List Token} {brace : Token} :
    LastUnclosed tokens brace ↔
      ∃ front back, tokens = front ++ brace :: back ∧ brace.kind = .openBrace ∧
        Balanced back := by
  constructor
  · rintro ⟨front, back, split, opening, open_, others⟩
    refine ⟨front, back, split, opening, ?_⟩
    obtain ⟨stack, leaves⟩ := (leaves_or_closed back).resolve_right open_
    cases leaves with
    | nothing balanced => exact balanced
    | @brace inner after _ later _ isOpening balanced =>
        exact (balanced.neverStray.not_closed
          (others inner later after rfl isOpening)).elim
  · rintro ⟨front, back, split, opening, balanced⟩
    refine ⟨front, back, split, opening, balanced.neverStray.not_closed, ?_⟩
    rintro inner later after rfl isOpening
    refine Classical.byContradiction fun open_ => ?_
    obtain ⟨one, none⟩ := count_openBrace isOpening
    have innerCount := balanced.neverStray inner (List.prefix_append _ _)
    have afterCount := neverStray_of_not_closed open_ after (List.prefix_refl _)
    have total := balanced.settled
    rw [closes_append, opens_append, closes_cons, opens_cons, one, none]
      at total
    omega

/-- A second unclosed brace behind the first would unbalance what follows the
first. -/
theorem lastUnclosed_unique {tokens : List Token} {first second : Token}
    (isFirst : LastUnclosed tokens first)
    (isSecond : LastUnclosed tokens second) :
    first = second := by
  have noLater : ∀ {between back : List Token} {brace : Token},
      brace.kind = .openBrace → Balanced back →
        ¬ Balanced (between ++ brace :: back) := by
    intro between back brace opening inner outer
    obtain ⟨one, none⟩ := count_openBrace opening
    have count := outer.neverStray between (List.prefix_append _ _)
    have total := outer.settled
    rw [closes_append, opens_append, closes_cons, opens_cons, one, none,
      inner.settled] at total
    omega
  obtain ⟨front, back, rfl, opening, balanced⟩ := lastUnclosed_iff.mp isFirst
  obtain ⟨front', back', same, opening', balanced'⟩ :=
    lastUnclosed_iff.mp isSecond
  rcases append_cons_cases same with ⟨_, _, rfl⟩ | ⟨_, equal, _⟩ | ⟨_, _, rfl⟩
  · exact (noLater opening' balanced' balanced).elim
  · exact equal
  · exact (noLater opening balanced balanced').elim

end Outline

end StyleAudit
