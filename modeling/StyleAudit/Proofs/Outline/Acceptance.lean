import StyleAudit.Proofs.Outline.Balance
import StyleAudit.Proofs.Token.Layout
import StyleAudit.Stylesheet.Basic

/-!
# Which stylesheets can be read

The outline of a token list is found in one pass.  What the pass knows about the
tokens behind it, apart from the items, is which braces they leave open; so a
stylesheet can be read exactly if its braces are balanced and no construct is
left open, and a failure names the brace or construct that is to blame.
-/

namespace StyleAudit

namespace Outline

/-- None of the tokens is a construct that the end of the text leaves open. -/
def Intact (tokens : List Token) : Prop :=
  ∀ token ∈ tokens, ∀ construct, token.kind ≠ .unterminated construct

instance (tokens : List Token) : Decidable (Intact tokens) :=
  decidable_of_iff
    (∀ token ∈ tokens,
      ∀ construct ∈ [OpenConstruct.comment, .string, .parameters,
        .interpolation], token.kind ≠ .unterminated construct)
    (forall₂_congr fun token _ =>
      ⟨fun listed construct => listed construct (by cases construct <;> simp),
        fun all construct _ => all construct⟩)

/-- The flaw that keeps a token list from having an outline, and the token that
is to blame. -/
inductive Faulty (tokens : List Token) : Flaw → Token → Prop where
  | stray {front back : List Token} {brace : Token} :
      tokens = front ++ brace :: back → Balanced front →
      brace.kind = .closeBrace → Faulty tokens .strayBrace brace
  | unterminated {front back : List Token} {token : Token}
      {construct : OpenConstruct} :
      tokens = front ++ token :: back → Intact front → NeverStray front →
      token.kind = .unterminated construct →
      Faulty tokens (.unterminated construct) token
  | unclosed {brace : Token} :
      Intact tokens → NeverStray tokens → LastUnclosed tokens brace →
      Faulty tokens .unclosedBlock brace

namespace Draft

/-- The braces of the open blocks, the innermost first. -/
def openings (draft : Draft) : List Token :=
  draft.frames.map (·.opening)

theorem step_of_openBrace (draft : Draft) {token : Token}
    (opening : token.kind = .openBrace) :
    ∃ next, draft.step token = .ok next ∧
      next.openings = token :: draft.openings :=
  ⟨⟨⟨draft.items, draft.head, token⟩ :: draft.frames, [], []⟩,
    by rw [step, opening], rfl⟩

theorem step_of_closeBrace {draft : Draft} {token innermost : Token}
    {others : List Token} (closing : token.kind = .closeBrace)
    (inside : draft.openings = innermost :: others) :
    ∃ next, draft.step token = .ok next ∧ next.openings = others := by
  cases frames : draft.frames with
  | nil => simp [openings, frames] at inside
  | cons frame rest =>
      rw [openings, frames, List.map_cons] at inside
      exact ⟨⟨rest, frame.before ++
        [.block frame.head frame.opening draft.closed token], []⟩,
        by rw [step, closing, frames], (List.cons.inj inside).2⟩

theorem step_of_strayBrace {draft : Draft} {token : Token}
    (closing : token.kind = .closeBrace) (outside : draft.openings = []) :
    draft.step token = .error ⟨.strayBrace, token.span⟩ := by
  have noFrames : draft.frames = [] := List.map_eq_nil_iff.mp outside
  rw [step, closing, noFrames]

/-- A token that is no brace and leaves nothing open keeps the open blocks. -/
theorem step_of_other (draft : Draft) {token : Token}
    (notOpening : token.kind ≠ .openBrace)
    (notClosing : token.kind ≠ .closeBrace)
    (intact : ∀ construct, token.kind ≠ .unterminated construct) :
    ∃ next, draft.step token = .ok next ∧ next.openings = draft.openings := by
  unfold step
  split
  case h_1 => split <;> exact ⟨_, rfl, rfl⟩
  case h_2 => split <;> exact ⟨_, rfl, rfl⟩
  case h_3 opening => exact (notOpening opening).elim
  case h_4 closing => exact (notClosing closing).elim
  case h_5 construct leftOpen => exact (intact construct leftOpen).elim
  case h_6 => exact ⟨_, rfl, rfl⟩
  case h_7 => exact ⟨_, rfl, rfl⟩

/-- All that one token can do behind tokens that leave certain braces open. -/
theorem step_cases {draft : Draft} {tokens : List Token}
    (leaves : Leaves tokens draft.openings) (token : Token) :
    (∃ next, draft.step token = .ok next ∧
      Leaves (tokens ++ [token]) next.openings ∧
      ∀ construct, token.kind ≠ .unterminated construct) ∨
    (Balanced tokens ∧ token.kind = .closeBrace ∧
      draft.step token = .error ⟨.strayBrace, token.span⟩) ∨
    ∃ construct, token.kind = .unterminated construct ∧
      draft.step token = .error ⟨.unterminated construct, token.span⟩ := by
  by_cases opening : token.kind = .openBrace
  · obtain ⟨next, stepped, pushed⟩ := draft.step_of_openBrace opening
    exact .inl ⟨next, stepped, pushed ▸ leaves.push opening, by simp [opening]⟩
  by_cases closing : token.kind = .closeBrace
  · cases inside : draft.openings with
    | nil =>
        rw [inside] at leaves
        cases leaves with
        | nothing balanced =>
            exact .inr
              (.inl ⟨balanced, closing, step_of_strayBrace closing inside⟩)
    | cons innermost others =>
        obtain ⟨next, stepped, popped⟩ := step_of_closeBrace closing inside
        rw [inside] at leaves
        exact .inl
          ⟨next, stepped, popped ▸ leaves.pop closing, by simp [closing]⟩
  by_cases leftOpen : ∃ construct, token.kind = .unterminated construct
  · obtain ⟨construct, kind⟩ := leftOpen
    exact .inr (.inr ⟨construct, kind, by rw [step, kind]⟩)
  · have intact : ∀ construct, token.kind ≠ .unterminated construct :=
      fun construct kind => leftOpen ⟨construct, kind⟩
    obtain ⟨next, stepped, same⟩ := draft.step_of_other opening closing intact
    exact .inl ⟨next, stepped, same ▸ leaves.skip opening closing, intact⟩

theorem finish_of_closed {draft : Draft} (outside : draft.openings = []) :
    draft.finish = .ok draft.closed := by
  have noFrames : draft.frames = [] := List.map_eq_nil_iff.mp outside
  rw [finish, noFrames]

private theorem finish_of_open {draft : Draft} {innermost : Token}
    {others : List Token} (inside : draft.openings = innermost :: others) :
    draft.finish = .error ⟨.unclosedBlock, innermost.span⟩ := by
  cases frames : draft.frames with
  | nil => simp [openings, frames] at inside
  | cons frame rest =>
      rw [openings, frames, List.map_cons] at inside
      rw [finish, frames, ← (List.cons.inj inside).1]

/-- The whole pass: it ends knowing the open braces of all tokens, or it stops
at a fault. -/
theorem run_cases {draft : Draft} {front : List Token}
    (leaves : Leaves front draft.openings) (intact : Intact front)
    (rest : List Token) :
    (∃ final, rest.foldlM step draft = .ok final ∧
      Leaves (front ++ rest) final.openings ∧ Intact (front ++ rest)) ∨
    ∃ flaw token, rest.foldlM step draft = .error ⟨flaw, token.span⟩ ∧
      Faulty (front ++ rest) flaw token := by
  induction rest generalizing draft front with
  | nil => exact .inl ⟨draft, rfl, by simpa using leaves, by simpa using intact⟩
  | cons token rest ih =>
      rw [List.foldlM_cons]
      rcases step_cases leaves token with
        ⟨next, stepped, nextLeaves, whole⟩ | ⟨balanced, closing, stopped⟩ |
        ⟨construct, leftOpen, stopped⟩
      · have nextIntact : Intact (front ++ [token]) := by
          intro other member
          rcases List.mem_append.mp member with early | last
          · exact intact other early
          · rw [List.mem_singleton.mp last]
            exact whole
        rw [stepped]
        have later := ih nextLeaves nextIntact
        rw [List.append_assoc, List.singleton_append] at later
        exact later
      · rw [stopped]
        exact .inr ⟨_, token, rfl, .stray rfl balanced closing⟩
      · rw [stopped]
        exact .inr ⟨_, token, rfl,
          .unterminated rfl intact leaves.neverStray leftOpen⟩

end Draft

/-- A token list has an outline, or it has a fault that says why not. -/
theorem ofTokens_cases (tokens : List Token) :
    (∃ items, ofTokens tokens = .ok items ∧ Intact tokens ∧ Balanced tokens) ∨
      ∃ flaw token, ofTokens tokens = .error ⟨flaw, token.span⟩ ∧
        Faulty tokens flaw token := by
  have start : Leaves [] (Draft.openings {}) := .nothing .nil
  rcases Draft.run_cases start (by simp [Intact]) tokens with
    ⟨final, ran, leaves, intact⟩ | ⟨flaw, token, stopped, faulty⟩
  · rw [List.nil_append] at leaves intact
    have outline : ofTokens tokens = final.finish := by
      rw [ofTokens, ran]
      rfl
    rw [outline]
    cases inside : final.openings with
    | nil =>
        rw [inside] at leaves
        cases leaves with
        | nothing balanced =>
            exact .inl ⟨_, Draft.finish_of_closed inside, intact, balanced⟩
    | cons innermost others =>
        have never := leaves.neverStray
        rw [inside] at leaves
        refine .inr ⟨_, innermost, Draft.finish_of_open inside,
          .unclosed intact never ?_⟩
        cases leaves with
        | brace _ opening inner =>
            exact lastUnclosed_iff.mpr ⟨_, _, rfl, opening, inner⟩
  · refine .inr ⟨flaw, token, ?_, faulty⟩
    rw [ofTokens, stopped]
    rfl

theorem firstStray_of_balanced {front back : List Token} {brace : Token}
    (balanced : Balanced front) (closing : brace.kind = .closeBrace) :
    FirstStray (front ++ brace :: back) brace := by
  obtain ⟨none, one⟩ := count_closeBrace closing
  refine ⟨front, back, rfl, closing, ?_, balanced.neverStray⟩
  rw [opens_append, closes_append, none, one, balanced.settled]
  omega

/-! ## Faults of a source

A construct that is left open is the last thing in a source, so no stray brace
comes behind it, and the three flaws exclude one another. -/

theorem neverStray_scan_of_unterminated {source : Text}
    {front back : List Token} {token : Token} {construct : OpenConstruct}
    (split : Token.scan source = front ++ token :: back)
    (never : NeverStray front)
    (leftOpen : token.kind = .unterminated construct) :
    NeverStray (Token.scan source) ∧
      back = [Token.endAt (Position.first.advance source)] := by
  have last :=
    (Token.layout_scan source).eq_endAt_of_unterminated split leftOpen
  have tokenNever : NeverStray [token] := .singleton (by simp [leftOpen])
  have endNever : NeverStray back := by
    rw [last]
    exact .singleton (by simp [Token.endAt])
  rw [split]
  exact ⟨never.append (tokenNever.append endNever), last⟩

variable {source : Text} {flaw : Flaw} {token : Token}

theorem Faulty.not_accepted (faulty : Faulty (Token.scan source) flaw token) :
    ¬ (Intact (Token.scan source) ∧ Balanced (Token.scan source)) := by
  rintro ⟨intact, balanced⟩
  have noStray := not_firstStray_of_neverStray balanced.neverStray
  cases faulty with
  | stray split before closing =>
      exact noStray token (split ▸ firstStray_of_balanced before closing)
  | unterminated split _ _ leftOpen =>
      exact intact token (by simp [split]) _ leftOpen
  | unclosed _ _ last =>
      obtain ⟨front, back, split, opening, inner⟩ := lastUnclosed_iff.mp last
      obtain ⟨one, none⟩ := count_openBrace opening
      have count := balanced.neverStray front (split ▸ List.prefix_append _ _)
      have total := balanced.settled
      rw [split, closes_append, opens_append, closes_cons,
        opens_cons, one, none, inner.settled] at total
      omega

theorem Faulty.eq_of_firstStray (faulty : Faulty (Token.scan source) flaw token)
    {brace : Token} (isFirst : FirstStray (Token.scan source) brace) :
    flaw = .strayBrace ∧ token = brace := by
  cases faulty with
  | stray split before closing =>
      have alsoFirst : FirstStray (Token.scan source) token :=
        split ▸ firstStray_of_balanced before closing
      exact ⟨rfl, firstStray_unique alsoFirst isFirst⟩
  | unterminated split _ never leftOpen =>
      have whole := (neverStray_scan_of_unterminated split never leftOpen).1
      exact (not_firstStray_of_neverStray whole brace isFirst).elim
  | unclosed _ never _ =>
      exact (not_firstStray_of_neverStray never brace isFirst).elim

theorem Faulty.eq_of_unterminated
    (faulty : Faulty (Token.scan source) flaw token)
    (noStray : ¬ ∃ brace, FirstStray (Token.scan source) brace) {blamed : Token}
    {construct : OpenConstruct} (member : blamed ∈ Token.scan source)
    (leftOpen : blamed.kind = .unterminated construct) :
    flaw = .unterminated construct ∧ token = blamed := by
  cases faulty with
  | stray split before closing =>
      exact (noStray
        ⟨token, split ▸ firstStray_of_balanced before closing⟩).elim
  | unterminated split intact never tokenOpen =>
      have last := (neverStray_scan_of_unterminated split never tokenOpen).2
      rw [split, last] at member
      simp only [List.mem_append, List.mem_cons, List.not_mem_nil, or_false]
        at member
      rcases member with early | same | same
      · exact (intact blamed early construct leftOpen).elim
      · subst same
        rw [tokenOpen] at leftOpen
        exact ⟨congrArg Flaw.unterminated
          (Token.Kind.unterminated.inj leftOpen), rfl⟩
      · simp [same, Token.endAt] at leftOpen
  | unclosed intact _ _ => exact (intact blamed member construct leftOpen).elim

theorem Faulty.lastUnclosed (faulty : Faulty (Token.scan source) flaw token)
    (noStray : ¬ ∃ brace, FirstStray (Token.scan source) brace)
    (intact : Intact (Token.scan source)) :
    flaw = .unclosedBlock ∧ LastUnclosed (Token.scan source) token := by
  cases faulty with
  | stray split before closing =>
      exact (noStray
        ⟨token, split ▸ firstStray_of_balanced before closing⟩).elim
  | unterminated split _ _ leftOpen =>
      exact (intact token (by simp [split]) _ leftOpen).elim
  | unclosed _ _ last => exact ⟨rfl, last⟩

end Outline

namespace Stylesheet

open Outline

/-- The failure to read `source` because of something at `token`. -/
def failureAt (source : Text) (message : String) (token : Token) : Failure :=
  { cause := .malformed message token.span.start.line token.span.start.column
      ((Text.lines source)[token.span.start.line - 1]?.getD []) }

theorem read_of_ofTokens_ok {source : Text} {items : List Item}
    (outline : ofTokens (Token.scan source) = .ok items) :
    ∃ sheet, read source = .ok sheet :=
  ⟨ofItems none items, by rw [read, parse, outline]; rfl⟩

theorem read_of_ofTokens_error {source : Text} {flaw : Flaw} {token : Token}
    (stopped : ofTokens (Token.scan source) = .error ⟨flaw, token.span⟩) :
    read source = .error (failureAt source flaw.message token) := by
  rw [read, parse, stopped]
  rfl

/-- A
stylesheet can be read exactly if it leaves no construct open and its braces are
balanced.  Otherwise the failure is at the first stray brace; if there is none,
at the construct that is left open; and if all are closed, at the last brace
whose block nothing closes. -/
theorem read_outcome (source : Text) :
    ((∃ sheet, read source = .ok sheet) ↔
      Intact (Token.scan source) ∧ Balanced (Token.scan source)) ∧
    (∀ brace, FirstStray (Token.scan source) brace →
      read source = .error (failureAt source "unexpected '\x7d'" brace)) ∧
    (∀ token construct, (¬ ∃ brace, FirstStray (Token.scan source) brace) →
      token ∈ Token.scan source → token.kind = .unterminated construct →
      read source = .error (failureAt source construct.message token)) ∧
    ((¬ ∃ brace, FirstStray (Token.scan source) brace) →
      Intact (Token.scan source) → ¬ Balanced (Token.scan source) →
      (∃ brace, LastUnclosed (Token.scan source) brace) ∧
        ∀ brace, LastUnclosed (Token.scan source) brace →
          read source = .error (failureAt source "unclosed block" brace)) := by
  rcases ofTokens_cases (Token.scan source) with
    ⟨items, outline, intact, balanced⟩ | ⟨flaw, token, stopped, faulty⟩
  · have noStray := not_firstStray_of_neverStray balanced.neverStray
    refine ⟨⟨fun _ => ⟨intact, balanced⟩, fun _ => read_of_ofTokens_ok outline⟩,
      ?_, ?_, ?_⟩
    · intro brace stray
      exact (noStray brace stray).elim
    · intro token construct _ member leftOpen
      exact (intact token member construct leftOpen).elim
    · intro _ _ unbalanced
      exact (unbalanced balanced).elim
  · have failed := read_of_ofTokens_error stopped
    refine ⟨⟨?_, fun accepted => (faulty.not_accepted accepted).elim⟩, ?_, ?_,
      ?_⟩
    · rintro ⟨sheet, succeeded⟩
      rw [failed] at succeeded
      cases succeeded
    · intro brace stray
      obtain ⟨rfl, rfl⟩ := faulty.eq_of_firstStray stray
      exact failed
    · intro blamed construct noStray member leftOpen
      obtain ⟨rfl, rfl⟩ := faulty.eq_of_unterminated noStray member leftOpen
      exact failed
    · intro noStray intact _
      obtain ⟨rfl, last⟩ := faulty.lastUnclosed noStray intact
      refine ⟨⟨token, last⟩, fun brace alsoLast => ?_⟩
      rw [lastUnclosed_unique alsoLast last]
      exact failed

/-- One source for each flaw: a brace too many, a string left open in a block,
and a block left open around one that is closed. -/
theorem read_outcome_flaws :
    read ['a', '{', '}', '}'] =
        .error
          { cause := .malformed "unexpected '\x7d'" 1 4 ['a', '{', '}', '}'] } ∧
      read ['a', '{', '\n', '"', 'b'] =
        .error
          { cause := .malformed "unterminated string literal" 2 1 ['"', 'b'] } ∧
      read ['a', '{', 'b', '{', '}'] =
        .error
          { cause :=
              .malformed "unclosed block" 1 2 ['a', '{', 'b', '{', '}'] } := by
  refine ⟨?_, ?_, ?_⟩
  · let tokens := Token.scan ['a', '{', '}', '}']
    have stray : FirstStray tokens
        ⟨.closeBrace, ⟨⟨3, 1, 4⟩, ⟨4, 1, 5⟩⟩, ['}'], []⟩ :=
      ⟨tokens.take 3, tokens.drop 4, by decide +kernel, rfl, by decide +kernel,
        by decide +kernel⟩
    exact (read_outcome _).2.1 _ stray
  · let tokens := Token.scan ['a', '{', '\n', '"', 'b']
    have noStray : ¬ ∃ brace, FirstStray tokens brace := fun ⟨brace, stray⟩ =>
      not_firstStray_of_neverStray (by decide +kernel) brace stray
    exact (read_outcome _).2.2.1
      ⟨.unterminated .string, ⟨⟨3, 2, 1⟩, ⟨5, 2, 3⟩⟩, ['"', 'b'], []⟩
      .string noStray (by decide +kernel) rfl
  · let tokens := Token.scan ['a', '{', 'b', '{', '}']
    have noStray : ¬ ∃ brace, FirstStray tokens brace := fun ⟨brace, stray⟩ =>
      not_firstStray_of_neverStray (by decide +kernel) brace stray
    have last : LastUnclosed tokens
        ⟨.openBrace, ⟨⟨1, 1, 2⟩, ⟨2, 1, 3⟩⟩, ['{'], []⟩ :=
      lastUnclosed_iff.mpr
        ⟨tokens.take 1, tokens.drop 2, by decide +kernel,
          rfl, by decide +kernel⟩
    exact ((read_outcome _).2.2.2 noStray (by decide +kernel)
      (by decide +kernel)).2 _ last

end Stylesheet

end StyleAudit
