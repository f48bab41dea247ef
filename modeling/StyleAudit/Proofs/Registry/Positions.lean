import StyleAudit.Proofs.Registry.Reachability

/-!
# Positions are exact from the tokens to the findings

A token knows its lines and columns, and these are what counting in the source
gives.  When a file cannot be read, the failure keeps only the line and the
column of the token to blame; building finds the offset again from these two.
-/

namespace StyleAudit

namespace Position

private theorem ofLineColumn_counted {front text : Text}
    (begins : front <+: text) :
    ofLineColumn text (counted front).line (counted front).column =
      counted front := by
  rw [← advance_first_eq_counted]
  exact ofLineColumn_advance begins

end Position

open Position (counted)

theorem Token.counted_of_mem_scan {source : Text} {token : Token}
    (member : token ∈ Token.scan source) :
    ∃ front, front ++ token.text <+: source ∧
      token.span = ⟨counted front, counted (front ++ token.text)⟩ := by
  obtain ⟨front, begins, span⟩ := (Token.inOrder_scan source).shown token member
  refine ⟨front, begins, ?_⟩
  rw [span, Position.advance_first_eq_counted,
    Position.advance_first_eq_counted]

theorem Token.ofLineColumn_of_mem_scan {source : Text} {token : Token}
    (member : token ∈ Token.scan source) :
    Position.ofLineColumn source token.span.start.line token.span.start.column =
      token.span.start := by
  obtain ⟨front, begins, span⟩ := Token.counted_of_mem_scan member
  rw [span]
  exact Position.ofLineColumn_counted
    ((List.prefix_append front token.text).trans begins)

/-- A file that cannot be read has a token to blame, and the failure is at its
beginning. -/
theorem SourceFile.exists_faulty_of_read {path source : Text}
    {failure : Failure}
    (failed : SourceFile.read path source = .error failure) :
    ∃ flaw token, Outline.Faulty (Token.scan source) flaw token ∧
      failure.cause =
        (Stylesheet.failureAt source flaw.message token).cause := by
  rcases Outline.ofTokens_cases (Token.scan source) with
    ⟨items, outline, -⟩ | ⟨flaw, token, stopped, faulty⟩
  · obtain ⟨sheet, done⟩ := Stylesheet.read_of_ofTokens_ok outline
    rw [SourceFile.read, done] at failed
    cases failed
  · rw [SourceFile.read, Stylesheet.read_of_ofTokens_error stopped] at failed
    exact ⟨flaw, token, faulty, by rw [← Except.error.inj failed]⟩

namespace Registry

/-- The finding that a file cannot be read because of something at a token. -/
def faultAt (path : Text) (flaw : Outline.Flaw) (token : Token) : Diagnostic :=
  { severity := .error, code := .parseError,
    message := s!"file excluded due to parse error: {flaw.message}",
    location := ⟨path, .point token.span.start⟩ }

theorem Traversal.exclusion_of_faulty {path source : Text} {flaw : Outline.Flaw}
    {token : Token} (member : token ∈ Token.scan source) :
    exclusion path source
      (Stylesheet.failureAt source flaw.message token).cause =
      some (faultAt path flaw token) := by
  rw [Stylesheet.failureAt, exclusion, Token.ofLineColumn_of_mem_scan member]
  rfl

/-- A token covers its text in the source, and both of its ends have the offset,
line and column that counting gives; its line and its column are enough to find
where it begins.  And of a file that can be reached and not read there is one
finding that says so, at the beginning of the token to blame. -/
theorem positions_counted (source : Text) :
    (∀ token ∈ Token.scan source,
      (∃ front, front ++ token.text <+: source ∧
        token.span = ⟨counted front, counted (front ++ token.text)⟩) ∧
      Position.ofLineColumn source token.span.start.line
        token.span.start.column =
        token.span.start) ∧
    ∀ (sources : Sources) (entries : List Text) (path : Text)
      (failure : Failure), sources.text path = source →
      Reached sources entries path →
      SourceFile.read path source = .error failure →
      ∃ flaw token, Outline.Faulty (Token.scan source) flaw token ∧
        token ∈ Token.scan source ∧
        (build sources entries).parseErrorsAt path =
          [faultAt path flaw token] := by
  constructor
  · intro token member
    exact ⟨Token.counted_of_mem_scan member,
      Token.ofLineColumn_of_mem_scan member⟩
  · intro sources entries path failure text reached failed
    obtain ⟨flaw, token, faulty, cause⟩ :=
      SourceFile.exists_faulty_of_read failed
    obtain ⟨order, visits, visited⟩ := exists_visits_build sources entries
    refine ⟨flaw, token, faulty, faulty.mem, ?_⟩
    rw [visits.parseErrorsAt_of_mem ((visited path).mpr reached),
      Traversal.excluded?, text, failed]
    simp only [cause, Traversal.exclusion_of_faulty faulty.mem,
      Option.toList_some]

/-- A file with a string that is not closed, behind a wide character and a line
that ends in two characters. -/
def unclosed : Sources :=
  [("a".toList, "é\r\n  \"x\\\ny".toList)]

theorem positions_counted_unclosed :
    Reached unclosed ["a".toList] "a".toList ∧
    ∃ flaw token,
      Outline.Faulty (Token.scan (unclosed.text "a".toList)) flaw token ∧
      token.span.start = ⟨6, 2, 3⟩ ∧
      (build unclosed ["a".toList]).parseErrorsAt "a".toList =
        [faultAt "a".toList flaw token] := by
  have reached : Reached unclosed ["a".toList] "a".toList := by decide +kernel
  obtain ⟨failure, failed⟩ :
      ∃ failure, SourceFile.read "a".toList (unclosed.text "a".toList) =
        .error failure := by
    cases done : SourceFile.read "a".toList (unclosed.text "a".toList) with
    | error failure => exact ⟨failure, rfl⟩
    | ok reading =>
        have broken :
            (SourceFile.read "a".toList (unclosed.text "a".toList)).isOk =
              false := by
          decide +kernel
        rw [done] at broken
        cases broken
  obtain ⟨-, found⟩ := positions_counted (unclosed.text "a".toList)
  obtain ⟨flaw, token, faulty, -, errors⟩ :=
    found unclosed _ _ failure rfl reached failed
  have starts : ((build unclosed ["a".toList]).parseErrorsAt "a".toList).map
      (·.location.span.start) = [⟨6, 2, 3⟩] := by
    decide +kernel
  rw [errors] at starts
  exact ⟨reached, flaw, token, faulty, List.singleton_inj.mp starts, errors⟩

end Registry

end StyleAudit
