import StyleAudit.Proofs.Analysis.Placement

/-!
# A report is strictly ordered and complete

The order of findings looks at the line and column of a finding and at the
offset of its end, but neither at the offset of its beginning nor at the line
and column of its end.  It looks at the beginning of a note only.  Findings of
an analysis were found by walking over texts and by looking names up, so what
the order does not look at follows from what it looks at.
-/

namespace StyleAudit

/-! ## What the order does not look at -/

theorem Code.Measures.eq {code : Code} {source : Text} {left right : Span}
    (leftMeasures : code.Measures source left)
    (rightMeasures : code.Measures source right)
    (line : left.start.line = right.start.line)
    (column : left.start.column = right.start.column)
    (stop : left.stop.offset = right.stop.offset) : left = right := by
  cases code with
  | unknownEntry => exact Eq.trans leftMeasures (Eq.symm rightMeasures)
  | malformedTag =>
      exact Span.IsReckoned.eq leftMeasures rightMeasures line column stop
  | duplicateTag =>
      exact Span.IsReckoned.eq leftMeasures rightMeasures line column stop
  | _ => exact Span.IsExact.eq leftMeasures rightMeasures line column stop

theorem Text.eq_of_shown_between {before after : String} {left right : Text}
    (same : before ++ left.shown ++ after = before ++ right.shown ++ after) :
    left = right := by
  have characters := congrArg String.toList same
  simpa only [String.toList_append, Text.shown, String.toList_ofList,
    List.append_cancel_right_eq, List.append_cancel_left_eq] using characters

theorem Note.message_of_compareList {left right : Note}
    (same : Note.compareList [left] [right] = .eq) :
    left.message = right.message := by
  simp only [Note.compareList, Note.compare, Ordering.then_eq_eq] at same
  exact Text.eq_of_compare_toList same.1.2

namespace Registry

variable {registry : Registry}

theorem location_of_lookup? {left right : Text}
    {leftFound rightFound : Declaration}
    (leftLooked : registry.lookup? left = some leftFound)
    (rightLooked : registry.lookup? right = some rightFound)
    (same : left = right) :
    leftFound.location = rightFound.location := by
  subst same
  rw [leftLooked] at rightLooked
  rw [Option.some.inj rightLooked]

/-- A note is known by its text and the message of its finding. -/
theorem Explains.eq {leftCode rightCode : Code}
    {leftMessage rightMessage : String} {left right : List Note}
    (leftExplains : registry.Explains leftCode leftMessage left)
    (rightExplains : registry.Explains rightCode rightMessage right)
    (code : leftCode = rightCode) (message : leftMessage = rightMessage)
    (same : Note.compareList left right = .eq) : left = right := by
  cases leftExplains with
  | alone =>
      cases rightExplains with
      | alone => rfl
      | _ => cases same
  | earlier looked =>
      cases rightExplains with
      | alone => cases same
      | earlier other =>
          rw [location_of_lookup? looked other
            (Text.eq_of_shown_between message)]
      | otherKind => cases code
      | interface _ _ compared => rcases compared with rfl | rfl <;> cases code
  | otherKind _ looked =>
      cases rightExplains with
      | alone => cases same
      | earlier => cases code
      | otherKind _ other =>
          have text := Note.message_of_compareList same
          have name := Text.eq_of_shown_between text
          rw [location_of_lookup? looked other name, name]
      | interface _ _ compared => rcases compared with rfl | rfl <;> cases code
  | interface _ looked compared =>
      cases rightExplains with
      | alone => cases same
      | earlier => rcases compared with rfl | rfl <;> cases code
      | otherKind => rcases compared with rfl | rfl <;> cases code
      | interface _ other =>
          have text := Note.message_of_compareList same
          have name := Text.eq_of_shown_between text
          rw [Conformance.interfaceNote, Conformance.interfaceNote,
            location_of_lookup? looked other name, name]

end Registry

namespace Analysis

open Registry (build)

theorem Justified.eq_of_compare {sources : Sources} {registry : Registry}
    {left right : Diagnostic} (leftJustified : Justified sources registry left)
    (rightJustified : Justified sources registry right)
    (same : left.compare right = .eq) : left = right := by
  have alike := Diagnostic.alike_of_compare same
  have span : left.location.span = right.location.span := by
    have measures := leftJustified.located.measures
    rw [alike.code, alike.file] at measures
    exact measures.eq rightJustified.located.measures alike.line
      alike.column alike.stop
  have related :=
    leftJustified.notes.eq rightJustified.notes alike.code alike.message
      alike.related
  obtain ⟨severity, code, message, ⟨file, leftSpan⟩, leftRelated, suggestion⟩ :=
    left
  obtain ⟨rightSeverity, rightCode, rightMessage, ⟨rightFile, rightSpan⟩,
    rightRelated, rightSuggestion⟩ := right
  obtain ⟨rfl, -, -, rfl, rfl, rfl, -, rfl, -⟩ := alike
  obtain rfl : leftSpan = rightSpan := span
  obtain rfl : leftRelated = rightRelated := related
  rfl

/-! ## The report -/

private theorem mem_findings {settings : Settings}
    {building : Registry.Building} {diagnostic : Diagnostic} :
    diagnostic ∈ findings settings building ↔
      diagnostic ∈ building.diagnostics ∨
      (∃ declaration ∈ building.registry.declarations,
        diagnostic ∈ Naming.check settings declaration) ∨
      diagnostic ∈ Conformance.checkAll settings building.registry := by
  rw [findings, List.mem_append, List.mem_append, List.mem_flatMap, or_assoc]

/-- Each finding comes strictly before the next ones, so none is listed twice
and the order tells all of them apart.  Listed are the findings of building the
registry, those about the names of the declarations at the top of its files,
those about conformance, and no others. -/
theorem increasing_diagnostics_run (settings : Settings) (sources : Sources)
    (entries : List Text) :
    (run settings sources entries).diagnostics.Pairwise
      (fun left right => left.compare right = .lt) ∧
    (run settings sources entries).diagnostics.Nodup ∧
    (∀ left ∈ (run settings sources entries).diagnostics,
      ∀ right ∈ (run settings sources entries).diagnostics,
        left.compare right = .eq → left = right) ∧
    ∀ diagnostic, diagnostic ∈ (run settings sources entries).diagnostics ↔
      diagnostic ∈ (build sources entries).diagnostics ∨
      (∃ declaration ∈ (build sources entries).registry.declarations,
        diagnostic ∈ Naming.check settings declaration) ∨
      diagnostic ∈
        Conformance.checkAll settings (build sources entries).registry := by
  have apart : ∀ left ∈ findings settings (build sources entries),
      ∀ right ∈ findings settings (build sources entries),
        left.compare right = .eq → left = right := by
    intro left inLeft right inRight
    exact (justified_of_mem_findings inLeft).eq_of_compare
      (justified_of_mem_findings inRight)
  have increasing := Diagnostic.pairwise_finish apart
  refine ⟨increasing, ?_, ?_, ?_⟩
  · refine increasing.imp ?_
    rintro left right before rfl
    rw [Diagnostic.compare_self] at before
    cases before
  · intro left inLeft right inRight
    exact apart left (Diagnostic.mem_finish.mp inLeft) right
      (Diagnostic.mem_finish.mp inRight)
  · intro diagnostic
    exact Diagnostic.mem_finish.trans mem_findings

end Analysis

end StyleAudit
