import StyleAudit.Position

/-!
# Failures

A failure means that a step has no result at all: a stylesheet is not well
formed, the run was cancelled, or a snapshot cannot be read.  What is merely
wrong in a stylesheet is a diagnostic.
-/

namespace StyleAudit

namespace Failure

/-- Why a step has no result. -/
inductive Cause where
  /-- A construct is left open or closed too often, in the given line of the
  source. -/
  | malformed (detail : String) (line column : Nat) (sourceLine : Text)
  /-- The caller cancelled the run. -/
  | cancelled
  /-- A snapshot cannot be written or read. -/
  | snapshot (detail : String)
deriving DecidableEq, Repr

namespace Cause

/-- A malformed source, at the beginning of a span. -/
def malformedAt (detail : String) (span : Span) (source : Text) : Cause :=
  .malformed detail span.start.line span.start.column
    ((Text.lines source)[span.start.line - 1]?.getD [])

/-- The cause in words. -/
def message : Cause → String
  | .malformed detail line column _ =>
    s!"parse error at {line}:{column}: {detail}"
  | .cancelled => "analysis cancelled"
  | .snapshot detail => s!"serialization error: {detail}"

/-- The line and column of a malformed source. -/
def position? : Cause → Option (Nat × Nat)
  | .malformed _ line column _ => some (line, column)
  | .cancelled => none
  | .snapshot _ => none

end Cause

/-- What was being done when a step failed. -/
structure Context where
  /-- The file at hand. -/
  file : Option Text := none
  /-- The stage of the work. -/
  stage : Option String := none
deriving DecidableEq, Repr

namespace Context

/-- The context in words. -/
def shown (context : Context) : String :=
  match context.file, context.stage with
  | none, none => ""
  | some file, none => s!"in {file.shown}"
  | none, some stage => s!"during {stage}"
  | some file, some stage => s!"in {file.shown} during {stage}"

end Context

end Failure

/-- A step that has no result. -/
structure Failure where
  /-- Why there is none. -/
  cause : Failure.Cause
  /-- What was being done. -/
  context : Option Failure.Context := none
deriving DecidableEq, Repr

namespace Failure

/-- The failure in words. -/
def message (failure : Failure) : String :=
  failure.cause.message

/-- The failure of a cancelled run. -/
def cancelled : Failure :=
  { cause := .cancelled }

end Failure

end StyleAudit
