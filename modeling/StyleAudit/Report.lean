import StyleAudit.Diagnostic.Order
import StyleAudit.Registry.Basic

/-!
# Reports

A report lists what was found, in order and without repeats.
-/

namespace StyleAudit

/-- A list without those members that are equal to the one behind them. -/
def dropRepeats {α : Type} [DecidableEq α] : List α → List α
  | [] => []
  | [a] => [a]
  | a :: b :: rest =>
    if a = b then dropRepeats (b :: rest) else a :: dropRepeats (b :: rest)

namespace Diagnostic

/-- Diagnostics in order, with one of equal neighbours.  Diagnostics that the
order does not tell apart stay as they were. -/
def finish (diagnostics : List Diagnostic) : List Diagnostic :=
  dropRepeats (diagnostics.mergeSort Diagnostic.le)

end Diagnostic

/-- The outcome of an analysis. -/
structure Report where
  registry : Registry
  diagnostics : List Diagnostic
deriving DecidableEq, Repr

/-- When an analysis counts as failed. -/
inductive ExitPolicy where
  | failOnError
  | failOnWarning
deriving DecidableEq, Repr

namespace ExitPolicy

/-- Does a finding of this severity fail the analysis? -/
def fails : ExitPolicy → Severity → Bool
  | _, .error => true
  | .failOnError, .warning => false
  | .failOnWarning, .warning => true
  | _, .info => false

end ExitPolicy

namespace Report

/-- The report of what was found. -/
def ofFindings (registry : Registry) (findings : List Diagnostic) : Report :=
  ⟨registry, Diagnostic.finish findings⟩

/-- Was an error found? -/
def hasErrors (report : Report) : Bool :=
  report.diagnostics.any (·.isError)

/-- The number of findings of a severity. -/
def count (report : Report) (severity : Severity) : Nat :=
  report.diagnostics.countP (·.severity == severity)

/-- One if the analysis failed, and zero otherwise. -/
def exitCode (report : Report) (policy : ExitPolicy) : Nat :=
  if report.diagnostics.any (policy.fails ·.severity) then 1 else 0

/-- The ending of a noun for so many things. -/
def plural (count : Nat) : String :=
  if count = 1 then "" else "s"

/-- A finding with its notes and its suggestion, line by line. -/
def diagnosticLines (diagnostic : Diagnostic) : List String :=
  diagnostic.shown ::
    diagnostic.related.map
      (fun note => s!"  note: {note.location.shown}: {note.message}") ++
    diagnostic.suggestion.toList.map fun name =>
      s!"  help: did you mean `{name.shown}`?"

/-- The line that counts the findings. -/
def summary (report : Report) : String :=
  let errors := report.count .error
  let warnings := report.count .warning
  s!"{errors} error{plural errors}, {warnings} warning{plural warnings}, " ++
    s!"{report.count .info} info"

/-- The report as text. -/
def text (report : Report) : String :=
  String.join
    ((report.diagnostics.flatMap diagnosticLines ++ [report.summary]).map
      (· ++ "\n"))

end Report

end StyleAudit
