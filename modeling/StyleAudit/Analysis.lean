import StyleAudit.Conformance.Check
import StyleAudit.Naming
import StyleAudit.Registry.Build
import StyleAudit.Report

/-!
# Analysis of a project

The whole analysis: the files that can be reached from the entry files are read
and indexed, the names of their declarations are checked, and their conformance
to interfaces is.
-/

namespace StyleAudit

namespace Analysis

/-- All that is found in a project, in the order in which it is found. -/
def findings (settings : Settings) (building : Registry.Building) :
    List Diagnostic :=
  building.diagnostics ++ building.registry.declarations.flatMap
    (Naming.check settings) ++
    Conformance.checkAll settings building.registry

/-- Analyses a project. -/
def run (settings : Settings) (sources : Sources) (entries : List Text) :
    Report :=
  let building := Registry.build sources entries
  .ofFindings building.registry (findings settings building)

/-- Analyses a project unless the run is cancelled. -/
def runUnless (cancelled : Bool) (settings : Settings) (sources : Sources)
    (entries : List Text) : Except Failure Report := do
  Cancellation.check cancelled
  pure (run settings sources entries)

end Analysis

end StyleAudit
