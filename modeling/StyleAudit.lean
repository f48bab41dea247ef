import StyleAudit.Analysis
import StyleAudit.Doc.Render
import StyleAudit.Proofs.Analysis.Report
import StyleAudit.Proofs.Analysis.Unread
import StyleAudit.Proofs.ClassName.Grammar
import StyleAudit.Proofs.Conformance.Includes
import StyleAudit.Proofs.Diagnostic.Ties
import StyleAudit.Proofs.Doc.FixedPoint
import StyleAudit.Proofs.Naming.Depth
import StyleAudit.Proofs.Registry.Positions
import StyleAudit.Proofs.Registry.Serial
import StyleAudit.Proofs.Registry.Siblings
import StyleAudit.Proofs.Selector.FirstClass
import StyleAudit.Proofs.Snapshot.RoundTrip
import StyleAudit.Proofs.SourceFile.Comments
import StyleAudit.Proofs.SourceFile.Documented
import StyleAudit.Proofs.Stylesheet.Nesting
import StyleAudit.Proofs.Stylesheet.Remark
import StyleAudit.Token.Stream
import StyleAudit.Proofs.ClassName.Row
import StyleAudit.Proofs.ClassName.Violations
import StyleAudit.Proofs.ClassName.Flatten
import StyleAudit.Proofs.ClassName.Correction
import StyleAudit.Proofs.ClassName.Suggestion
import StyleAudit.Proofs.Conformance.Contract
import StyleAudit.Proofs.Conformance.Members
import StyleAudit.Proofs.SourceFile.Reopened
import StyleAudit.Proofs.SourceFile.Credited
import StyleAudit.Proofs.Doc.Accounting
import StyleAudit.Proofs.Doc.Location
import StyleAudit.Proofs.Doc.Rejected
import StyleAudit.Proofs.SourceFile.Modifiers
import StyleAudit.Proofs.Token.Alone
import StyleAudit.Proofs.Doc.WellFormed
import StyleAudit.Proofs.Doc.LineEnds
import StyleAudit.Proofs.Doc.OneLine
import StyleAudit.Proofs.Diagnostic.Finished
import StyleAudit.Proofs.Path.NormalForm
import StyleAudit.Proofs.Selector.Violations
import StyleAudit.Proofs.Token.LeftOpen
