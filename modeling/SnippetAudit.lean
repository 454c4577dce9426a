import SnippetAudit.Main
import SnippetAudit.Proofs.Schema.Conformance
import SnippetAudit.Proofs.Source.Blocks
import SnippetAudit.Proofs.Outcome.Order
import SnippetAudit.Proofs.Path.Join
import SnippetAudit.Proofs.Tree.Visits
import SnippetAudit.Proofs.Tree.Tasks
import SnippetAudit.Proofs.Text.Decoding
import SnippetAudit.Proofs.Tree.Resolution
import SnippetAudit.Proofs.Check.Coverage
import SnippetAudit.Proofs.Tree.Schedules
import SnippetAudit.Proofs.Tree.Isolation
import SnippetAudit.Proofs.Tree.Completion
import SnippetAudit.Proofs.Schema.CheckingOrder
import SnippetAudit.Proofs.Schema.FirstViolation
import SnippetAudit.Proofs.Schema.Tags
import SnippetAudit.Proofs.Schema.Edits
import SnippetAudit.Proofs.Source.Embedding
import SnippetAudit.Proofs.Config.Workable
import SnippetAudit.Proofs.Check.Status
import SnippetAudit.Proofs.Report.StatusLines
import SnippetAudit.Proofs.Report.JsonReport
import SnippetAudit.Proofs.Source.Concatenation
import SnippetAudit.Proofs.Source.Likeness
import SnippetAudit.Proofs.Check.Relocation
import SnippetAudit.Proofs.Schema.DefaultKeys
import SnippetAudit.Proofs.Report.Room
import SnippetAudit.Proofs.Outcome.Stability
import SnippetAudit.Proofs.Outcome.Grouping
import SnippetAudit.Proofs.Schema.Repair
import SnippetAudit.Proofs.Schema.RoundTrip
import SnippetAudit.Proofs.Tree.Shown
import SnippetAudit.Proofs.Tree.Depth
import SnippetAudit.Proofs.Outcome.History
import SnippetAudit.Proofs.Config.Loading
