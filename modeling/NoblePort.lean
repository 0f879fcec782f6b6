import NoblePort.KillFlag
import NoblePort.AuditFirst
import NoblePort.Overlap
import NoblePort.Closing
import NoblePort.Latency
import NoblePort.Faults
import NoblePort.Verdict
import NoblePort.Completion
import NoblePort.Connection
import NoblePort.Dialects
import NoblePort.Ownership
import NoblePort.Threads
import NoblePort.AuditFailure
import NoblePort.Endpoints
import NoblePort.StepLoop
import NoblePort.Standing
import NoblePort.Serial
import NoblePort.Startup
import NoblePort.Lineage
import NoblePort.Resumption
import NoblePort.RoundTrip
import NoblePort.Payload
import NoblePort.Terminal
import NoblePort.FixedWidth
import NoblePort.NewestFirst
import NoblePort.AuditTrail
import NoblePort.Grouping
import NoblePort.Exact
import NoblePort.Metrics
import NoblePort.Shlex
import NoblePort.Sandbox
import NoblePort.Permits
import NoblePort.Strides
import NoblePort.Notices
import NoblePort.Digest
import NoblePort.Priorities
import NoblePort.AlertBatches
import NoblePort.Announced
import NoblePort.Totals
import NoblePort.Percentile
import NoblePort.Valuation
import NoblePort.Placeholders
import NoblePort.Ancestry
import NoblePort.AtMostOnce
import NoblePort.Durability
import NoblePort.Progress
import NoblePort.ThreadRows
import NoblePort.StoredText
import NoblePort.Production
import NoblePort.Singletons
import NoblePort.Generator
import NoblePort.Finality
