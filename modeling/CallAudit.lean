import CallAudit.Admission
import CallAudit.Audit.Basic
import CallAudit.Audit.Desk
import CallAudit.CallHistory
import CallAudit.Conversation
import CallAudit.Form
import CallAudit.Gauge
import CallAudit.Http.Charset
import CallAudit.Http.ContentType
import CallAudit.Http.Scripted
import CallAudit.Http.Session
import CallAudit.Http.Url
import CallAudit.Instruction
import CallAudit.Job.Basic
import CallAudit.Job.Params
import CallAudit.Json.Decode
import CallAudit.Json.Node
import CallAudit.Json.Numeral
import CallAudit.Json.Printer
import CallAudit.Json.Reader
import CallAudit.Json.Stored
import CallAudit.Json.Value
import CallAudit.LanguageModel
import CallAudit.Main
import CallAudit.Number.Binary
import CallAudit.Number.Decimal
import CallAudit.Number.Shortest
import CallAudit.Operator
import CallAudit.Rounds.Dispatch
import CallAudit.Rounds.Shift
import CallAudit.Rule
import CallAudit.Settings.Basic
import CallAudit.Settings.Load
import CallAudit.Store.Basic
import CallAudit.Store.Connection
import CallAudit.Store.Enqueue
import CallAudit.Store.Lifecycle
import CallAudit.Text.Blank
import CallAudit.Text.Fold
import CallAudit.Text.Lines
import CallAudit.Text.Quoted
import CallAudit.Text.Utf16
import CallAudit.Text.Utf8
import CallAudit.Time.Calendar
import CallAudit.Time.Format
import CallAudit.Time.Instant
import CallAudit.Verdict.Scores
import CallAudit.Verdict.Summary
import CallAudit.Workers.Pool
import CallAudit.Workers.Timeline
import CallAudit.Proofs.Admission
import CallAudit.Proofs.Results
import CallAudit.Proofs.Settings.Taken
import CallAudit.Proofs.Settings.Outcome
import CallAudit.Proofs.Text.Blank
import CallAudit.Proofs.Http.Exchange
import CallAudit.Proofs.Store.Watermark
import CallAudit.Proofs.Store.Backlog
import CallAudit.Proofs.Store.Chronicle
import CallAudit.Proofs.Store.Books
import CallAudit.Proofs.Store.ExactlyOnce
import CallAudit.Proofs.Store.StaleReading
import CallAudit.Proofs.Store.Release
import CallAudit.Proofs.Audit.Exclusion
import CallAudit.Proofs.Audit.Protocol
import CallAudit.Proofs.Rounds.Retirement
import CallAudit.Proofs.Time.Calendar
import CallAudit.Proofs.Time.Reading
import CallAudit.Proofs.Json.Record
import CallAudit.Proofs.Json.Grammar
import CallAudit.Proofs.Json.Reading
import CallAudit.Proofs.Json.Printing
import CallAudit.Proofs.Json.Order
import CallAudit.Proofs.Text.Utf8
import CallAudit.Proofs.Job.Snapshot
import CallAudit.Proofs.Job.Carriers
import CallAudit.Proofs.Job.RoundTrip
import CallAudit.Proofs.Store.Passes
import CallAudit.Proofs.Store.SoleEnqueuer
import CallAudit.Proofs.Store.Lifecycle
import CallAudit.Proofs.Job.Handover
import CallAudit.Proofs.Workers.Journal
import CallAudit.Proofs.Workers.Safety
import CallAudit.Proofs.Workers.Closing
import CallAudit.Proofs.Workers.Replay
import CallAudit.Proofs.Store.Reaping
import CallAudit.Proofs.Store.Dealing
import CallAudit.Proofs.Store.Draining
import CallAudit.Proofs.Store.ColdStart
import CallAudit.Proofs.Audit.TargetField
import CallAudit.Proofs.Settings.Ceiling
import CallAudit.Proofs.Store.Qualifying
import CallAudit.Proofs.Store.Moments
import CallAudit.Proofs.Store.ResumePoint
import CallAudit.Proofs.Store.Recognition
import CallAudit.Proofs.Store.Shares
import CallAudit.Proofs.Store.HandingOut
import CallAudit.Proofs.Workers.Capacity
import CallAudit.Proofs.Workers.Permits
import CallAudit.Proofs.Rounds.Dispatch
import CallAudit.Proofs.Rounds.Settling
import CallAudit.Proofs.Tenure
import CallAudit.Proofs.Settings.PoolSize
import CallAudit.Proofs.Verdict.Labels
import CallAudit.Proofs.Audit.Steps
import CallAudit.Proofs.Audit.Dossier
import CallAudit.Proofs.Audit.EmptyReply
import CallAudit.Proofs.Instruction.Unambiguous
import CallAudit.Proofs.Text.Lines
import CallAudit.Proofs.Text.Cuts
import CallAudit.Proofs.Verdict.Searches
import CallAudit.Proofs.Json.Nodes
import CallAudit.Proofs.Json.Numerals
import CallAudit.Proofs.Number.Nearest
import CallAudit.Proofs.Verdict.Fences
import CallAudit.Proofs.Verdict.Scorecard
import CallAudit.Proofs.Json.Numbers
import CallAudit.Proofs.Json.Stored
import CallAudit.Proofs.Number.Shortest
import CallAudit.Proofs.Number.Zero
import CallAudit.Proofs.Audit.Readiness
import CallAudit.Proofs.Conversation.Turns
import CallAudit.Proofs.Store.Counting
import CallAudit.Proofs.Settings.Names
import CallAudit.Proofs.Settings.Workable
