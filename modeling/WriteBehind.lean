import WriteBehind.Atom.Basic
import WriteBehind.Atom.Catalog
import WriteBehind.Atom.Document
import WriteBehind.Atom.Id
import WriteBehind.Backend.Basic
import WriteBehind.Backend.Contents
import WriteBehind.Backend.Memory
import WriteBehind.Backend.Scripted
import WriteBehind.Backend.Traffic
import WriteBehind.Bench.CommandLine
import WriteBehind.Bench.Duration
import WriteBehind.Bench.Log
import WriteBehind.Bench.Luck
import WriteBehind.Bench.Round
import WriteBehind.Bench.Run
import WriteBehind.Bench.Settings
import WriteBehind.Buffer
import WriteBehind.Calendar
import WriteBehind.Coding
import WriteBehind.Config
import WriteBehind.Connection
import WriteBehind.Decimal.Dyadic
import WriteBehind.Decimal.Fixed
import WriteBehind.Decimal.Layout
import WriteBehind.Decimal.Shortest
import WriteBehind.Digest.ContentId
import WriteBehind.Digest.Sha256
import WriteBehind.EntryState
import WriteBehind.Error
import WriteBehind.Json.Decode
import WriteBehind.Json.Number
import WriteBehind.Json.Text
import WriteBehind.Json.Tree
import WriteBehind.Json.Value
import WriteBehind.Main
import WriteBehind.Pool.Basic
import WriteBehind.Pool.Borrowing
import WriteBehind.Pool.Lending
import WriteBehind.Queue.Calls
import WriteBehind.Queue.Event
import WriteBehind.Queue.Recorder
import WriteBehind.Queue.Schedule
import WriteBehind.Queue.State
import WriteBehind.Queue.Step
import WriteBehind.Queue.Workers
import WriteBehind.Record
import WriteBehind.Sequence
import WriteBehind.Session.Backstage
import WriteBehind.Session.Basic
import WriteBehind.Session.Report
import WriteBehind.Session.Step
import WriteBehind.Stats.Counters
import WriteBehind.Stats.Exposition
import WriteBehind.Stats.Histogram
import WriteBehind.Stats.Report
import WriteBehind.Stats.Snapshot
import WriteBehind.Table
import WriteBehind.Text.Hidden
import WriteBehind.Text.Quoted
import WriteBehind.Toml.Document
import WriteBehind.Toml.Scalar
import WriteBehind.Toml.Text
import WriteBehind.Toml.Value
import WriteBehind.Watermarks
import WriteBehind.Word
import WriteBehind.Proofs.Json.Text
import WriteBehind.Proofs.Json.Number
import WriteBehind.Proofs.Json.Real
import WriteBehind.Proofs.Json.Fractions
import WriteBehind.Proofs.Json.Scan
import WriteBehind.Proofs.Json.Value
import WriteBehind.Proofs.Json.Decode
import WriteBehind.Proofs.Atom.Identity
import WriteBehind.Proofs.Atom.Document
import WriteBehind.Proofs.Backend.Contents
import WriteBehind.Proofs.Backend.Traffic
import WriteBehind.Proofs.Buffer.Valid
import WriteBehind.Proofs.Buffer.Runs
import WriteBehind.Proofs.Buffer.Dispatch
import WriteBehind.Proofs.Pool.Balance
import WriteBehind.Proofs.Pool.Permits
import WriteBehind.Proofs.Pool.Moves
import WriteBehind.Proofs.Pool.Ownership
import WriteBehind.Proofs.Pool.Service
import WriteBehind.Proofs.Queue.Frame
import WriteBehind.Proofs.Queue.History
import WriteBehind.Proofs.Queue.Turns
import WriteBehind.Proofs.Queue.Looks
import WriteBehind.Proofs.Queue.Works
import WriteBehind.Proofs.Queue.Steps
import WriteBehind.Proofs.Queue.Tended
import WriteBehind.Proofs.Queue.Phases
import WriteBehind.Proofs.Queue.Ledger
import WriteBehind.Proofs.Queue.Attempts
import WriteBehind.Proofs.Queue.Issued
import WriteBehind.Proofs.Queue.Receipts
import WriteBehind.Proofs.Queue.Delivery
import WriteBehind.Proofs.Queue.Fence
import WriteBehind.Proofs.Queue.Passed
import WriteBehind.Proofs.Queue.Barrier
import WriteBehind.Proofs.Queue.Reports
import WriteBehind.Proofs.Queue.Surfacing
import WriteBehind.Proofs.Queue.Answers
import WriteBehind.Proofs.Queue.Teardown
import WriteBehind.Proofs.Queue.Closing
import WriteBehind.Proofs.Queue.Dispatch
import WriteBehind.Proofs.Queue.Shutdown
import WriteBehind.Proofs.Queue.Totals
import WriteBehind.Proofs.Queue.Veils
import WriteBehind.Proofs.Queue.Lending
import WriteBehind.Proofs.Queue.Settling
import WriteBehind.Proofs.Queue.Rest
import WriteBehind.Proofs.Buffer.Depth
import WriteBehind.Proofs.Buffer.Strays
import WriteBehind.Proofs.Buffer.Targets
import WriteBehind.Proofs.Queue.Producers
import WriteBehind.Proofs.Queue.Backpressure
import WriteBehind.Proofs.Queue.Release
import WriteBehind.Proofs.Queue.Bare
import WriteBehind.Proofs.Queue.Transparency
import WriteBehind.Proofs.Stats.Histogram
import WriteBehind.Proofs.Queue.Accounts
import WriteBehind.Proofs.Queue.Custody
import WriteBehind.Proofs.Queue.Returns
import WriteBehind.Proofs.Queue.Schedule
import WriteBehind.Proofs.Queue.Rounds
import WriteBehind.Proofs.Queue.Shadows
import WriteBehind.Proofs.Queue.Scripts
import WriteBehind.Proofs.Queue.Refusals
import WriteBehind.Proofs.Session.Runs
import WriteBehind.Proofs.Session.Values
import WriteBehind.Proofs.Session.Requests
import WriteBehind.Proofs.Session.Documents
import WriteBehind.Proofs.Session.Following
import WriteBehind.Proofs.Session.Readable
import WriteBehind.Proofs.Session.Schedule
import WriteBehind.Proofs.Session.Sharing
import WriteBehind.Proofs.Session.Opening
import WriteBehind.Proofs.Record
import WriteBehind.Proofs.Configuration
import WriteBehind.Proofs.Folds
import WriteBehind.Proofs.Decimal.Rounding
import WriteBehind.Proofs.Decimal.Shortest
import WriteBehind.Proofs.Decimal.Quotients
import WriteBehind.Proofs.Decimal.Reading
import WriteBehind.Proofs.Word
import WriteBehind.Proofs.Stats.Cumulative
import WriteBehind.Proofs.Stats.Durations
import WriteBehind.Proofs.Stats.Percentiles
import WriteBehind.Proofs.Stats.Window
import WriteBehind.Proofs.Stats.Exposition
import WriteBehind.Proofs.Stats.Labels
import WriteBehind.Proofs.Stats.Bounds
import WriteBehind.Proofs.Stats.Buckets
import WriteBehind.Bench.Step
import WriteBehind.Proofs.Queue.Calm
import WriteBehind.Proofs.Bench.Ticks
import WriteBehind.Proofs.Bench.Orders
import WriteBehind.Proofs.Bench.Requests
import WriteBehind.Proofs.Bench.Fences
import WriteBehind.Proofs.Bench.Documents
import WriteBehind.Proofs.Bench.Accounts
import WriteBehind.Proofs.Bench.Schedule
import WriteBehind.Proofs.Bench.Workload
