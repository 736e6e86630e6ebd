import Monoblok.Bytes
import Monoblok.Lib.Tokens
import Monoblok.Lib.Reader
import Monoblok.Lib.Runs
import Monoblok.Lib.Unwinding
import Monoblok.Lib.Trace
import Monoblok.Lib.Total
import Monoblok.Lib.Cursor
import Monoblok.Lib.Relational
import Monoblok.Lib.Coincide
import Monoblok.Lib.Base64
import Monoblok.Lib.EventStream
import Monoblok.Lib.JsonText
import Monoblok.Lib.Parsing
import Monoblok.Lib.LittleEndian
import Monoblok.Lib.OpenAddressing
import Monoblok.Lib.SwapRemove
import Monoblok.Lib.CheckedSize
import Monoblok.Lib.Area
import Monoblok.Lib.Alignment
import Monoblok.Lib.Circular
import Monoblok.Lib.Sliding
import Monoblok.Proto.Subject
import Monoblok.Proto.Parse
import Monoblok.Proto.Write
import Monoblok.Proto.Codec
import Monoblok.Proto.Stream
import Monoblok.Router.Match
import Monoblok.Router.State
import Monoblok.Router.Agreement
import Monoblok.Memory.Reserve
import Monoblok.Memory.Buf
import Monoblok.Memory.Arena
import Monoblok.Memory.ArenaRuns
import Monoblok.Router.Lvc
import Monoblok.Router.Subs
import Monoblok.Router.Publish
import Monoblok.Router.Invariant
import Monoblok.Router.Cache
import Monoblok.Router.Tables
import Monoblok.Router.Dispatch
import Monoblok.Router.LastValue
import Monoblok.Router.Subscribe
import Monoblok.Router.Turns
import Monoblok.Router.Accounting
import Monoblok.Router.Lifetime
import Monoblok.Router.Queues
import Monoblok.Router.Live
import Monoblok.Router.Writers
import Monoblok.Router.Own
import Monoblok.Router.Bystanders
import Monoblok.Router.Delivery
import Monoblok.Router.View
import Monoblok.Patchbay.Value
import Monoblok.Patchbay.Whole
import Monoblok.Patchbay.Exact
import Monoblok.Patchbay.State
import Monoblok.Patchbay.Forms
import Monoblok.Patchbay.Slots
import Monoblok.Patchbay.Eval
import Monoblok.Patchbay.Program
import Monoblok.Patchbay.Related
import Monoblok.Patchbay.Evaluated
import Monoblok.Patchbay.RuleIndex
import Monoblok.Patchbay.Linked
import Monoblok.Patchbay.Payload
import Monoblok.Patchbay.Lookup
import Monoblok.Patchbay.SlotMap
import Monoblok.Patchbay.Calls
import Monoblok.Patchbay.Isolation
import Monoblok.Patchbay.TwoRuns
import Monoblok.Patchbay.Timers
import Monoblok.Patchbay.Deadline
import Monoblok.Patchbay.Rings
import Monoblok.Patchbay.Windows
import Monoblok.Patchbay.WindowForms
import Monoblok.Patchbay.Sizes
import Monoblok.Patchbay.Alike
import Monoblok.Patchbay.AlikeRuns
import Monoblok.Patchbay.BarSizes
import Monoblok.Patchbay.Bars
import Monoblok.Patchbay.Resumed
import Monoblok.Patchbay.Aggregates
import Monoblok.Patchbay.Extended
import Monoblok.Patchbay.Recovery
import Monoblok.Patchbay.Arguments
import Monoblok.Patchbay.CheckedRings
import Monoblok.Patchbay.Throttles
import Monoblok.Patchbay.Silences
import Monoblok.Patchbay.Emitters
import Monoblok.Patchbay.Cadences
import Monoblok.Patchbay.Schedule
import Monoblok.Patchbay.Positions
import Monoblok.Patchbay.Lost
import Monoblok.Patchbay.Totality
import Monoblok.Patchbay.Terminates
import Monoblok.Patchbay.Steps
import Monoblok.Patchbay.FixedPoints
import Monoblok.Patchbay.ShortCircuit
import Monoblok.Patchbay.JsonPaths
import Monoblok.Patchbay.Reentry
import Monoblok.Patchbay.Permitted
import Monoblok.Source.Config
import Monoblok.Source.Load
import Monoblok.Source.Validate
import Monoblok.Source.Agree
import Monoblok.Source.Filters
import Monoblok.Snapshot.Format
import Monoblok.Patchbay.Deferred
import Monoblok.Patchbay.Disciplined
import Monoblok.Snapshot.Positioned
import Monoblok.Snapshot.Bounds
import Monoblok.Snapshot.Reachable
import Monoblok.Patchbay.Admitted
import Monoblok.Patchbay.Timeless
import Monoblok.Patchbay.ProgramText
import Monoblok.Source.Shape
import Monoblok.Source.Sexpr
import Monoblok.Source.JsonForms
import Monoblok.Source.Yaml
import Monoblok.Source.Lowering
import Monoblok.Source.FrontEnds
import Monoblok.Source.ClockScan
import Monoblok.Source.RoundTrip
import Monoblok.Source.QuotedStrings
import Monoblok.Source.RuleMaps
import Monoblok.Source.Consumed
import Monoblok.Snapshot.Restored
import Monoblok.Snapshot.Changes
import Monoblok.Snapshot.Deadlines
import Monoblok.Snapshot.CatchUp
import Monoblok.Snapshot.Ingest
import Monoblok.Snapshot.Records
import Monoblok.Snapshot.Load
import Monoblok.Snapshot.Limits
import Monoblok.Snapshot.Jobs
import Monoblok.Snapshot.Serialised
import Monoblok.Snapshot.Files
import Monoblok.Snapshot.Lives
import Monoblok.Snapshot.SlotKeys
import Monoblok.Snapshot.OwnSlots
import Monoblok.Snapshot.Transparent
import Monoblok.Server.Conn
import Monoblok.Server.Rx
import Monoblok.Server.Framing
import Monoblok.Server.HttpRequest
import Monoblok.Server.HttpPaths
import Monoblok.Server.Http
import Monoblok.Server.HttpSteps
import Monoblok.Server.SseEvents
import Monoblok.Server.HttpRuns
import Monoblok.Server.HttpChunks
import Monoblok.Server.Clock
import Monoblok.Server.Output
import Monoblok.Server.InOrder
import Monoblok.Server.Replies
import Monoblok.Server.Auth
import Monoblok.Server.HttpAuth
import Monoblok.Server.BasicAuth
import Monoblok.Server.Namespaces
import Monoblok.Nats.Importer
import Monoblok.Nats.Fifo
import Monoblok.Nats.JetStream
import Monoblok.Nats.EventTime
import Monoblok.Nats.Handoff
import Monoblok.Nats.ExactlyOnce
import Monoblok.Nats.Bridge
import Monoblok.Nats.Federation
