import PacedJobs.Action
import PacedJobs.Choice
import PacedJobs.CommandLine.Help
import PacedJobs.CommandLine.Options
import PacedJobs.CommandLine.Program
import PacedJobs.Config
import PacedJobs.Decimal.Digits
import PacedJobs.Decimal.Double
import PacedJobs.Decimal.Notation
import PacedJobs.Decimal.Shortest
import PacedJobs.ExecutionLog
import PacedJobs.Failure
import PacedJobs.Job.Basic
import PacedJobs.Job.Description
import PacedJobs.Job.Error
import PacedJobs.Job.Id
import PacedJobs.Json.Basic
import PacedJobs.Json.Escaped
import PacedJobs.Json.Fault
import PacedJobs.Json.Literal
import PacedJobs.Json.Printer
import PacedJobs.Json.Reader
import PacedJobs.Json.Remark
import PacedJobs.Main
import PacedJobs.Pool.Basic
import PacedJobs.Pool.Schedule
import PacedJobs.Pool.Step
import PacedJobs.Proofs.Action.Format
import PacedJobs.Proofs.Action.RoundTrip
import PacedJobs.Proofs.Json.Compact
import PacedJobs.Proofs.Json.ControlFree
import PacedJobs.Proofs.Json.Grammar
import PacedJobs.Proofs.Json.Loops
import PacedJobs.Proofs.Json.Members
import PacedJobs.Proofs.Json.Numbers
import PacedJobs.Proofs.Json.Strings
import PacedJobs.Proofs.Json.Values
import PacedJobs.Proofs.Pool.Answers
import PacedJobs.Proofs.Pool.Channels
import PacedJobs.Proofs.Pool.CleanCut
import PacedJobs.Proofs.Pool.Closers
import PacedJobs.Proofs.Pool.Custody
import PacedJobs.Proofs.Pool.Engagement
import PacedJobs.Proofs.Pool.Fates
import PacedJobs.Proofs.Pool.HandOver
import PacedJobs.Proofs.Pool.Moves
import PacedJobs.Proofs.Pool.Pace
import PacedJobs.Proofs.Pool.Readings
import PacedJobs.Proofs.Pool.Requests
import PacedJobs.Proofs.Pool.Reservations
import PacedJobs.Proofs.Pool.Run
import PacedJobs.Proofs.Pool.Sequence
import PacedJobs.Proofs.Pool.Served
import PacedJobs.Proofs.Pool.Shutdown
import PacedJobs.Proofs.Pool.SpentFirst
import PacedJobs.Proofs.Pool.TicketCourse
import PacedJobs.Proofs.Pool.WaitSets
import PacedJobs.Proofs.Pool.Waking
import PacedJobs.Proofs.Pool.Whole
import PacedJobs.Proofs.Pool.Workers
import PacedJobs.Proofs.Queue.Contents
import PacedJobs.Proofs.Queue.Interruption
import PacedJobs.Proofs.Queue.Ownership
import PacedJobs.Proofs.Queue.Register
import PacedJobs.Proofs.Queue.StableSort
import PacedJobs.Proofs.Queue.Taking
import PacedJobs.Proofs.Queue.Urgency
import PacedJobs.Proofs.Queue.Weights
import PacedJobs.Proofs.Reply.RoundTrip
import PacedJobs.Proofs.Schema.Fields
import PacedJobs.Proofs.Schema.Tags
import PacedJobs.Proofs.Session.Agreement
import PacedJobs.Proofs.Session.Framing
import PacedJobs.Proofs.Session.Interleaving
import PacedJobs.Proofs.Session.Readable
import PacedJobs.Proofs.Session.Surroundings
import PacedJobs.Proofs.Session.Transcript
import PacedJobs.Proofs.Text.DressedLines
import PacedJobs.Proofs.Text.EncodedLines
import PacedJobs.Queue.Basic
import PacedJobs.Queue.Bisection
import PacedJobs.Queue.Sweep
import PacedJobs.Recording
import PacedJobs.Reply
import PacedJobs.Schema.Field
import PacedJobs.Schema.Tagged
import PacedJobs.Session.Basic
import PacedJobs.Session.Desk
import PacedJobs.Session.PoolDesk
import PacedJobs.Session.Sink
import PacedJobs.Signal
import PacedJobs.Text.Blank
import PacedJobs.Text.Lines
import PacedJobs.Text.Position
import PacedJobs.Text.Quoted
import PacedJobs.Text.Terminal
import PacedJobs.Text.Unseen
import PacedJobs.Ticket
import PacedJobs.Transport
import PacedJobs.Workbench
import PacedJobs.Proofs.Pool.Budget
import PacedJobs.Proofs.Pool.Slices
import PacedJobs.Proofs.Pool.Sweeps
import PacedJobs.Proofs.Session.Undecodable
import PacedJobs.Proofs.Schema.Presentation
import PacedJobs.Proofs.Session.CutLines
import PacedJobs.Proofs.Pool.Prospects
import PacedJobs.Proofs.Pool.Throttle
import PacedJobs.Proofs.Queue.Insertion
import PacedJobs.Proofs.Signal.Instants
