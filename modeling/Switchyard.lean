import Switchyard.Bus
import Switchyard.Cli.Arguments
import Switchyard.Cli.HistoryFile
import Switchyard.Cli.Report
import Switchyard.Cli.Session
import Switchyard.Codec.Graph
import Switchyard.Codec.Outcome
import Switchyard.Codec.Record
import Switchyard.Codec.Shape
import Switchyard.Config
import Switchyard.Config.File
import Switchyard.Context
import Switchyard.Decimal.Binary64
import Switchyard.Demo
import Switchyard.Dict
import Switchyard.Engine.Act
import Switchyard.Engine.Checkpoint
import Switchyard.Engine.Executor
import Switchyard.Engine.Runner
import Switchyard.Engine.Unit
import Switchyard.Engine.World
import Switchyard.Event
import Switchyard.ExecutionId
import Switchyard.Exit
import Switchyard.Flow.Progress
import Switchyard.Flow.Split
import Switchyard.Flow.Start
import Switchyard.Graph
import Switchyard.Graph.Build
import Switchyard.Identity
import Switchyard.Identity.Sha256
import Switchyard.Instant
import Switchyard.Json
import Switchyard.Json.Printer
import Switchyard.Json.Reader
import Switchyard.Main
import Switchyard.Outcome
import Switchyard.Parameters
import Switchyard.Pattern
import Switchyard.Pattern.Specificity
import Switchyard.Proofs.Act
import Switchyard.Proofs.Cluster.Apart
import Switchyard.Proofs.Cluster.Exclusion
import Switchyard.Proofs.Cluster.Moves
import Switchyard.Proofs.Cluster.Sealed
import Switchyard.Proofs.Dict
import Switchyard.Proofs.Engine.Attempt
import Switchyard.Proofs.Engine.Bounded
import Switchyard.Proofs.Engine.Branches
import Switchyard.Proofs.Engine.Carry
import Switchyard.Proofs.Engine.Claims
import Switchyard.Proofs.Engine.Contained
import Switchyard.Proofs.Engine.Course
import Switchyard.Proofs.Engine.Ends
import Switchyard.Proofs.Engine.Errands
import Switchyard.Proofs.Engine.Frame
import Switchyard.Proofs.Engine.Nesting
import Switchyard.Proofs.Engine.Outcome
import Switchyard.Proofs.Engine.Positions
import Switchyard.Proofs.Engine.Refused
import Switchyard.Proofs.Engine.Reported
import Switchyard.Proofs.Engine.Resplit
import Switchyard.Proofs.Engine.Restart
import Switchyard.Proofs.Engine.Resume
import Switchyard.Proofs.Engine.Routing
import Switchyard.Proofs.Engine.Series
import Switchyard.Proofs.Engine.Steady
import Switchyard.Proofs.Engine.Storing
import Switchyard.Proofs.Engine.Task
import Switchyard.Proofs.Engine.Tour
import Switchyard.Proofs.Engine.Views
import Switchyard.Proofs.Engine.Visit
import Switchyard.Proofs.Engine.WriteAhead
import Switchyard.Proofs.ExecutionId
import Switchyard.Proofs.Flow.Join
import Switchyard.Proofs.Flow.Split
import Switchyard.Proofs.Flow.Start
import Switchyard.Proofs.Flow.Visits
import Switchyard.Proofs.Graph.Built
import Switchyard.Proofs.Graph.Reach
import Switchyard.Proofs.Graph.WellFormed
import Switchyard.Proofs.History.Faultless
import Switchyard.Proofs.History.Finished
import Switchyard.Proofs.History.Guarded
import Switchyard.Proofs.History.Reached
import Switchyard.Proofs.History.Sound
import Switchyard.Proofs.Identity
import Switchyard.Proofs.Instant
import Switchyard.Proofs.Store.Agreement
import Switchyard.Proofs.Store.Attempts
import Switchyard.Proofs.Store.Page
import Switchyard.Proofs.Store.Row
import Switchyard.Proofs.Store.Tidy
import Switchyard.Proofs.Transition.Table
import Switchyard.Record
import Switchyard.Rehearsal
import Switchyard.Rehearsal.Script
import Switchyard.Status
import Switchyard.Store.Error
import Switchyard.Store.Repository
import Switchyard.Store.Row
import Switchyard.Store.Shelf
import Switchyard.Store.Table
import Switchyard.Text.Blank
import Switchyard.Text.Digits
import Switchyard.Text.Duration
import Switchyard.Text.Grid
import Switchyard.Text.Width
import Switchyard.Toml
import Switchyard.Toml.Reader
import Switchyard.Transition
import Switchyard.Proofs.Identity.Encoding
import Switchyard.Proofs.Engine.Handover
import Switchyard.Proofs.Engine.Stopping
import Switchyard.Proofs.Pattern
import Switchyard.Proofs.Graph.Choice
import Switchyard.Proofs.Cli.Reading
import Switchyard.Proofs.Identity.Options
import Switchyard.Proofs.Engine.Relaunch
import Switchyard.Proofs.Graph.Shadowed
import Switchyard.Proofs.Engine.Standing
import Switchyard.Proofs.Engine.Cancelled
import Switchyard.Proofs.Engine.Threading
import Switchyard.Proofs.Record
import Switchyard.Proofs.Instant.Order
import Switchyard.Proofs.Store.Recent
import Switchyard.Proofs.Engine.Sealing
import Switchyard.Proofs.Engine.Chronicle
import Switchyard.Proofs.Pattern.Specificity
import Switchyard.Proofs.Parameters
import Switchyard.Proofs.History.Clash
