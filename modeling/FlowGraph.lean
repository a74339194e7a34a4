import FlowGraph.Catalogue.Core
import FlowGraph.Catalogue.Shapes
import FlowGraph.Catalogue.State
import FlowGraph.Catalogue.Vectors
import FlowGraph.Checked
import FlowGraph.CommandLine.Arguments
import FlowGraph.CommandLine.Commands
import FlowGraph.CommandLine.Help
import FlowGraph.CommandLine.Invocation
import FlowGraph.CommandLine.Report
import FlowGraph.Definition.Basic
import FlowGraph.Definition.Operator
import FlowGraph.Document.Basic
import FlowGraph.Document.Check
import FlowGraph.Document.Load
import FlowGraph.Document.Store
import FlowGraph.Engine.Act
import FlowGraph.Engine.Audience
import FlowGraph.Engine.Basic
import FlowGraph.Engine.Behave
import FlowGraph.Engine.Commit
import FlowGraph.Engine.EventLoop
import FlowGraph.Engine.Host
import FlowGraph.Engine.Lifetime
import FlowGraph.Engine.Loop
import FlowGraph.Engine.Resolve
import FlowGraph.Engine.Step
import FlowGraph.Engine.World
import FlowGraph.Failure
import FlowGraph.Fault
import FlowGraph.Files
import FlowGraph.Graph.Basic
import FlowGraph.Graph.Check
import FlowGraph.Graph.Declare
import FlowGraph.Graph.Edit
import FlowGraph.Graph.Link
import FlowGraph.Graph.Node
import FlowGraph.Graph.Stepwise
import FlowGraph.Graph.Tamper
import FlowGraph.Json.Reader
import FlowGraph.Json.Writer
import FlowGraph.Main
import FlowGraph.Number.Decimal
import FlowGraph.Number.Double
import FlowGraph.Number.Entry
import FlowGraph.Number.Power
import FlowGraph.Problem
import FlowGraph.Proofs.Accounts
import FlowGraph.Proofs.Acts
import FlowGraph.Proofs.Admission
import FlowGraph.Proofs.Agreement
import FlowGraph.Proofs.Alike
import FlowGraph.Proofs.Apart
import FlowGraph.Proofs.Atomicity
import FlowGraph.Proofs.Attending
import FlowGraph.Proofs.Blameless
import FlowGraph.Proofs.Bound
import FlowGraph.Proofs.Calls
import FlowGraph.Proofs.CheckedGraphs
import FlowGraph.Proofs.Chronicle
import FlowGraph.Proofs.Completion
import FlowGraph.Proofs.Components
import FlowGraph.Proofs.Conduct
import FlowGraph.Proofs.Connecting
import FlowGraph.Proofs.Contained
import FlowGraph.Proofs.Containment
import FlowGraph.Proofs.Contract
import FlowGraph.Proofs.Counting
import FlowGraph.Proofs.Cycles
import FlowGraph.Proofs.DocumentForm
import FlowGraph.Proofs.Draining
import FlowGraph.Proofs.Editing
import FlowGraph.Proofs.Emission
import FlowGraph.Proofs.Evaluation
import FlowGraph.Proofs.Expansion
import FlowGraph.Proofs.Failing
import FlowGraph.Proofs.Faithful
import FlowGraph.Proofs.Faults
import FlowGraph.Proofs.FiberCall
import FlowGraph.Proofs.Filling
import FlowGraph.Proofs.Fitting
import FlowGraph.Proofs.Forestalling
import FlowGraph.Proofs.Functional
import FlowGraph.Proofs.Gates
import FlowGraph.Proofs.Growth
import FlowGraph.Proofs.History
import FlowGraph.Proofs.Hosting
import FlowGraph.Proofs.Inert
import FlowGraph.Proofs.Insertion
import FlowGraph.Proofs.Iterations
import FlowGraph.Proofs.Keeping
import FlowGraph.Proofs.Laying
import FlowGraph.Proofs.Limits
import FlowGraph.Proofs.Lines
import FlowGraph.Proofs.LinkHistory
import FlowGraph.Proofs.LinkIndex
import FlowGraph.Proofs.Loading
import FlowGraph.Proofs.Loops
import FlowGraph.Proofs.Marks
import FlowGraph.Proofs.Marshalling
import FlowGraph.Proofs.Matching
import FlowGraph.Proofs.NormalForm
import FlowGraph.Proofs.Observers
import FlowGraph.Proofs.Orderly
import FlowGraph.Proofs.Outcome
import FlowGraph.Proofs.Outline
import FlowGraph.Proofs.Payloads
import FlowGraph.Proofs.Provenance
import FlowGraph.Proofs.Pulling
import FlowGraph.Proofs.QueueTurn
import FlowGraph.Proofs.Reckoning
import FlowGraph.Proofs.Recording
import FlowGraph.Proofs.Reference
import FlowGraph.Proofs.Refinement
import FlowGraph.Proofs.Refusing
import FlowGraph.Proofs.Relinking
import FlowGraph.Proofs.Reloading
import FlowGraph.Proofs.Reporting
import FlowGraph.Proofs.Resting
import FlowGraph.Proofs.Rollback
import FlowGraph.Proofs.RoundTrip
import FlowGraph.Proofs.Rounds
import FlowGraph.Proofs.Sanity
import FlowGraph.Proofs.Sequels
import FlowGraph.Proofs.Sequences
import FlowGraph.Proofs.Serving
import FlowGraph.Proofs.SettingsFile
import FlowGraph.Proofs.Shapes
import FlowGraph.Proofs.Showing
import FlowGraph.Proofs.Signatures
import FlowGraph.Proofs.Snapshots
import FlowGraph.Proofs.Sockets
import FlowGraph.Proofs.Soundness
import FlowGraph.Proofs.Standard
import FlowGraph.Proofs.Steady
import FlowGraph.Proofs.Stopping
import FlowGraph.Proofs.Storing
import FlowGraph.Proofs.Stretches
import FlowGraph.Proofs.Structural
import FlowGraph.Proofs.Structured
import FlowGraph.Proofs.Sums
import FlowGraph.Proofs.Timers
import FlowGraph.Proofs.Tracking
import FlowGraph.Proofs.Trail
import FlowGraph.Proofs.Turns
import FlowGraph.Proofs.Typing
import FlowGraph.Proofs.UndisturbedPath
import FlowGraph.Proofs.Unmoved
import FlowGraph.Proofs.Unwinding
import FlowGraph.Proofs.Variables
import FlowGraph.Proofs.Visits
import FlowGraph.Proofs.Waking
import FlowGraph.Proofs.Wiring
import FlowGraph.Proofs.Yields
import FlowGraph.Registry.Basic
import FlowGraph.Registry.Check
import FlowGraph.Registry.Stepwise
import FlowGraph.Scheduler
import FlowGraph.Session.Basic
import FlowGraph.Session.Editing
import FlowGraph.Session.Running
import FlowGraph.Settings.Basic
import FlowGraph.Settings.Keeper
import FlowGraph.Signal
import FlowGraph.Store
import FlowGraph.Table
import FlowGraph.Text.CaseMap
import FlowGraph.Text.Classes
import FlowGraph.Text.Quoted
import FlowGraph.Toml
import FlowGraph.Value.Arithmetic
import FlowGraph.Value.Basic
import FlowGraph.Value.Identity
import FlowGraph.Value.Order
import FlowGraph.Value.Text
import FlowGraph.ValueType
