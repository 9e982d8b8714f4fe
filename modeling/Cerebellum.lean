import Cerebellum.Lib.Transition
import Cerebellum.Lib.SqlText
import Cerebellum.Lib.Table
import Cerebellum.Json
import Cerebellum.Uuid
import Cerebellum.Coire
import Cerebellum.CoireAccounting
import Cerebellum.World
import Cerebellum.Envelope
import Cerebellum.Controller
import Cerebellum.ControllerSpec
import Cerebellum.Settlement
import Cerebellum.Term
import Cerebellum.Caws
import Cerebellum.CawsSpec
import Cerebellum.EngineRun
import Cerebellum.AutoTee
import Cerebellum.AutoPipe
import Cerebellum.EdgeDispatch
import Cerebellum.Routing
import Cerebellum.Awaiter
import Cerebellum.Node
import Cerebellum.AwaitStable
import Cerebellum.Cycle
import Cerebellum.Convergence
import Cerebellum.Lib.Isolation
import Cerebellum.Process
import Cerebellum.Lib.Batch
import Cerebellum.Consume
import Cerebellum.Lib.Keyed
import Cerebellum.Fifo
import Cerebellum.Crossing
import Cerebellum.Delivery
import Cerebellum.Store
import Cerebellum.RunExit
import Cerebellum.Tableau
import Cerebellum.Resume
import Cerebellum.Seeding
import Cerebellum.Lib.OrderBy
import Cerebellum.Lib.JsonText
import Cerebellum.TableauRows
import Cerebellum.Agenda
import Cerebellum.Sources
import Cerebellum.Artifacts
import Cerebellum.Sweep
import Cerebellum.Lib.Issue
import Cerebellum.RitualRegistry
import Cerebellum.RitualRace
import Cerebellum.Lib.Cursor
import Cerebellum.Performers
import Cerebellum.Sessions
import Cerebellum.Lib.Pool
import Cerebellum.SessionRace
import Cerebellum.EvaluateCache
import Cerebellum.JsonCodec
import Cerebellum.Snapshots
import Cerebellum.Transpile
import Cerebellum.Lib.Span
import Cerebellum.Clips
import Cerebellum.Transduce
import Cerebellum.TranspileSpec
import Cerebellum.TransduceSpec
import Cerebellum.Lib.Diverge
import Cerebellum.ClipsFields
import Cerebellum.Agreement
import Cerebellum.Lib.Template
import Cerebellum.Quoting
import Cerebellum.Graph
import Cerebellum.GraphNames
import Cerebellum.GraphText
import Cerebellum.LspFraming
import Cerebellum.LspClient
import Cerebellum.FrontDesk
import Cerebellum.Patience
import Cerebellum.ReadBack
import Cerebellum.ClipsParser
import Cerebellum.FieldByField
import Cerebellum.OneForm
import Cerebellum.Images
import Cerebellum.ReadAhead
import Cerebellum.SessionTableau
import Cerebellum.RootGoal
import Cerebellum.Deduction
import Cerebellum.RootVerdict
import Cerebellum.RelayedFacts
import Cerebellum.GoalText
import Cerebellum.BoundOnly
import Cerebellum.Constructs
import Cerebellum.Loadable
import Cerebellum.ContextText
import Cerebellum.CoireEventFact
import Cerebellum.Lib.Horn
import Cerebellum.Coloring
import Cerebellum.DependencyGraph
import Cerebellum.DependencyGraphSpec
import Cerebellum.Listening
import Cerebellum.Rabbit
import Cerebellum.WildcardRow
import Cerebellum.Lib.Reflow
import Cerebellum.SourceLines
import Cerebellum.QuotedBody
import Cerebellum.QuotedLines
import Cerebellum.Layout
import Cerebellum.TidyText
import Cerebellum.SourceById
import Cerebellum.Lib.Reader
import Cerebellum.ScannerProgress
import Cerebellum.Lib.Peg
import Cerebellum.CawFrontEnd
