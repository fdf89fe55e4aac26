import EventScript.Access
import EventScript.Address
import EventScript.Builtins
import EventScript.CallStack
import EventScript.Checked
import EventScript.Console
import EventScript.Datum
import EventScript.Decimal.Binary64
import EventScript.Decimal.Shortest
import EventScript.Decimal.Text
import EventScript.Display
import EventScript.Eval
import EventScript.Exchange.Names
import EventScript.Exchange.Reader
import EventScript.Exchange.Writer
import EventScript.Export
import EventScript.Fault
import EventScript.Format
import EventScript.Handles
import EventScript.Json.Reader
import EventScript.Json.Writer
import EventScript.Key
import EventScript.Limits
import EventScript.Main
import EventScript.Number
import EventScript.Path.Printer
import EventScript.Path.Reader
import EventScript.Path.Resolve
import EventScript.Path.Write
import EventScript.Pattern.Match
import EventScript.Pattern.Syntax
import EventScript.Printer
import EventScript.Proofs.AbsentValues
import EventScript.Proofs.AcceptedWrites
import EventScript.Proofs.ActionBudgets
import EventScript.Proofs.AddressGrammar
import EventScript.Proofs.Addresses
import EventScript.Proofs.Aliases
import EventScript.Proofs.Along
import EventScript.Proofs.ArrayCeilings
import EventScript.Proofs.Bisimilarity
import EventScript.Proofs.Blobs
import EventScript.Proofs.Ceilings
import EventScript.Proofs.ChainDepth
import EventScript.Proofs.Commuting
import EventScript.Proofs.CommutingWrites
import EventScript.Proofs.Comparisons
import EventScript.Proofs.ConcretePaths
import EventScript.Proofs.Containment
import EventScript.Proofs.Contents
import EventScript.Proofs.ContextViews
import EventScript.Proofs.ContextWrites
import EventScript.Proofs.Course
import EventScript.Proofs.CycleSearch
import EventScript.Proofs.DataLoading
import EventScript.Proofs.DataPaths
import EventScript.Proofs.DataTexts
import EventScript.Proofs.DataWorlds
import EventScript.Proofs.DeepEquality
import EventScript.Proofs.Delivery
import EventScript.Proofs.DerefDepth
import EventScript.Proofs.Descents
import EventScript.Proofs.Dispatch
import EventScript.Proofs.DistinctKeys
import EventScript.Proofs.Engines
import EventScript.Proofs.ErrorContexts
import EventScript.Proofs.Evaluation
import EventScript.Proofs.FailedWrites
import EventScript.Proofs.FaithfulCopies
import EventScript.Proofs.ForeseenWrites
import EventScript.Proofs.FramedReads
import EventScript.Proofs.FreshChains
import EventScript.Proofs.FreshCopies
import EventScript.Proofs.Functions
import EventScript.Proofs.Grafting
import EventScript.Proofs.Growth
import EventScript.Proofs.HandleChains
import EventScript.Proofs.Invariants
import EventScript.Proofs.JsonRoundTrip
import EventScript.Proofs.JsonTexts
import EventScript.Proofs.Linking
import EventScript.Proofs.Literals
import EventScript.Proofs.LooseEquality
import EventScript.Proofs.NodeGroups
import EventScript.Proofs.NodeViews
import EventScript.Proofs.OnePass
import EventScript.Proofs.Openings
import EventScript.Proofs.Operations
import EventScript.Proofs.PathGrammar
import EventScript.Proofs.PathTexts
import EventScript.Proofs.Places
import EventScript.Proofs.PlainData
import EventScript.Proofs.PlainWrites
import EventScript.Proofs.QuotedKeys
import EventScript.Proofs.Quoting
import EventScript.Proofs.Reachable
import EventScript.Proofs.ReadAfterWrite
import EventScript.Proofs.ReadOnlyEvaluation
import EventScript.Proofs.ReadOnlyHandles
import EventScript.Proofs.Reentry
import EventScript.Proofs.Renaming
import EventScript.Proofs.Rewriting
import EventScript.Proofs.Runs
import EventScript.Proofs.Sessions
import EventScript.Proofs.SoftEvaluation
import EventScript.Proofs.Sparing
import EventScript.Proofs.SoundWorlds
import EventScript.Proofs.Splices
import EventScript.Proofs.StackDiscipline
import EventScript.Proofs.StackMoves
import EventScript.Proofs.StagedReads
import EventScript.Proofs.Stages
import EventScript.Proofs.SuppliedRegions
import EventScript.Proofs.TextEncodings
import EventScript.Proofs.TrackedRuns
import EventScript.Proofs.Trails
import EventScript.Proofs.Trees
import EventScript.Proofs.TwinReads
import EventScript.Proofs.Unfolding
import EventScript.Proofs.Unrolling
import EventScript.Proofs.Writing
import EventScript.Run.Block
import EventScript.Run.Host
import EventScript.Run.Journal
import EventScript.Run.Outcome
import EventScript.Run.Runner
import EventScript.Run.Schedule
import EventScript.Run.Step
import EventScript.Scope
import EventScript.Script
import EventScript.Serialize
import EventScript.Start
import EventScript.Store
import EventScript.Structural.Copy
import EventScript.Structural.Equal
import EventScript.Structural.Follow
import EventScript.Template.Mustache
import EventScript.Template.Printf
import EventScript.Text.Base64
import EventScript.Text.Blank
import EventScript.Text.Case
import EventScript.Text.Digit
import EventScript.Text.Printable
import EventScript.Text.Quoted
import EventScript.Text.Ranges
import EventScript.Text.Search
import EventScript.Text.Utf8
import EventScript.Text.Word
import EventScript.Value
import EventScript.World
import EventScript.Yaml.Cursor
import EventScript.Yaml.Label
import EventScript.Yaml.Load
import EventScript.Yaml.Node
import EventScript.Yaml.Page
import EventScript.Yaml.Refusal
import EventScript.Yaml.Scalar
import EventScript.Yaml.ScalarText
import EventScript.Yaml.Tag
import EventScript.Yaml.Timestamp
import EventScript.Yaml.Token
import EventScript.Yaml.Writer
