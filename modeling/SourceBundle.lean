import SourceBundle.Charset
import SourceBundle.Directive
import SourceBundle.FileSystem.Update
import SourceBundle.Log
import SourceBundle.Registry
import SourceBundle.Discovery
import SourceBundle.Plan
import SourceBundle.Tree
import SourceBundle.Tree.Builder
import SourceBundle.Listing
import SourceBundle.Hint
import SourceBundle.Log.Filter
import SourceBundle.Options.Datum
import SourceBundle.Glob.Expand
import SourceBundle.Yaml.Mark
import SourceBundle.Yaml.Scalar.Block
import SourceBundle.Yaml.Scalar.Gap
import SourceBundle.Yaml.Scalar.Plain
import SourceBundle.Yaml.Scalar.Quoted
import SourceBundle.Yaml.Lexer
import SourceBundle.Yaml.Document
import SourceBundle.Project.Basic
import SourceBundle.Project.Inputs
import SourceBundle.Command.Arguments
import SourceBundle.Command.Inputs
import SourceBundle.Command.Run
import SourceBundle.Disk
import SourceBundle.Main
import SourceBundle.Proofs.Graph.Edges
import SourceBundle.Proofs.Graph.Moves
import SourceBundle.Proofs.PostOrder
import SourceBundle.Proofs.Graph.Settled
import SourceBundle.Proofs.Graph.Cycle
import SourceBundle.Proofs.Discovery.Targets
import SourceBundle.Proofs.Graph.PostOrder
import SourceBundle.Proofs.Discovery.Run
import SourceBundle.Proofs.Discovery.Closure
import SourceBundle.Proofs.Plan.Order
import SourceBundle.Proofs.Plan.PostOrder
import SourceBundle.Proofs.Text.Search
import SourceBundle.Proofs.Directive.Layout
import SourceBundle.Proofs.Directive.Scan
import SourceBundle.Proofs.Directive.Parse
import SourceBundle.Proofs.Discovery.Success
import SourceBundle.Proofs.Plan.Success
import SourceBundle.Proofs.Graph.Dependents
import SourceBundle.Proofs.Emission
import SourceBundle.Proofs.Plan.Emitted
import SourceBundle.Proofs.Discovery.Queue
import SourceBundle.Proofs.Plan.Entries
import SourceBundle.Proofs.Plan.Append
import SourceBundle.Proofs.Discovery.Sequence
import SourceBundle.Proofs.Text.Utf8
import SourceBundle.Proofs.Charset
import SourceBundle.Proofs.Directive.Octets
import SourceBundle.Proofs.Plan.Stripped
import SourceBundle.Proofs.Discovery.Agreement
import SourceBundle.Proofs.Discovery.Current
import SourceBundle.Proofs.FileSystem.Walk
import SourceBundle.Proofs.FileSystem.Create
import SourceBundle.Proofs.Command.Inputs
import SourceBundle.Proofs.Command.Combine
import SourceBundle.Proofs.Graph.Report
import SourceBundle.Proofs.Tree.Growth
import SourceBundle.Proofs.Tree.Building
import SourceBundle.Proofs.Tree.Cycle
import SourceBundle.Proofs.FileSystem.Change
import SourceBundle.Proofs.FileSystem.Alike
import SourceBundle.Proofs.Glob.Steady
import SourceBundle.Proofs.FileSystem.Parents
import SourceBundle.Proofs.Plan.Unchanged
import SourceBundle.Proofs.Command.Again
import SourceBundle.Proofs.Command.Reproducible
import SourceBundle.Proofs.Order
import SourceBundle.Proofs.Listing
import SourceBundle.Proofs.Tree.Nodes
import SourceBundle.Proofs.Tree.Grown
import SourceBundle.Proofs.Tree.Expansion
import SourceBundle.Proofs.Tree.Size
import SourceBundle.Proofs.Tree.Marks
import SourceBundle.Proofs.Tree.Depth
import SourceBundle.Proofs.Charset.RoundTrip
import SourceBundle.Proofs.Directive.Agreement
import SourceBundle.Proofs.Directive.OnePass
import SourceBundle.Proofs.Discovery.Row
import SourceBundle.Proofs.Discovery.Faults
import SourceBundle.Proofs.Plan.Faults
import SourceBundle.Proofs.Distinct
import SourceBundle.Proofs.FileSystem.Names
import SourceBundle.Proofs.FileSystem.Onward
import SourceBundle.Proofs.Path.Join
import SourceBundle.Proofs.Graph.Degrees
import SourceBundle.Proofs.Registry.Calls
import SourceBundle.Proofs.Command.Order
import SourceBundle.Proofs.Glob.Matching
import SourceBundle.Proofs.Glob.Reading
import SourceBundle.Proofs.Glob.Steps
import SourceBundle.Proofs.Glob.Child
import SourceBundle.Proofs.Glob.Below
import SourceBundle.Proofs.Glob.Laws
import SourceBundle.Proofs.Glob.Reach
import SourceBundle.Proofs.Glob.Search
import SourceBundle.Proofs.Glob.Lawful
import SourceBundle.Proofs.Project.Inputs
import SourceBundle.Proofs.Discovery.Rounds
import SourceBundle.Proofs.Text.Boundary
import SourceBundle.Proofs.Directive.Slices
import SourceBundle.Proofs.Log
import SourceBundle.Proofs.Discovery.Asking
import SourceBundle.Proofs.Plan.Asking
import SourceBundle.Proofs.Command.Louder
import SourceBundle.Proofs.Command.Asking
import SourceBundle.Proofs.Command.Verbose
import SourceBundle.Proofs.Text.Words
import SourceBundle.Proofs.Project.Messages
import SourceBundle.Proofs.Project.Blame
import SourceBundle.Proofs.Project.Hints
import SourceBundle.Proofs.Graph.Building
import SourceBundle.Proofs.Graph.Marks
import SourceBundle.Proofs.Tree.Lookup
import SourceBundle.Proofs.Discovery.Moments
import SourceBundle.Proofs.Discovery.Replay
import SourceBundle.Proofs.Plan.Lookup
