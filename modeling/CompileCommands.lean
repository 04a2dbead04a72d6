import CompileCommands.Main
import CompileCommands.Proofs.Json.Strings
import CompileCommands.Proofs.Shell.Words
import CompileCommands.Proofs.CommandFile.RoundTrip
import CompileCommands.Proofs.FileTree.Steps
import CompileCommands.Proofs.Host.Writing
import CompileCommands.Proofs.Path.Canonical
import CompileCommands.Proofs.Path.Relative
import CompileCommands.Proofs.Headers.Identity
import CompileCommands.Proofs.Headers.Rounds
import CompileCommands.Proofs.Database.Answers
import CompileCommands.Proofs.Headers.Inference
import CompileCommands.Proofs.FileTree.Reach
import CompileCommands.Proofs.Headers.Closure
import CompileCommands.Proofs.Headers.Graph
import CompileCommands.Proofs.Headers.Walk
import CompileCommands.Proofs.Headers.Closest
import CompileCommands.Proofs.Headers.Index
import CompileCommands.Proofs.Headers.Coverage
import CompileCommands.Proofs.Headers.Termination
import CompileCommands.Proofs.Layers.CacheFiles
import CompileCommands.Proofs.FileTree.Changes
import CompileCommands.Proofs.Host.Changes
import CompileCommands.Proofs.Database.Reading
import CompileCommands.Proofs.Layers.Reading
import CompileCommands.Proofs.Layers.Calls
import CompileCommands.Proofs.Layers.Recompute
import CompileCommands.Proofs.Layers.Stored
import CompileCommands.Proofs.Layers.Alignment
import CompileCommands.Proofs.Layers.FailedUpdate
import CompileCommands.Proofs.Layers.Reopening
import CompileCommands.Proofs.Layers.FirstLayer
import CompileCommands.Proofs.Project.Opening
import CompileCommands.Proofs.Project.Lookup
import CompileCommands.Proofs.Config.Overrides
import CompileCommands.Proofs.Config.Precedence
import CompileCommands.Proofs.Database.Snapshot
import CompileCommands.Proofs.Layers.Once
import CompileCommands.Proofs.Path.Order
import CompileCommands.Proofs.Project.Files
import CompileCommands.Proofs.Project.Coverage
import CompileCommands.Proofs.CommandLine.Check
import CompileCommands.Proofs.Greatest
import CompileCommands.Proofs.Path.Spelled
import CompileCommands.Proofs.Headers.Distance
import CompileCommands.Proofs.Headers.Lenders
import CompileCommands.Proofs.Headers.DepthFirst
import CompileCommands.Proofs.Path.Back
import CompileCommands.Proofs.Headers.RelativeDirectory
import CompileCommands.Proofs.Borrow.Arguments
import CompileCommands.Proofs.Layers.Registration
import CompileCommands.Proofs.Host.Normalized
import CompileCommands.Proofs.Include.Search
import CompileCommands.Proofs.Host.Directories
import CompileCommands.Proofs.DirectoryPattern.Search
import CompileCommands.Proofs.DirectoryPattern.Resolved
import CompileCommands.Proofs.Path.Ancestors
import CompileCommands.Proofs.DirectoryPattern.Matching
import CompileCommands.Proofs.Config.ReadBack
import CompileCommands.Proofs.Layers.Turns
import CompileCommands.Proofs.Path.Forms
import CompileCommands.Proofs.Database.Coherence
import CompileCommands.Proofs.Similarity.SharedRun
import CompileCommands.Proofs.Similarity.Subwords
import CompileCommands.Proofs.Headers.Ranking
import CompileCommands.Proofs.Include.Directives
import CompileCommands.Proofs.Toml.Quoted
import CompileCommands.Proofs.Toml.Document
import CompileCommands.Proofs.Config.Rendered
import CompileCommands.Proofs.Layers.Names
