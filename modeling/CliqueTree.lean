import CliqueTree.Ascending
import CliqueTree.Digraph.Basic
import CliqueTree.Digraph.Moral
import CliqueTree.Digraph.Order
import CliqueTree.Distinct
import CliqueTree.Error
import CliqueTree.Graph.Basic
import CliqueTree.Graph.Chordal
import CliqueTree.Hash.Xxh64
import CliqueTree.Json.Basic
import CliqueTree.Json.Codec
import CliqueTree.Json.Compact
import CliqueTree.Json.Digest
import CliqueTree.JunctionTree.Basic
import CliqueTree.JunctionTree.Build
import CliqueTree.JunctionTree.Layout
import CliqueTree.Key.Arena
import CliqueTree.Key.Basic
import CliqueTree.Key.Clique
import CliqueTree.Key.Instances
import CliqueTree.Key.Outline
import CliqueTree.Policy
import CliqueTree.Proofs.Ascending
import CliqueTree.Proofs.Chordal
import CliqueTree.Proofs.Digraph.Ancestors
import CliqueTree.Proofs.Digraph.Components
import CliqueTree.Proofs.Digraph.Moral
import CliqueTree.Proofs.Digraph.Order
import CliqueTree.Proofs.Digraph.States
import CliqueTree.Proofs.Distance
import CliqueTree.Proofs.Excerpt
import CliqueTree.Proofs.FirstOccurrence
import CliqueTree.Proofs.Forest
import CliqueTree.Proofs.Graph.CliqueGraph
import CliqueTree.Proofs.Graph.Cliques
import CliqueTree.Proofs.Graph.Components
import CliqueTree.Proofs.Graph.DryRun
import CliqueTree.Proofs.Graph.FixedPoint
import CliqueTree.Proofs.Graph.Flagged
import CliqueTree.Proofs.Graph.States
import CliqueTree.Proofs.Graph.Triangulation
import CliqueTree.Proofs.Graph.WellFormed
import CliqueTree.Proofs.Hypergraph
import CliqueTree.Proofs.Json.Compact
import CliqueTree.Proofs.Json.Digest
import CliqueTree.Proofs.JunctionTree.Checked
import CliqueTree.Proofs.JunctionTree.Components
import CliqueTree.Proofs.JunctionTree.Excerpt
import CliqueTree.Proofs.JunctionTree.Factorisation
import CliqueTree.Proofs.JunctionTree.Failure
import CliqueTree.Proofs.JunctionTree.Families
import CliqueTree.Proofs.JunctionTree.Fingerprint
import CliqueTree.Proofs.JunctionTree.Holders
import CliqueTree.Proofs.JunctionTree.Independence
import CliqueTree.Proofs.JunctionTree.Layout
import CliqueTree.Proofs.JunctionTree.LayoutOrder
import CliqueTree.Proofs.JunctionTree.Renaming
import CliqueTree.Proofs.JunctionTree.RunningIntersection
import CliqueTree.Proofs.JunctionTree.Runs
import CliqueTree.Proofs.JunctionTree.Separators
import CliqueTree.Proofs.JunctionTree.Simple
import CliqueTree.Proofs.JunctionTree.Spanning
import CliqueTree.Proofs.JunctionTree.Tree
import CliqueTree.Proofs.Key.Algebra
import CliqueTree.Proofs.Key.Arena
import CliqueTree.Proofs.Key.Clique
import CliqueTree.Proofs.Key.Interning
import CliqueTree.Proofs.Simple
import CliqueTree.Proofs.Subtrees
import CliqueTree.Proofs.Table.BreadthFirst
import CliqueTree.Proofs.Table.Completion
import CliqueTree.Proofs.Table.Core
import CliqueTree.Proofs.Table.Cover
import CliqueTree.Proofs.Table.DepthFirst
import CliqueTree.Proofs.Table.DisjointSet
import CliqueTree.Proofs.Table.DisjointSetRanks
import CliqueTree.Proofs.Table.DisjointSetRuns
import CliqueTree.Proofs.Table.EdgeLists
import CliqueTree.Proofs.Table.EdgeSelection
import CliqueTree.Proofs.Table.Elimination
import CliqueTree.Proofs.Table.Excerpt
import CliqueTree.Proofs.Table.ExcerptRuns
import CliqueTree.Proofs.Table.Extraction
import CliqueTree.Proofs.Table.FillLinks
import CliqueTree.Proofs.Table.FillPaths
import CliqueTree.Proofs.Table.Greedy
import CliqueTree.Proofs.Table.InPlace
import CliqueTree.Proofs.Table.LightestForest
import CliqueTree.Proofs.Table.Marriage
import CliqueTree.Proofs.Table.MarriedPairs
import CliqueTree.Proofs.Table.Neighbours
import CliqueTree.Proofs.Table.PartialCover
import CliqueTree.Proofs.Table.RecursiveSort
import CliqueTree.Proofs.Table.Replay
import CliqueTree.Proofs.Table.Runs
import CliqueTree.Proofs.Table.SearchLoop
import CliqueTree.Proofs.Table.SpanningForest
import CliqueTree.Proofs.Table.TopologicalOrder
import CliqueTree.Proofs.Table.Walk
import CliqueTree.Proofs.Table.WalkTree
import CliqueTree.Table.Cover
import CliqueTree.Table.DisjointSet
import CliqueTree.Table.Extraction
import CliqueTree.Table.Fill
import CliqueTree.Table.Growth
import CliqueTree.Table.Marriage
import CliqueTree.Table.Rows
import CliqueTree.Table.SpanningForest
import CliqueTree.Table.TopologicalOrder
import CliqueTree.Table.Walk
import CliqueTree.Text.Quoted
import CliqueTree.Text.Unprintable
