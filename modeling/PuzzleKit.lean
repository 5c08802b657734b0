import PuzzleKit.Arrangement
import PuzzleKit.Command.Arguments
import PuzzleKit.Command.Files
import PuzzleKit.Command.Program
import PuzzleKit.Decimal.Rounded
import PuzzleKit.Fraction.Basic
import PuzzleKit.Fraction.Text
import PuzzleKit.Geometry.Coordinate
import PuzzleKit.Geometry.Direction
import PuzzleKit.Geometry.Point
import PuzzleKit.Geometry.Rectangle
import PuzzleKit.Geometry.SpatialDirection
import PuzzleKit.Graph.Weighted
import PuzzleKit.Grid.Basic
import PuzzleKit.Grid.Plot
import PuzzleKit.Grid.Query
import PuzzleKit.Grid.Text
import PuzzleKit.Integer.Checked
import PuzzleKit.Integer.Divisor
import PuzzleKit.Integer.Numeral
import PuzzleKit.Integer.Word
import PuzzleKit.Interval
import PuzzleKit.Linear.Integral
import PuzzleKit.Linear.Reduction
import PuzzleKit.Log
import PuzzleKit.Main
import PuzzleKit.Maze
import PuzzleKit.Partition.Basic
import PuzzleKit.Partition.Cluster
import PuzzleKit.Partition.Forest
import PuzzleKit.Puzzle.Console
import PuzzleKit.Puzzle.Duration
import PuzzleKit.Puzzle.Part
import PuzzleKit.Puzzle.Runner
import PuzzleKit.Puzzle.Sample
import PuzzleKit.Recursion
import PuzzleKit.Registration.Expansion
import PuzzleKit.Registration.Item
import PuzzleKit.Registration.Literal
import PuzzleKit.Registration.Property
import PuzzleKit.Search.Exploration
import PuzzleKit.Search.Frontier
import PuzzleKit.Search.Rules
import PuzzleKit.Sequence.Inspect
import PuzzleKit.Sequence.Split
import PuzzleKit.Source.Token
import PuzzleKit.Source.Tree
import PuzzleKit.Table
import PuzzleKit.Text.Blank
import PuzzleKit.Text.Hidden
import PuzzleKit.Text.Line
import PuzzleKit.Text.Quoted
import PuzzleKit.Proofs.Arrangement.Change
import PuzzleKit.Proofs.Arrangement.Exchange
import PuzzleKit.Proofs.Arrangement.Order
import PuzzleKit.Proofs.Fallible
import PuzzleKit.Proofs.Fraction.Exact
import PuzzleKit.Proofs.Fraction.Obtainable
import PuzzleKit.Proofs.Fraction.Order
import PuzzleKit.Proofs.Fraction.Range
import PuzzleKit.Proofs.Fraction.Ratio
import PuzzleKit.Proofs.Fraction.Text
import PuzzleKit.Proofs.Fuel
import PuzzleKit.Proofs.Geometry.Adjacency
import PuzzleKit.Proofs.Geometry.Between
import PuzzleKit.Proofs.Geometry.Coordinate
import PuzzleKit.Proofs.Geometry.Direction
import PuzzleKit.Proofs.Geometry.Measure
import PuzzleKit.Proofs.Geometry.Reading
import PuzzleKit.Proofs.Geometry.Rectangle
import PuzzleKit.Proofs.Geometry.Rotation
import PuzzleKit.Proofs.Geometry.Steps
import PuzzleKit.Proofs.Graph.Arrival
import PuzzleKit.Proofs.Graph.Cheapest
import PuzzleKit.Proofs.Graph.Walk
import PuzzleKit.Proofs.Grid.Adjacency
import PuzzleKit.Proofs.Grid.Call
import PuzzleKit.Proofs.Grid.Distance
import PuzzleKit.Proofs.Grid.Enumeration
import PuzzleKit.Proofs.Grid.Neighbor
import PuzzleKit.Proofs.Grid.Plot
import PuzzleKit.Proofs.Grid.Position
import PuzzleKit.Proofs.Grid.Reading
import PuzzleKit.Proofs.Grid.Text
import PuzzleKit.Proofs.Grid.Write
import PuzzleKit.Proofs.Integer.CommonMultiple
import PuzzleKit.Proofs.Integer.Divisor
import PuzzleKit.Proofs.Integer.Exact
import PuzzleKit.Proofs.Integer.Multiple
import PuzzleKit.Proofs.Integer.Numeral
import PuzzleKit.Proofs.Interval.Canonical
import PuzzleKit.Proofs.Interval.Merge
import PuzzleKit.Proofs.Interval.Parts
import PuzzleKit.Proofs.Linear.Canonical
import PuzzleKit.Proofs.Linear.Consistency
import PuzzleKit.Proofs.Linear.Echelon
import PuzzleKit.Proofs.Linear.Freedom
import PuzzleKit.Proofs.Linear.Idempotent
import PuzzleKit.Proofs.Linear.Integral
import PuzzleKit.Proofs.Linear.System
import PuzzleKit.Proofs.Partition.Cluster
import PuzzleKit.Proofs.Partition.Generated
import PuzzleKit.Proofs.Partition.Groups
import PuzzleKit.Proofs.Partition.Refusal
import PuzzleKit.Proofs.Partition.Root
import PuzzleKit.Proofs.Puzzle.Protocol
import PuzzleKit.Proofs.Recursion.Memory
import PuzzleKit.Proofs.Recursion.Questions
import PuzzleKit.Proofs.Recursion.Value
import PuzzleKit.Proofs.Registration.Runner
import PuzzleKit.Proofs.Registration.Setting
import PuzzleKit.Proofs.Search.Discipline
import PuzzleKit.Proofs.Search.Distances
import PuzzleKit.Proofs.Search.Dominance
import PuzzleKit.Proofs.Search.Flood
import PuzzleKit.Proofs.Search.Least
import PuzzleKit.Proofs.Search.Level
import PuzzleKit.Proofs.Search.Moment
import PuzzleKit.Proofs.Search.Once
import PuzzleKit.Proofs.Search.Optimum
import PuzzleKit.Proofs.Search.Recorded
import PuzzleKit.Proofs.Search.Run
import PuzzleKit.Proofs.Search.Shortest
import PuzzleKit.Proofs.Search.Steps
import PuzzleKit.Proofs.Search.Termination
import PuzzleKit.Proofs.Sequence.Join
import PuzzleKit.Proofs.Sequence.Split
import PuzzleKit.Proofs.Table
import PuzzleKit.Proofs.Text.Blank
import PuzzleKit.Proofs.Text.Line
