import ParetoSearch.Archive.Basic
import ParetoSearch.Archive.Members
import ParetoSearch.Archive.Snapshot
import ParetoSearch.Binary64
import ParetoSearch.Continuation.Basic
import ParetoSearch.Continuation.Config
import ParetoSearch.Continuation.Progress
import ParetoSearch.Crowding
import ParetoSearch.Decimal
import ParetoSearch.Dominance
import ParetoSearch.Epsilon
import ParetoSearch.EpsilonNsga2
import ParetoSearch.Failure
import ParetoSearch.Nsga2
import ParetoSearch.Power
import ParetoSearch.Problem
import ParetoSearch.Proofs.Archive.Bound
import ParetoSearch.Proofs.Archive.Coverage
import ParetoSearch.Proofs.Archive.Dominated
import ParetoSearch.Proofs.Archive.FirstFront
import ParetoSearch.Proofs.Archive.History
import ParetoSearch.Proofs.Archive.Members
import ParetoSearch.Proofs.Archive.PlainRule
import ParetoSearch.Proofs.Archive.Reachable
import ParetoSearch.Proofs.Archive.Rejections
import ParetoSearch.Proofs.Archive.Snapshot
import ParetoSearch.Proofs.Archive.Summary
import ParetoSearch.Proofs.Archive.Violations
import ParetoSearch.Proofs.Binary64.Arithmetic
import ParetoSearch.Proofs.Binary64.Counts
import ParetoSearch.Proofs.Binary64.Monotone
import ParetoSearch.Proofs.Binary64.Nearest
import ParetoSearch.Proofs.Binary64.Order
import ParetoSearch.Proofs.Binary64.Quotients
import ParetoSearch.Proofs.Binary64.Reals
import ParetoSearch.Proofs.Binary64.Rounding
import ParetoSearch.Proofs.Binary64.Sizes
import ParetoSearch.Proofs.Continuation.Checks
import ParetoSearch.Proofs.Continuation.Faults
import ParetoSearch.Proofs.Continuation.Passages
import ParetoSearch.Proofs.Continuation.Resizes
import ParetoSearch.Proofs.Continuation.Windows
import ParetoSearch.Proofs.Crowding.Columns
import ParetoSearch.Proofs.Crowding.Distances
import ParetoSearch.Proofs.Crowding.Ends
import ParetoSearch.Proofs.Dominance.Boxes
import ParetoSearch.Proofs.Dominance.Corners
import ParetoSearch.Proofs.Dominance.Grades
import ParetoSearch.Proofs.Dominance.Orders
import ParetoSearch.Proofs.EpsilonNsga2.Budgets
import ParetoSearch.Proofs.EpsilonNsga2.Coverage
import ParetoSearch.Proofs.EpsilonNsga2.Evaluations
import ParetoSearch.Proofs.EpsilonNsga2.Faults
import ParetoSearch.Proofs.EpsilonNsga2.Observation
import ParetoSearch.Proofs.EpsilonNsga2.Sizes
import ParetoSearch.Proofs.Nsga2.Calls
import ParetoSearch.Proofs.Nsga2.Errors
import ParetoSearch.Proofs.Nsga2.Faults
import ParetoSearch.Proofs.Nsga2.Feasible
import ParetoSearch.Proofs.Nsga2.Logging
import ParetoSearch.Proofs.Nsga2.Memory
import ParetoSearch.Proofs.Nsga2.Ranks
import ParetoSearch.Proofs.Nsga2.Validity
import ParetoSearch.Proofs.Population.Cut
import ParetoSearch.Proofs.Population.Faults
import ParetoSearch.Proofs.Population.Feasible
import ParetoSearch.Proofs.Population.Refusals
import ParetoSearch.Proofs.Population.Room
import ParetoSearch.Proofs.Population.Survivors
import ParetoSearch.Proofs.Population.Truncation
import ParetoSearch.Proofs.Random.Draws
import ParetoSearch.Proofs.Ranking.Chains
import ParetoSearch.Proofs.Ranking.Cycles
import ParetoSearch.Proofs.Ranking.Exact
import ParetoSearch.Proofs.Ranking.Fronts
import ParetoSearch.Proofs.Ranking.Graph
import ParetoSearch.Proofs.Ranking.Vectors
import ParetoSearch.Proofs.Search.Faults
import ParetoSearch.Proofs.Search.Loop
import ParetoSearch.Proofs.Selection.Tournament
import ParetoSearch.Proofs.Sorting.Faults
import ParetoSearch.Proofs.Sorting.Sorted
import ParetoSearch.Proofs.Variation.Bounds
import ParetoSearch.Proofs.Variation.Intervals
import ParetoSearch.Proofs.Variation.Shares
import ParetoSearch.Proofs.Variation.Unevaluated
import ParetoSearch.Random.ChaCha
import ParetoSearch.Random.Generator
import ParetoSearch.Random.Source
import ParetoSearch.Ranking
import ParetoSearch.Rehearsal.Benchmark
import ParetoSearch.Rehearsal.Operators
import ParetoSearch.Rehearsal.Scripted
import ParetoSearch.Rehearsal.Stage
import ParetoSearch.Search
import ParetoSearch.Selection
import ParetoSearch.Solution
import ParetoSearch.Sorting.Adaptive
import ParetoSearch.Sorting.Block
import ParetoSearch.Sorting.Insertion
import ParetoSearch.Sorting.Merge
import ParetoSearch.Sorting.Partition
import ParetoSearch.Sorting.Runs
import ParetoSearch.Truncation
import ParetoSearch.Variation.Basic
import ParetoSearch.Variation.Crossover
import ParetoSearch.Variation.Interval
import ParetoSearch.Variation.Mutation
