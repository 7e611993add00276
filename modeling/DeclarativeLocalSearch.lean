import DeclarativeLocalSearch.LocalSearch.ILS
import DeclarativeLocalSearch.Structure.SortTablesFirst
import DeclarativeLocalSearch.Structure.TwoValuedEnumerated
import DeclarativeLocalSearch.FoBdd.AccordingToBounds
import DeclarativeLocalSearch.Propagation.FullPropagation
import DeclarativeLocalSearch.Propagation.Runs
import DeclarativeLocalSearch.Theory.PushKeeps
import DeclarativeLocalSearch.Theory.DeriveTermBounds
import DeclarativeLocalSearch.Theory.CardConstrToFOTheory
import DeclarativeLocalSearch.ApproximatingDefinition.Sound
import DeclarativeLocalSearch.Grounding.Projection
import DeclarativeLocalSearch.LazyGrounding.DelayedJoins
import DeclarativeLocalSearch.LazyGrounding.DelayedDefinitions
import DeclarativeLocalSearch.Definitions.JoinDefinitionsForXSB
import DeclarativeLocalSearch.ModelExpansion.AssumedModels
import DeclarativeLocalSearch.Grounding.ReifyComparison
import DeclarativeLocalSearch.ModelExpansion.MinimizeMarkers
import DeclarativeLocalSearch.FunctionDetection.SubsetGenerator
import DeclarativeLocalSearch.SymmetryBreaking.GroundSymmetry
import DeclarativeLocalSearch.Theory.SplitIntoMonotoneAgg
import DeclarativeLocalSearch.Theory.EliminateUniversalQuantifications
import DeclarativeLocalSearch.Theory.AddIfCompletionDefinition
import DeclarativeLocalSearch.FoBdd.MakeMoreHolds
import DeclarativeLocalSearch.FoBdd.MeaningRuns
import DeclarativeLocalSearch.FoBdd.SolveHolds
import DeclarativeLocalSearch.LocalSearch.NextMove
import DeclarativeLocalSearch.LocalSearch.LargeNeighbourhoodRun
import DeclarativeLocalSearch.LocalSearch.NeighborhoodMove
import DeclarativeLocalSearch.LocalSearch.TabuList
import DeclarativeLocalSearch.Generators.AggregateGenerator
import DeclarativeLocalSearch.Generators.Combinations
import DeclarativeLocalSearch.FoBdd.TryMaintainOrder
import DeclarativeLocalSearch.Structure.UnionSortIterator
import DeclarativeLocalSearch.Structure.PredInter
import DeclarativeLocalSearch.LocalSearch.Disturbance
import DeclarativeLocalSearch.TSP.Search
import DeclarativeLocalSearch.Structure.CheckConsistency
import DeclarativeLocalSearch.Structure.FunctionCheck
import DeclarativeLocalSearch.Structure.NumericOperations
import DeclarativeLocalSearch.Structure.TableSize
import DeclarativeLocalSearch.Structure.ApproxTables
import DeclarativeLocalSearch.Generators.ComparisonTable
import DeclarativeLocalSearch.Querying.FaithfulNames
import DeclarativeLocalSearch.Definitions.RefineRuns
import DeclarativeLocalSearch.Definitions.ApproxTotal
import DeclarativeLocalSearch.Grounding.LazyElements
import DeclarativeLocalSearch.Grounding.MergedRules
import DeclarativeLocalSearch.Grounding.FoldCPTerm
import DeclarativeLocalSearch.Grounding.ComparisonBodies
import DeclarativeLocalSearch.Grounding.LazyDisjunctive
