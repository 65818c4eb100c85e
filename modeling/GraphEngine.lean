import GraphEngine.Lib.ClientRules
import GraphEngine.Lib.ClientSimulation
import GraphEngine.Lib.Interleaving
import GraphEngine.Lib.Collections
import GraphEngine.Lib.NetAddr
import GraphEngine.Lib.PegRuns
import GraphEngine.Lib.PegTokens
import GraphEngine.Lib.PegLexemes
import GraphEngine.Model.Dsl
import GraphEngine.Model.Validator
import GraphEngine.Lib.Csr
import GraphEngine.Model.Builder
import GraphEngine.Model.Planner
import GraphEngine.Model.FilterEval
import GraphEngine.Model.Cluster
import GraphEngine.Model.DistributedExecutor
import GraphEngine.Model.GrpcTransport
import GraphEngine.Spec.GraphView
import GraphEngine.Spec.ClusterView
import GraphEngine.Spec.Walks
import GraphEngine.Proofs.Execute
import GraphEngine.Proofs.Comparisons
import GraphEngine.Proofs.Build
import GraphEngine.Proofs.Served
import GraphEngine.Proofs.Planning
import GraphEngine.Proofs.Placement
import GraphEngine.Proofs.Provenance
import GraphEngine.Proofs.PartialMatches
import GraphEngine.Spec.Conformance
import GraphEngine.Proofs.Topology
import GraphEngine.Proofs.GroupedAntiJoin
import GraphEngine.Proofs.RoundDecomposition
import GraphEngine.Proofs.FilterRouting
import GraphEngine.Proofs.LabelFlow
import GraphEngine.Proofs.ExistsCompilation
import GraphEngine.Proofs.SnapshotIsolation
import GraphEngine.Proofs.Rebalance
import GraphEngine.Proofs.RebalanceHistory
import GraphEngine.Proofs.SchemaText
import GraphEngine.Proofs.PlannerTotality
import GraphEngine.Proofs.Evolution
import GraphEngine.Proofs.ExactCover
import GraphEngine.Proofs.StartResolution
import GraphEngine.Proofs.AliasSafety
import GraphEngine.Proofs.OuterValues
import GraphEngine.Proofs.RebuildCut
import GraphEngine.Proofs.RpcSimulation
import GraphEngine.Proofs.WireCodec
import GraphEngine.Proofs.Transparency
import GraphEngine.Proofs.HopExtensions
import GraphEngine.Proofs.Dangling
import GraphEngine.Model.PackedTopology
import GraphEngine.Model.QueryService
import GraphEngine.Model.ArrowRows
import GraphEngine.Model.Discovery
import GraphEngine.Spec.StoredValues
import GraphEngine.Spec.ConcreteSyntax
import GraphEngine.Proofs.CsrExact
import GraphEngine.Proofs.PropertyLookup
import GraphEngine.Proofs.OrderBy
import GraphEngine.Proofs.Homogeneity
import GraphEngine.Proofs.ZeroHops
import GraphEngine.Proofs.FilterAgreement
import GraphEngine.Proofs.LiteralTypes
import GraphEngine.Proofs.RoundFrontiers
import GraphEngine.Proofs.PatternAliases
import GraphEngine.Proofs.EvolutionOrder
import GraphEngine.Proofs.Scans
import GraphEngine.Proofs.TableNames
import GraphEngine.Proofs.BadRows
import GraphEngine.Proofs.StorageBoundary
import GraphEngine.Proofs.RecordTypes
import GraphEngine.Proofs.GenerationCounts
import GraphEngine.Proofs.Discovery
import GraphEngine.Spec.SchemaSyntax
import GraphEngine.Proofs.CommonSyntax
import GraphEngine.Proofs.SchemaSyntax
import GraphEngine.Proofs.SchemaDeclarations
import GraphEngine.Proofs.SchemaForm
import GraphEngine.Proofs.Lexemes
import GraphEngine.Proofs.PatternSyntax
import GraphEngine.Proofs.ConcreteSyntax
import GraphEngine.Proofs.Merging
import GraphEngine.Proofs.OutgoingRecords
import GraphEngine.Lib.PegReads
import GraphEngine.Proofs.ParsedForm
import GraphEngine.Proofs.Respelling
import GraphEngine.Spec.Answers
import GraphEngine.Proofs.Answers
import GraphEngine.Proofs.CompatibleQueries
import GraphEngine.Proofs.Rollout
import GraphEngine.Proofs.Matches
