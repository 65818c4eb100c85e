/-
Module: GraphEngine.Proofs.Placement
Layer: Proofs
Purpose: What a query returns does not depend on where the data lies.  A fully
  reachable cluster of built generations computes the denotation of a plan over
  the tables, for every number of partitions and every assignment of nodes to
  them; a cluster that lost replicas returns no further bindings.
Trusted boundary: none
Main exports: execute_denotes, execute_placement_independent,
  execute_mono_reachable
-/
import GraphEngine.Lib.ClientSimulation
import GraphEngine.Proofs.Planning
import GraphEngine.Proofs.Served

namespace GraphEngine

section Placement

variable [Chrono]

/-- Views that show each other reach the same bindings. -/
theorem reached_iff {V W : GraphView} (le : V.Le W) (ge : W.Le V) {start : PlanStep}
    {steps : List PlanStep} (outgoing : OutgoingAntiJoins steps) {b : Binding} :
    Reached V (Keep V) start steps b ↔ Reached W (Keep W) start steps b :=
  ⟨fun reached => reached.mono le outgoing, fun reached => reached.mono ge outgoing⟩

/-- An anti-join that fails over one view fails over a view that shows more. -/
theorem Fails.mono {V W : GraphView} (le : V.Le W) {start : PlanStep}
    {steps : List PlanStep} (outgoing : OutgoingAntiJoins steps)
    (fails : Fails V start steps) : Fails W start steps := by
  obtain ⟨done, step, later, b, rfl, reached, lacking⟩ := fails
  refine ⟨done, step, later, b, rfl, reached.mono le fun other member => ?_, lacking⟩
  exact outgoing other (List.mem_append_left _ member)

/-- A plan that fails on an alias over a graph fails on it over every larger
one. -/
theorem FailsOn.mono {V W : GraphView} (le : V.Le W) {start : PlanStep}
    {steps : List PlanStep} (outgoing : OutgoingAntiJoins steps) {x : String}
    (fails : FailsOn V start steps x) : FailsOn W start steps x := by
  obtain ⟨done, step, later, b, rfl, reached, lacks⟩ := fails
  refine ⟨done, step, later, b, rfl, reached.mono le fun other member => ?_, lacks⟩
  exact outgoing other (List.mem_append_left _ member)

/-- Refinement: with every partition reachable, the executor computes the
denotation of a validated query's plan over the tables. -/
theorem execute_denotes {dataset : Dataset} {hasher : Partitioning}
    {partitions : PartitionMap} {serve : GenerationHandle → IndexGeneration}
    (served : dataset.ServedBy hasher partitions serve)
    (reachable : FullyReachable hasher partitions)
    (present : dataset.EndpointsPresent) (uniqueNodes : dataset.UniqueNodeIds)
    (uniqueEdges : dataset.UniqueEdgeIds) {start : PlanStep} {steps : List PlanStep}
    (wellScoped : WellScoped start steps) (outgoing : OutgoingAntiJoins steps)
    (project : List ReturnItem) :
    ((inProcess hasher).execute partitions ⟨start :: steps, project⟩).Meets serve
      (FrontierSpec dataset.view start steps)
      (fun _ => Fails dataset.view start steps) := by
  have le := served.le_view present uniqueEdges
  have ge := served.view_le reachable present uniqueNodes uniqueEdges
  refine (execute_meets hasher partitions serve wellScoped
    (served.edgesAgree uniqueEdges) project).mono
    ?_ fun _ fails => fails.mono le outgoing
  rintro out ⟨reached, fine⟩
  exact ⟨fun b => (reached b).trans (reached_iff le ge outgoing),
    fun fails => fine (fails.mono ge outgoing)⟩

/-- Two outcomes with the same bindings, or two failures. -/
def SameBindings (outcome outcome' : Except Fault (List Binding)) : Prop :=
  Client.SameClass (fun out out' => ∀ b, b ∈ out ↔ b ∈ out') outcome outcome'

/-- Two programs that meet the same exact specification end alike. -/
theorem sameBindings_of_meets {V : GraphView} {start : PlanStep}
    {steps : List PlanStep} {serve serve' : GenerationHandle → IndexGeneration}
    {prog prog' : Exec (List Binding)}
    (meets : prog.Meets serve (FrontierSpec V start steps)
      (fun _ => Fails V start steps))
    (meets' : prog'.Meets serve' (FrontierSpec V start steps)
      (fun _ => Fails V start steps))
    {outcome outcome' : Except Fault (List Binding)}
    (returns : prog.Returns serve outcome)
    (returns' : prog'.Returns serve' outcome') : SameBindings outcome outcome' := by
  cases outcome with
  | ok out =>
      obtain ⟨reached, fine⟩ := meets.ok returns
      cases outcome' with
      | ok out' => exact .ok fun b => (reached b).trans ((meets'.ok returns').1 b).symm
      | error e => exact absurd (meets'.error returns') fine
  | error e =>
      cases outcome' with
      | ok out' => exact absurd (meets.error returns) (meets'.ok returns').2
      | error e' => exact .error e e'

/-- The bindings returned do not depend on the number of partitions, on the
assignment of nodes to them, or on any enumeration order.

* `uniqueNodes`, `uniqueEdges`, `present`: the tables give every id one row, and
  every edge both its ends;
* `served`, `served'`: both clusters serve what the builder makes of these
  tables;
* `reachable`, `reachable'`: in both of them every partition has a healthy
  replica.

The outcomes may be failures: the two executions fail together. -/
theorem execute_placement_independent {dataset : Dataset}
    (uniqueNodes : dataset.UniqueNodeIds) (uniqueEdges : dataset.UniqueEdgeIds)
    (present : dataset.EndpointsPresent) {query : Query} {schema : Schema}
    {plan : QueryPlan} (valid : SchemaValidator.validate query schema = .ok ())
    (planned : NaivePlanner.plan query = .ok plan) {hasher hasher' : Partitioning}
    {partitions partitions' : PartitionMap}
    {serve serve' : GenerationHandle → IndexGeneration}
    (served : dataset.ServedBy hasher partitions serve)
    (reachable : FullyReachable hasher partitions)
    (served' : dataset.ServedBy hasher' partitions' serve')
    (reachable' : FullyReachable hasher' partitions')
    {outcome outcome' : Except Fault (List Binding)}
    (returns : ((inProcess hasher).execute partitions plan).Returns serve outcome)
    (returns' : ((inProcess hasher').execute partitions' plan).Returns
      serve' outcome') : SameBindings outcome outcome' := by
  have checked := SchemaValidator.validate_eq_ok_iff.mp valid
  obtain ⟨first, segments, start, antiJoins, shape⟩ := planShape_of_plan planned
  have wellScoped := wellScoped_of_plan checked shape
  have outgoing := outgoingAntiJoins_of_plan checked shape
  have planEq := shape.planEq
  subst planEq
  refine sameBindings_of_meets (V := dataset.view)
    (execute_denotes served reachable present uniqueNodes uniqueEdges wellScoped outgoing
      query.returns)
    (execute_denotes served' reachable' present uniqueNodes uniqueEdges wellScoped
      outgoing query.returns) returns returns'

end Placement

section

open scoped Social

/-- The example query over one partition and over two. -/
theorem acquaintances_placement_independent :
    SameBindings
      (((inProcess Social.single).execute
          (deployment Social.single) Social.acquaintancesPlan).run
        (fun _ => Social.dataset.deployed Social.single) Social.inOrder 0)
      (((inProcess Social.byParity).execute
          (deployment Social.byParity) Social.acquaintancesPlan).run
        (fun _ => Social.dataset.deployed Social.byParity) Social.inOrder 0) :=
  execute_placement_independent Social.uniqueNodeIds Social.uniqueEdgeIds
    Social.endpointsPresent
    Social.acquaintances_valid Social.acquaintances_planned
    (served_deployment _ _) (fullyReachable_deployment _)
    (served_deployment _ _) (fullyReachable_deployment _)
    (Client.returns_run _ _ _ _) (Client.returns_run _ _ _ _)

end

section Reachability

variable [Chrono]

/-- Losing replicas never adds bindings, whatever build of the tables a
partition serves.

* `extends_`: the second map has a replica for each partition that the first one
  has, and it serves the same generation;
* `fromTables`: what is served was built from the tables, for whatever
  partitions;
* `uniqueEdges`: an edge has one record.  Without it a lost partition could
  change which of two records a `NOT EXISTS` is judged by. -/
theorem execute_mono_reachable {dataset : Dataset}
    (uniqueEdges : dataset.UniqueEdgeIds) {query : Query} {schema : Schema}
    {plan : QueryPlan} (valid : SchemaValidator.validate query schema = .ok ())
    (planned : NaivePlanner.plan query = .ok plan) {hasher : Partitioning}
    {partitions partitions' : PartitionMap}
    {serve serve' : GenerationHandle → IndexGeneration}
    (fromTables : ∀ p generation, servingOf partitions' serve' p = some generation →
      ∃ partitioning q, dataset.Built partitioning q generation)
    (extends_ : ∀ p generation, servingOf partitions serve p = some generation →
      servingOf partitions' serve' p = some generation) {out out' : List Binding}
    (returns : ((inProcess hasher).execute partitions plan).Returns serve (.ok out))
    (returns' : ((inProcess hasher).execute partitions' plan).Returns
      serve' (.ok out')) : ∀ b ∈ out, b ∈ out' := by
  have checked := SchemaValidator.validate_eq_ok_iff.mp valid
  obtain ⟨first, segments, start, antiJoins, shape⟩ := planShape_of_plan planned
  have wellScoped := wellScoped_of_plan checked shape
  have outgoing := outgoingAntiJoins_of_plan checked shape
  have planEq := shape.planEq
  subst planEq
  have agree : (clusterView hasher (servingOf partitions serve)).EdgesAgree :=
    edgesAgree_of_built uniqueEdges fun p generation serves =>
      fromTables p generation (extends_ p generation serves)
  have reached :=
    (execute_meets hasher partitions serve wellScoped agree query.returns).ok returns
  have reached' := (execute_meets hasher partitions' serve' wellScoped
    (edgesAgree_of_built uniqueEdges fromTables) query.returns).ok returns'
  intro b member
  rw [reached'.1]
  exact ((reached.1 b).mp member).mono (clusterView_le hasher extends_) outgoing

end Reachability

section

open scoped Social

/-- The answer to the example query while the odd ids cannot be asked about. -/
theorem acquaintances_without_odd :
    ((inProcess Social.byParity).execute
      ((deployment Social.byParity).without { val := 1 })
      Social.acquaintancesPlan).run
        (fun _ => Social.dataset.deployed Social.byParity) Social.inOrder 0 =
        .ok [Social.pair 2 4] := by
  decide +kernel

theorem acquaintances_with_odd :
    ((inProcess Social.byParity).execute
      (deployment Social.byParity) Social.acquaintancesPlan).run
      (fun _ => Social.dataset.deployed Social.byParity) Social.inOrder 0 =
        .ok [Social.pair 2 4, Social.pair 1 2] := by
  decide +kernel

/-- What is found without the odd ids is found with them. -/
theorem acquaintances_mono_reachable :
    ((inProcess Social.byParity).execute
      ((deployment Social.byParity).without { val := 1 })
      Social.acquaintancesPlan).run
        (fun _ => Social.dataset.deployed Social.byParity) Social.inOrder 0 =
        .ok [Social.pair 2 4] ∧
      Social.pair 2 4 ∈ [Social.pair 2 4, Social.pair 1 2] :=
  ⟨acquaintances_without_odd,
    execute_mono_reachable Social.uniqueEdgeIds Social.acquaintances_valid
      Social.acquaintances_planned
      (fun p _ serves => ⟨Social.byParity, p, served_deployment _ _ p _ serves⟩)
      (fun _ _ => servingOf_without)
      (acquaintances_without_odd ▸ Client.returns_run _ Social.inOrder 0 _)
      (acquaintances_with_odd ▸ Client.returns_run _ Social.inOrder 0 _)
      _ (List.mem_singleton_self _)⟩

end

end GraphEngine
