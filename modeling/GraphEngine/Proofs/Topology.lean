/-
Module: GraphEngine.Proofs.Topology
Layer: Proofs
Purpose: A returned binding matches the edges of its pattern.  A later hop to an
  alias that is bound already overwrites what an earlier step found, and nothing
  compares the two; every single-hop step is backed by an edge of the tables
  unless a hop that is really made does so to one of its aliases.
Trusted boundary: none
Main exports: StepKept, StepHolds, stepKept_of_unbound, stepHolds_of_stepKept,
  stepHolds_fails_rebound
-/
import GraphEngine.Proofs.PartialMatches
import GraphEngine.Spec.Walks

namespace GraphEngine

/-! ### Single-hop steps -/

/-- No hop that is really made gives an alias of the step `(x)-[edge]->(y)`
something else: the step's own hop leaves `x` at the node it came from, and
every later hop leaves `x`, `y` and the edge alias as they were.  A hop to a new
alias does so of itself; a hop back to an alias bound already does so when it
leads to the same node. -/
structure StepKept [Chrono] (V : GraphView) (query : Query) (earlier : List PatternStep)
    (x : NodePattern) (edge : EdgePattern) (y : NodePattern) : Prop where
  source : ∀ a b, HopMade V query earlier x edge y a b →
    b.nodes[x.aliasName]? = a.nodes[x.aliasName]?
  later : ∀ front u edge' z back a b,
    query.pattern.steps = front ++ .node u :: .edge edge' :: .node z :: back →
    earlier.length < front.length → HopMade V query front u edge' z a b →
    b.nodes[x.aliasName]? = a.nodes[x.aliasName]? ∧
      b.nodes[y.aliasName]? = a.nodes[y.aliasName]? ∧
      ∀ aliasName, edge.aliasName = some aliasName →
        b.edges[aliasName]? = a.edges[aliasName]?

/-- The tables have an edge of the step's type and direction between what a
binding binds the two nodes to, and the edge alias, if any, is bound to it. -/
def StepHolds (dataset : Dataset) (b : Binding) (x : NodePattern)
    (edge : EdgePattern) (y : NodePattern) : Prop :=
  ∃ u v, b.nodes[x.aliasName]? = some u ∧ b.nodes[y.aliasName]? = some v ∧
    ∃ row ∈ dataset.edges, Dataset.Leads edge.direction row u v ∧
      (∀ t, edge.edgeType = some t → row.1 = t) ∧
      ∀ aliasName, edge.aliasName = some aliasName → b.edges[aliasName]? = some row.2.id

section Topology

variable [Chrono] {dataset : Dataset} {query : Query} {queryPlan : QueryPlan}

omit [Chrono] in
/-- One edge further in the cluster is one edge further in the tables. -/
theorem stepHolds_of_hopOnce {hasher : Partitioning} {partitions : PartitionMap}
    {serve : GenerationHandle → IndexGeneration}
    (served : dataset.ServedBy hasher partitions serve) {x y : NodePattern}
    {edge : EdgePattern} {a b : Binding}
    (sameSource : b.nodes[x.aliasName]? = a.nodes[x.aliasName]?)
    (hop : HopOnce (clusterView hasher (servingOf partitions serve))
      (NaivePlanner.hopStep query x.aliasName edge y) a b) :
    StepHolds dataset b x edge y := by
  rcases hop with ⟨u, t, e, v, bound, adjacent, typed, rfl⟩
  rcases served.adjacent_iff.mp adjacent with ⟨-, -, -, row, member, leads, rfl, rfl⟩
  have boundX : a.nodes[x.aliasName]? = some u := bound
  have boundY : (NaivePlanner.hopStep query x.aliasName edge y).toAlias =
      y.aliasName :=
    rfl
  refine ⟨u, v, sameSource.trans boundX, ?_, row, member, leads, ?_, ?_⟩
  · rw [Binding.extend_nodes, Binding.bindNode_nodes, boundY, if_pos rfl]
  · intro t edgeTyped
    apply EdgeType.name_injective
    apply typed
    show edge.edgeType.map EdgeType.name = some t.name
    rw [edgeTyped]
    rfl
  · intro aliasName aliased
    rw [Binding.extend_edges]
    exact if_pos aliased

/-- A step whose aliases do not occur again is kept, whatever the graph is
like. -/
theorem stepKept_of_unbound {V : GraphView} {earlier later : List PatternStep}
    {x y : NodePattern} {edge : EdgePattern}
    (position : query.pattern.steps = earlier ++ .node x :: .edge edge ::
      .node y :: later) (source : x.aliasName ∉ y.aliasName :: nodeAliasesOf later)
    (target : y.aliasName ∉ nodeAliasesOf later)
    (edgeAlias : ∀ aliasName, edge.aliasName = some aliasName →
      aliasName ∉ edgeAliasesOf later) : StepKept V query earlier x edge y where
  source a b hop := hop.agreesOutside.nodes _ fun here =>
    source (List.mem_cons.mpr (.inl (List.mem_singleton.mp here)))
  later := by
    intro front u edge' z back a b position' after hop
    -- the later hop is one of the steps behind this one
    have inLater : .edge edge' ∈ later ∧ .node z ∈ later := by
      obtain ⟨between, rfl⟩ : ∃ between, front = earlier ++ between := by
        rcases List.append_eq_append_iff.mp (position.symm.trans position') with
          ⟨between, same, -⟩ | ⟨between, same, -⟩
        · exact ⟨between, same⟩
        · rw [same, List.length_append] at after
          omega
      have rest := position.symm.trans position'
      rw [List.append_assoc, List.append_cancel_left_eq] at rest
      rcases between with _ | ⟨_, _ | ⟨_, _ | ⟨_, between⟩⟩⟩
      · simp at after
      · cases rest
      · cases rest
        exact ⟨List.mem_cons_self, List.mem_cons_of_mem _ List.mem_cons_self⟩
      · simp only [List.cons_append, List.cons.injEq] at rest
        rw [rest.2.2.2]
        exact ⟨by simp, by simp⟩
    have nodeOutside (name : String) (outside : name ∉ nodeAliasesOf later) :
        b.nodes[name]? = a.nodes[name]? := by
      apply hop.agreesOutside.nodes
      intro here
      apply outside
      rw [List.mem_singleton.mp here]
      exact List.mem_filterMap.mpr ⟨_, inLater.2, rfl⟩
    refine ⟨nodeOutside _ fun again => source (List.mem_cons_of_mem _ again),
      nodeOutside _ target, ?_⟩
    intro aliasName aliased
    apply hop.agreesOutside.edges
    intro here
    apply edgeAlias aliasName aliased
    exact List.mem_filterMap.mpr ⟨_, inLater.1, Option.mem_toList.mp here⟩

/-- Every single-hop step that is kept is backed by an edge of the tables, on
every binding that a validated query returns.

* `served`: what the partitions serve was built from the tables; there may be
  any number of them, and any may be unreachable;
* `uniqueEdges`: edge ids are unique, which matters for what a `NOT EXISTS`
  reads of an edge;
* `position`, `single`: the step stands between `x` and `y` and is one hop;
* `kept`: no hop that is really made puts something else under one of its
  aliases. -/
theorem stepHolds_of_stepKept (uniqueEdges : dataset.UniqueEdgeIds)
    {schema : Schema} (valid : SchemaValidator.validate query schema = .ok ())
    (planned : NaivePlanner.plan query = .ok queryPlan) {hasher : Partitioning}
    {partitions : PartitionMap} {serve : GenerationHandle → IndexGeneration}
    (served : dataset.ServedBy hasher partitions serve) {out : List Binding}
    (returns : ((inProcess hasher).execute partitions queryPlan).Returns
      serve (.ok out)) {b : Binding} (member : b ∈ out)
    {earlier later : List PatternStep} {x y : NodePattern} {edge : EdgePattern}
    (position : query.pattern.steps = earlier ++ .node x :: .edge edge ::
      .node y :: later) (single : edge.hops = ⟨1, 1⟩)
    (kept : StepKept
      (clusterView hasher (servingOf partitions serve)) query earlier x edge y) :
    StepHolds dataset b x edge y := by
  obtain ⟨first, segments, start, antiJoins, shape⟩ := planShape_of_plan planned
  have found := shape.partialMatch
    (returned_reached uniqueEdges valid shape served returns member)
  rw [position] at found
  obtain ⟨before, after, -, -, rfl⟩ :=
    segmentSteps_split (shape.patternEq.symm.trans position)
  have split : earlier ++ .node x :: .edge edge :: .node y :: segmentSteps after =
      (earlier ++ [.node x, .edge edge, .node y]) ++ segmentSteps after := by
    simp
  rw [split] at found position
  -- the binding as it was right after the step
  obtain ⟨a, foundA, carried⟩ :=
    found.backtrack after ⟨earlier ++ [.node x, .edge edge], y, by simp⟩
  obtain ⟨origin, hop⟩ := foundA.lastHop
  have once := (hopReaches_single_iff single).mp hop.made.1
  obtain ⟨u, v, boundX, boundY, row, inTables, leads, typed, aliased⟩ :=
    stepHolds_of_hopOnce served (kept.source origin a hop) once
  -- no hop made since has changed what the step is about
  have unchanged : b.nodes[x.aliasName]? = a.nodes[x.aliasName]? ∧
      b.nodes[y.aliasName]? = a.nodes[y.aliasName]? ∧
      ∀ aliasName, edge.aliasName = some aliasName →
        b.edges[aliasName]? = a.edges[aliasName]? := by
    apply carried (fun c => c.nodes[x.aliasName]? = a.nodes[x.aliasName]? ∧
      c.nodes[y.aliasName]? = a.nodes[y.aliasName]? ∧
      ∀ aliasName, edge.aliasName = some aliasName →
        c.edges[aliasName]? = a.edges[aliasName]?)
      ⟨rfl, rfl, fun _ _ => rfl⟩
    intro between front u' edge' z back a' b' upTo rest hop' same
    have atHop : query.pattern.steps = front ++ .node u' :: .edge edge' ::
        .node z :: back := by
      rw [position, rest, ← List.append_assoc, upTo, List.append_assoc]
      rfl
    have after : earlier.length < front.length := by
      have lengths := congrArg List.length upTo
      simp only [List.length_append, List.length_cons, List.length_nil] at lengths
      omega
    obtain ⟨keepsX, keepsY, keepsEdge⟩ :=
      kept.later front u' edge' z back a' b' atHop after hop'
    exact ⟨keepsX.trans same.1, keepsY.trans same.2.1, fun aliasName named =>
      (keepsEdge aliasName named).trans (same.2.2 aliasName named)⟩
  refine ⟨u, v, unchanged.1.trans boundX, unchanged.2.1.trans boundY, row, inTables,
    leads, typed, ?_⟩
  intro aliasName named
  exact (unchanged.2.2 aliasName named).trans (aliased aliasName named)

end Topology

section

open scoped Social

theorem acquaintances_single :
    ((inProcess Social.single).execute
      (deployment Social.single) Social.acquaintancesPlan).run
      (fun _ => Social.dataset.deployed Social.single) Social.inOrder 0 =
        .ok [Social.pair 1 2, Social.pair 2 4] := by
  decide +kernel

/-- The example query returns acquaintances. -/
theorem acquaintances_stepHolds :
    StepHolds Social.dataset (Social.pair 1 2) (Social.labelled "a" Social.person)
      (Social.typed Social.knows) (Social.labelled "b" Social.person) :=
  stepHolds_of_stepKept Social.uniqueEdgeIds Social.acquaintances_valid
    Social.acquaintances_planned
    (served_deployment _ _)
    (acquaintances_single ▸ Client.returns_run _ Social.inOrder 0 _)
    List.mem_cons_self (rfl : _ = [] ++ _) rfl
    (stepKept_of_unbound (rfl : _ = [] ++ _) (by decide) (by decide) (by decide))

/-! ### An alias bound twice -/

/-- `MATCH (a:Person)-[:KNOWS]->(b:Person)-[:KNOWS]->(a:Person) RETURN a`. -/
def mutualAcquaintances : Query :=
  Social.matching
    [.node (Social.labelled "a" Social.person), .edge (Social.typed Social.knows),
     .node (Social.labelled "b" Social.person), .edge (Social.typed Social.knows),
     .node (Social.labelled "a" Social.person)] "a"

/-- The validator accepts the pattern and the planner lowers it, but the second
hop overwrites `a`: the answer says that 4 knows 2, which is in no table. -/
theorem stepHolds_fails_rebound :
    SchemaValidator.validate mutualAcquaintances Social.schema = .ok () ∧
    Social.dataset.UniqueNodeIds ∧ Social.dataset.UniqueEdgeIds ∧
    Social.dataset.ServedBy Social.single (deployment Social.single)
      (Social.dataset.deployed Social.single) ∧
    FullyReachable Social.single (deployment Social.single) ∧
    ∃ plan out b, NaivePlanner.plan mutualAcquaintances = .ok plan ∧
      ((inProcess Social.single).execute (deployment Social.single) plan).run
        (fun _ => Social.dataset.deployed Social.single) Social.inOrder 0 =
          .ok out ∧ b ∈ out ∧
      mutualAcquaintances.pattern.steps =
        [] ++ .node (Social.labelled "a" Social.person) ::
          .edge (Social.typed Social.knows) ::
          .node (Social.labelled "b" Social.person) ::
            [.edge (Social.typed Social.knows),
              .node (Social.labelled "a" Social.person)] ∧
      ¬ StepHolds Social.dataset b (Social.labelled "a" Social.person)
        (Social.typed Social.knows)
        (Social.labelled "b" Social.person) := by
  refine ⟨by decide, Social.uniqueNodeIds, Social.uniqueEdgeIds, served_deployment _ _,
    fullyReachable_deployment _, _, [Social.pair 4 2], Social.pair 4 2,
      rfl, by decide +kernel,
    List.mem_cons_self, rfl, ?_⟩
  rintro ⟨u, v, boundA, boundB, row, member, leads, -⟩
  have nodeA : u = ⟨4⟩ := by
    have found : (Social.pair 4 2).nodes["a"]? = some ⟨4⟩ := by decide
    exact Option.some.inj (boundA.symm.trans found)
  have nodeB : v = ⟨2⟩ := by
    have found : (Social.pair 4 2).nodes["b"]? = some ⟨2⟩ := by decide
    exact Option.some.inj (boundB.symm.trans found)
  subst nodeA nodeB
  have nowhere : ∀ row ∈ Social.dataset.edges,
      ¬ (orient true row.2 = (⟨4⟩, ⟨2⟩)) := by
    decide
  exact nowhere row member leads

end

end GraphEngine
