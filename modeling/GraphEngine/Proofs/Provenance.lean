/-
Module: GraphEngine.Proofs.Provenance
Layer: Proofs
Purpose: Where the parts of a returned binding come from.  Every binding reached
  grew out of bindings reached by the prefixes of its plan, and it still agrees
  with them on all aliases that were not bound again.
Trusted boundary: none
Main exports: Binding.AgreesOutside, Reached.earlier, PlanShape.reached_split,
  returned_reached
-/
import GraphEngine.Proofs.Planning
import GraphEngine.Proofs.Served

namespace GraphEngine

/-! ### Frames -/

/-- Two bindings give every alias outside the two lists the same node and edge. -/
structure Binding.AgreesOutside (nodeAliases edgeAliases : List String)
    (a b : Binding) : Prop where
  nodes : ∀ x, x ∉ nodeAliases → b.nodes[x]? = a.nodes[x]?
  edges : ∀ x, x ∉ edgeAliases → b.edges[x]? = a.edges[x]?

theorem Binding.AgreesOutside.refl (a : Binding) : a.AgreesOutside [] [] a :=
  ⟨fun _ _ => rfl, fun _ _ => rfl⟩

theorem Binding.AgreesOutside.trans {nodes nodes' edges edges' : List String}
    {a b c : Binding} (first : a.AgreesOutside nodes edges b)
    (second : b.AgreesOutside nodes' edges' c) :
    a.AgreesOutside (nodes ++ nodes') (edges ++ edges') c := by
  constructor
  · intro x outside
    rw [List.mem_append, not_or] at outside
    exact (second.nodes x outside.2).trans (first.nodes x outside.1)
  · intro x outside
    rw [List.mem_append, not_or] at outside
    exact (second.edges x outside.2).trans (first.edges x outside.1)

/-- A walk binds its target and its edge alias, and touches no other alias. -/
theorem HopWalk.agreesOutside {V : GraphView} {step : ExpandHop} {depth : Nat}
    {b b' : Binding} (walk : HopWalk V step depth b b') :
    b.AgreesOutside [step.toAlias] step.edgeAlias.toList b' := by
  induction depth generalizing b' with
  | zero =>
      have same : b' = b := walk
      subst same
      exact ⟨fun _ _ => rfl, fun _ _ => rfl⟩
  | succ depth inductionHypothesis =>
      rcases walk with ⟨mid, earlier, u, t, e, v, -, -, -, rfl⟩
      have before := inductionHypothesis earlier
      constructor
      · intro x outside
        have other : step.toAlias ≠ x := by
          intro same
          apply outside
          rw [same]
          exact List.mem_singleton_self x
        rw [Binding.extend_nodes, Binding.bindNode_nodes]
        exact (if_neg other).trans (before.nodes x outside)
      · intro x outside
        have other : (ScatterGatherExecutor.roundStep step (cursorAt step depth)
            (depth + 1)).edgeAlias ≠
            some x := by
          intro same
          apply outside
          simp only [ScatterGatherExecutor.roundStep] at same
          split at same
          · rw [same]
            exact List.mem_singleton_self x
          · cases same
        rw [Binding.extend_edges, if_neg other]
        exact before.edges x outside

section Provenance

variable [Chrono]

/-! ### Prefixes of a plan -/

/-- A binding reached grew out of one reached by any prefix of the plan. -/
theorem Reached.earlier {V : GraphView} {keep : AntiJoinStep → Binding → Prop}
    {start : PlanStep} {done : List PlanStep} (later : List PlanStep) {b : Binding}
    (reached : Reached V keep start (done ++ later) b) :
    ∃ a, Reached V keep start done a ∧
      a.AgreesOutside (later.flatMap PlanStep.nodeAliases)
        (later.flatMap PlanStep.edgeAliases) b := by
  induction later using List.reverseRecOn generalizing b with
  | nil =>
      rw [List.append_nil] at reached
      exact ⟨b, reached, .refl b⟩
  | append_singleton later step inductionHypothesis =>
      rw [← List.append_assoc, reached_append] at reached
      rw [List.flatMap_append, List.flatMap_append]
      cases step with
      | resolveStart step => exact reached.elim
      | resolveAll step => exact reached.elim
      | expandHop step =>
          rcases reached with ⟨mid, reachedMid, ⟨depth, -, -, -, walk⟩, -⟩
          rcases inductionHypothesis reachedMid with ⟨a, reachedA, agrees⟩
          refine ⟨a, reachedA, agrees.trans ?_⟩
          simpa [PlanStep.nodeAliases, PlanStep.edgeAliases] using walk.agreesOutside
      | antiJoin step =>
          rcases inductionHypothesis reached.1 with ⟨a, reachedA, agrees⟩
          refine ⟨a, reachedA, agrees.trans ?_⟩
          exact .refl b

variable {query : Query} {queryPlan : QueryPlan} {first : NodePattern}
variable {segments : List (EdgePattern × NodePattern)} {start : PlanStep}
variable {antiJoins : List PlanStep}

omit [Chrono] in
theorem aliases_antiJoins
    (shape : PlanShape query queryPlan first segments start antiJoins) :
    antiJoins.flatMap PlanStep.nodeAliases = [] ∧
      antiJoins.flatMap PlanStep.edgeAliases = [] := by
  rw [List.flatMap_eq_nil_iff, List.flatMap_eq_nil_iff]
  constructor <;> intro step member <;>
    rcases mem_planAntiJoins shape.joined member with ⟨-, antiJoin, -, -, rfl⟩ <;> rfl

/-- A binding reached by the plan of a query, at any point of the pattern. -/
theorem PlanShape.reached_split
    (shape : PlanShape query queryPlan first segments start antiJoins)
    {V : GraphView} {keep : AntiJoinStep → Binding → Prop} {b : Binding}
    (reached : Reached V keep start
      (hopsOf query first.aliasName segments ++ antiJoins) b)
    {before after : List (EdgePattern × NodePattern)}
    (split : segments = before ++ after) :
    ∃ a, Reached V keep start (hopsOf query first.aliasName before) a ∧
      a.AgreesOutside (after.map fun segment => segment.2.aliasName)
        (after.flatMap fun segment => segment.1.aliasName.toList) b := by
  rw [split, hopsOf_append, List.append_assoc] at reached
  rcases reached.earlier with ⟨a, reachedA, agrees⟩
  rw [List.flatMap_append, List.flatMap_append, nodeAliases_hopsOf,
    edgeAliases_hopsOf, (aliases_antiJoins shape).1, (aliases_antiJoins shape).2,
    List.append_nil, List.append_nil] at agrees
  exact ⟨a, reachedA, agrees⟩

/-- The last expansion before a point of the pattern. -/
theorem reached_segment {V : GraphView} {keep : AntiJoinStep → Binding → Prop}
    {before : List (EdgePattern × NodePattern)} {edge : EdgePattern}
    {toNode : NodePattern} {b : Binding}
    (reached : Reached V keep start
      (hopsOf query first.aliasName (before ++ [(edge, toNode)])) b) :
    ∃ a, Reached V keep start (hopsOf query first.aliasName before) a ∧
      HopRel V (NaivePlanner.hopStep query
        (lastAlias first.aliasName before) edge toNode) a b := by
  rw [hopsOf_append, hopsOf, hopsOf, reached_append] at reached
  exact reached

/-! ### Patterns -/

omit [Chrono] in
/-- The node patterns in front of a point of the pattern. -/
theorem lastAlias_append (fromAlias : String) (before : List (EdgePattern × NodePattern))
    (edge : EdgePattern) (toNode : NodePattern) :
    lastAlias fromAlias (before ++ [(edge, toNode)]) = toNode.aliasName := by
  rw [lastAlias, List.getLast?_append, List.getLast?_singleton]
  rfl

/-! ### Returned bindings -/

/-- A binding that a query returns is reached over the cluster's view. -/
theorem returned_reached {dataset : Dataset} (uniqueEdges : dataset.UniqueEdgeIds)
    {schema : Schema} (valid : SchemaValidator.validate query schema = .ok ())
    (shape : PlanShape query queryPlan first segments start antiJoins)
    {hasher : Partitioning} {partitions : PartitionMap}
    {serve : GenerationHandle → IndexGeneration}
    (served : dataset.ServedBy hasher partitions serve) {out : List Binding}
    (returns : ((inProcess hasher).execute partitions queryPlan).Returns
      serve (.ok out)) {b : Binding} (member : b ∈ out) :
    Reached (clusterView hasher (servingOf partitions serve))
      (Keep (clusterView hasher (servingOf partitions serve))) start
      (hopsOf query first.aliasName segments ++ antiJoins) b := by
  have checked := SchemaValidator.validate_eq_ok_iff.mp valid
  rw [shape.planEq] at returns
  have meets := execute_meets hasher partitions serve (wellScoped_of_plan checked shape)
    (served.edgesAgree uniqueEdges) query.returns
  exact ((meets.ok returns).1 b).mp member

end Provenance

end GraphEngine
