/-
Module: GraphEngine.Proofs.SubqueryMatches
Layer: Proofs
Purpose: What the anti-joins of a plan keep, read off the subqueries they are
  compiled from: the bindings between whose ends no edge satisfies the body.
Trusted boundary: none
Main exports: reached_antiJoins_iff, environment_iff, ExistsSubquery.OneSided,
  keep_iff_not_subqueryMatches
-/
import GraphEngine.Proofs.Answers
import GraphEngine.Proofs.ExistsCompilation
import GraphEngine.Proofs.PatternAliases
import GraphEngine.Spec.Matches

namespace GraphEngine

open NaivePlanner (planAntiJoins compileAntiJoin)

/-! ### Subqueries -/

section Subqueries

variable [Chrono]

omit [Chrono] in
/-- Every `NOT EXISTS` of a query that can be planned has its anti-join. -/
theorem planAntiJoins_complete {conditions : List WhereCondition} {steps : List PlanStep}
    (joined : planAntiJoins conditions = .ok steps) {subquery : ExistsSubquery}
    (member : .notExists subquery ∈ conditions) :
    ∃ antiJoin, compileAntiJoin subquery = .ok antiJoin ∧ .antiJoin antiJoin ∈ steps := by
  fun_induction planAntiJoins conditions generalizing steps with
  | case1 => cases member
  | case2 first rest inductionHypothesis =>
      cases compiled : compileAntiJoin first with
      | error message =>
          rw [compiled] at joined
          cases joined
      | ok antiJoin =>
          cases later : planAntiJoins rest with
          | error message =>
              rw [compiled, later] at joined
              cases joined
          | ok laterSteps =>
              rw [compiled, later] at joined
              cases joined
              rcases List.mem_cons.mp member with same | inRest
              · cases same
                exact ⟨antiJoin, compiled, List.mem_cons_self⟩
              · obtain ⟨other, compiled', listed⟩ := inductionHypothesis later inRest
                exact ⟨other, compiled', List.mem_cons_of_mem _ listed⟩
  | case3 condition rest notSubquery inductionHypothesis =>
      rcases List.mem_cons.mp member with same | inRest
      · exact absurd same.symm (notSubquery subquery)
      · exact inductionHypothesis joined inRest

variable {dataset : Dataset} {b : Binding}

omit [Chrono] in
/-- The environment has the properties of what is bound. -/
theorem environment_iff (uniqueNodes : dataset.UniqueNodeIds)
    (uniqueEdges : dataset.UniqueEdgeIds) {x : String} {properties : Properties} :
    dataset.environment b x = some properties ↔
      BoundProperties dataset.view b x properties := by
  rw [Dataset.environment, Dataset.edgeAt, Dataset.nodeAt]
  by_cases isEdge : x ∈ b.edges
  · obtain ⟨e, bound⟩ := (b.mem_edges_iff x).mp isEdge
    rw [if_pos isEdge, bound, Option.bind_some, Option.map_none, Option.or_none,
      Option.map_eq_some_iff]
    constructor
    · rintro ⟨record, found, rfl⟩
      exact .edge bound ((findEdge_iff uniqueEdges).mp found)
    · intro boundProperties
      cases boundProperties with
      | edge bound' recorded =>
          rw [bound] at bound'
          cases bound'
          exact ⟨_, (findEdge_iff uniqueEdges).mpr recorded, rfl⟩
      | node notEdge =>
          rw [bound] at notEdge
          cases notEdge
  · have notEdge : b.edges[x]? = none := Std.ExtTreeMap.getElem?_eq_none isEdge
    rw [if_neg isEdge, notEdge, Option.bind_none, Option.map_none, Option.none_or,
      Option.map_eq_some_iff]
    constructor
    · rintro ⟨record, found, rfl⟩
      obtain ⟨v, bound, recorded⟩ := Option.bind_eq_some_iff.mp found
      exact .node notEdge bound ((findNode_iff uniqueNodes).mp recorded)
    · intro boundProperties
      cases boundProperties with
      | edge bound =>
          rw [notEdge] at bound
          cases bound
      | node _ bound recorded =>
          exact ⟨_, Option.bind_eq_some_iff.mpr
            ⟨_, bound, (findNode_iff uniqueNodes).mpr recorded⟩, rfl⟩

/-- A condition resolved to a filter asks the same of an edge. -/
theorem evaluateFilter_of_resolvesTo (uniqueNodes : dataset.UniqueNodeIds)
    (uniqueEdges : dataset.UniqueEdgeIds) {condition : OuterCondition}
    {filter : PropertyFilter}
    (resolves : ResolvesTo dataset.view b condition filter) (edge : Properties) :
    (∃ v w, edge[condition.property]? = some v ∧
        (dataset.environment b).value condition.outer = some w ∧
          valuesMatch v condition.op w = true) ↔
      evaluateFilter edge filter = true := by
  obtain ⟨properties, w, literal, bound, stored, turned, rfl⟩ := resolves
  have value : (dataset.environment b).value condition.outer = some w := by
    rw [Environment.value, (environment_iff uniqueNodes uniqueEdges).mpr bound]
    exact stored
  rw [evaluateFilter]
  cases edge[condition.property]? with
  | none => simp
  | some v => simp [value, valuesMatch_literal turned]

/-- Once its outer conditions are resolved, a compiled step asks the same as its
filters do. -/
theorem compiledHolds_iff_evaluated (uniqueNodes : dataset.UniqueNodeIds)
    (uniqueEdges : dataset.UniqueEdgeIds) {step : AntiJoinStep}
    {resolved : List PropertyFilter}
    (resolves : List.Forall₂
      (ResolvesTo dataset.view b) step.outerConditions resolved) (edge : Properties) :
    CompiledHolds step (dataset.environment b) edge ↔
      evaluateFilters edge (step.literalConditions ++ resolved) = true := by
  obtain ⟨ofFilter, ofCondition⟩ := forall₂_partner resolves
  rw [CompiledHolds, evaluateFilters, evaluateFilters, List.all_append, Bool.and_eq_true]
  apply and_congr_right
  intro _
  rw [List.all_eq_true]
  constructor
  · intro holds filter member
    obtain ⟨condition, listed, resolved⟩ := ofFilter filter member
    exact (evaluateFilter_of_resolvesTo uniqueNodes uniqueEdges resolved edge).mp
      (holds condition listed)
  · intro holds condition listed
    obtain ⟨filter, member, resolved⟩ := ofCondition condition listed
    exact (evaluateFilter_of_resolvesTo uniqueNodes uniqueEdges resolved edge).mpr
      (holds filter member)

omit [Chrono] in
/-- The types that an edge of a pattern allows. -/
theorem typeAllows_map_iff {edgeType : Option EdgeType} {t : EdgeType} :
    TypeAllows (edgeType.map EdgeType.name) t ↔ ∀ t', edgeType = some t' → t = t' := by
  constructor
  · rintro allowed t' rfl
    exact EdgeType.name_injective _ _ (allowed t'.name rfl)
  · intro only name named
    obtain ⟨t', typed, rfl⟩ := Option.map_eq_some_iff.mp named
    rw [only t' typed]

/-- Every condition of a body refers to the edge of its subquery, and to it on
one side only. -/
def ExistsSubquery.OneSided (subquery : ExistsSubquery) : Prop :=
  ∀ condition ∈ subquery.whereConditions,
    conditionKind subquery.innerAlias condition = .edgeOnOneSide

omit [Chrono] in
/-- Such a body does not compare its edge with itself. -/
theorem not_selfCompares_of_oneSided {subquery : ExistsSubquery}
    (oneSided : subquery.OneSided) {step : AntiJoinStep}
    (compiled : compileAntiJoin subquery = .ok step) {pattern : Pattern}
    {x : String} : ¬ SelfCompares pattern subquery x := by
  rintro ⟨⟨left, op, right, inBody, rfl, same⟩, own, -, -⟩
  obtain ⟨fromNode, edge, toNode, steps, -⟩ := compileAntiJoin_ok compiled
  have isInner : some left.aliasName = subquery.innerAlias := by
    rw [steps] at own
    rw [ExistsSubquery.innerAlias, steps]
    cases aliased : edge.aliasName with
    | none => simp [edgeAliasesOf, aliased] at own
    | some y => simpa [edgeAliasesOf, aliased] using own
  have kind := oneSided _ inBody
  rw [conditionKind, if_pos isInner, same, if_pos isInner] at kind
  cases kind

/-- Such a body compiles to a step that asks the same. -/
theorem compiledHolds_iff_conditions {subquery : ExistsSubquery}
    (oneSided : subquery.OneSided) {step : AntiJoinStep}
    (compiled : compileAntiJoin subquery = .ok step) (outer : Environment)
    (edge : Properties) :
    CompiledHolds step outer edge ↔ ∀ condition ∈ subquery.whereConditions, ConditionHolds
      (outer.shadow subquery.innerAlias edge)
      (outer.shadow subquery.innerAlias edge) condition := by
  rw [compiledHolds_iff_kinds subquery compiled]
  constructor
  · intro both condition member
    exact both.1 condition member (oneSided condition member)
  · intro all
    refine ⟨fun condition member _ => all condition member,
      fun condition member kind => ?_⟩
    rw [oneSided condition member] at kind
    cases kind

/-- An anti-join keeps a binding exactly if the subquery that it is compiled
from does not match. -/
theorem keep_iff_not_subqueryMatches (uniqueNodes : dataset.UniqueNodeIds)
    (uniqueEdges : dataset.UniqueEdgeIds) {schema : Schema} {scope : Scope}
    {subquery : ExistsSubquery}
    (valid : SchemaValidator.validateNotExists schema scope subquery = [])
    (oneSided : subquery.OneSided) {step : AntiJoinStep}
    (compiled : compileAntiJoin subquery = .ok step)
    (anchored : ∀ x ∈ scope.boundNodes, ∃ v record, b.nodes[x]? = some v ∧
      dataset.view.nodeRecord v record)
    (settled : ∀ condition ∈ step.outerConditions, ∃ filter,
      ResolvesTo dataset.view b condition filter) :
    Keep dataset.view step b ↔ ¬ dataset.SubqueryMatches b subquery := by
  obtain ⟨fromNode, edge, toNode, validExists⟩ := SchemaValidator.notExists_valid valid
  have holds (record : Properties) :=
    compiledHolds_iff_conditions oneSided compiled (dataset.environment b) record
  obtain ⟨fromNode', edge', toNode', steps, rfl⟩ := compileAntiJoin_ok compiled
  rw [validExists.steps] at steps
  cases steps
  have inner : subquery.innerAlias = edge.aliasName := by
    rw [ExistsSubquery.innerAlias, validExists.steps]
  rw [SchemaValidator.validateNotExists, validExists.steps] at valid
  simp only [List.append_eq_nil_iff, List.flatMap_eq_nil_iff] at valid
  have anchors := valid.1.1.1.1
  have bare (node : NodePattern) (member : node ∈ [fromNode, toNode])
      (boundNode : node.aliasName ∈ scope.boundNodes)
      (plain : node.propertyFilters = []) : dataset.NodeMatches b node := by
    obtain ⟨v, record, bound, recorded⟩ := anchored _ boundNode
    refine ⟨v, record, bound, recorded, ?_, by rw [plain]; rfl⟩
    rw [SchemaValidator.validateAnchor_unlabelled (anchors node member)]
    intro label named
    cases named
  have fromMatches := bare fromNode (by simp) validExists.fromBound validExists.fromBare
  have toMatches := bare toNode (by simp) validExists.toBound validExists.toBare
  obtain ⟨u, recordU, boundU, recordedU⟩ := anchored _ validExists.fromBound
  obtain ⟨v, recordV, boundV, recordedV⟩ := anchored _ validExists.toBound
  have scanned {w : NodeId} {record : NodeRecord}
      (recorded : dataset.view.nodeRecord w record) : dataset.Scanned w := by
    obtain ⟨node, member, id, -⟩ := recorded
    exact ⟨node, member, id⟩
  have asks {resolved : List PropertyFilter}
      (resolves : List.Forall₂ (ResolvesTo dataset.view b) _ resolved)
      (record : Properties) := (compiledHolds_iff_evaluated uniqueNodes uniqueEdges
        resolves record).symm.trans
        (holds record)
  rw [inner] at asks
  rw [keep_iff_of_asks boundU boundV trivial settled fun _ => asks, not_iff_not,
    Dataset.SubqueryMatches, validExists.steps]
  dsimp only
  constructor
  · rintro ⟨t, record, ⟨-, -, row, member, leads, rfl, rfl⟩, typed, conditions⟩
    exact ⟨fromMatches, toMatches, u, v, boundU, boundV, row, member, leads,
      typeAllows_map_iff.mp typed, conditions⟩
  · rintro ⟨-, -, u', v', from', to', row, member, leads, typed, conditions⟩
    rw [boundU] at from'
    rw [boundV] at to'
    cases from'
    cases to'
    exact ⟨row.1, _,
      ⟨scanned recordedU, scanned recordedV, row, member, leads, rfl, rfl⟩,
      typeAllows_map_iff.mpr typed, conditions⟩

end Subqueries

end GraphEngine
