/-
Module: GraphEngine.Spec.Matches
Layer: Spec
Purpose: What a query means, said without a plan: a binding matches if every
  node pattern describes what its alias is bound to, every edge pattern joins
  what its ends are bound to, and every condition of the `WHERE` clause holds.
Trusted boundary: none
Main exports: Dataset.environment, Dataset.NodeMatches, Dataset.Joined,
  Dataset.Satisfies, Pattern.Matches, Query.Matches, Dataset.MatchRows
-/
import GraphEngine.Spec.Answers
import GraphEngine.Spec.Conditions
import GraphEngine.Spec.Walks

namespace GraphEngine

open GraphServiceImpl

/-- Two aliases are bound to nodes whose ids compare as asked. -/
def Binding.IdsCompare (b : Binding) (x : String) (op : ComparisonOp) (y : String) :
    Prop :=
  ∃ u v, b.nodes[x]? = some u ∧ b.nodes[y]? = some v ∧ op.accepts (compare u v) = true

namespace Dataset

variable (dataset : Dataset)

/-! ### Patterns -/

/-- The properties of what each alias is bound to. -/
def environment (b : Binding) : Environment := fun x =>
  ((dataset.edgeAt b x).map EdgeRecord.properties).or
    ((dataset.nodeAt b x).map NodeRecord.properties)

/-- Between two nodes there is what an edge pattern describes: a walk of an
accepted length, or the very edge that the alias of the pattern is bound to. -/
def Joined (b : Binding) (edge : EdgePattern) (u v : NodeId) : Prop :=
  match edge.aliasName with
  | none => ∃ length, edge.hops.min ≤ length ∧ length ≤ edge.hops.max ∧
      EdgeWalk dataset.view edge.direction (edge.edgeType.map EdgeType.name) length u v
  | some x => ∃ t e, b.edges[x]? = some e ∧ dataset.view.adjacent edge.direction u t e v ∧
      TypeAllows (edge.edgeType.map EdgeType.name) t

/-- Two aliases are joined as an edge pattern between them describes. -/
def EdgeMatches (b : Binding) (x : String) (edge : EdgePattern) (y : String) : Prop :=
  ∃ u v, b.nodes[x]? = some u ∧ b.nodes[y]? = some v ∧ dataset.Joined b edge u v

variable [Chrono]

/-- The node that an alias is bound to has the label and the property values of
its pattern. -/
def NodeMatches (b : Binding) (node : NodePattern) : Prop :=
  ∃ v record, b.nodes[node.aliasName]? = some v ∧ dataset.view.nodeRecord v record ∧
    (∀ label, node.label = some label → record.label = label) ∧
    evaluateFilters record.properties node.propertyFilters = true

/-! ### Conditions -/

/-- Some edge between the nodes that the ends of a subquery are bound to
satisfies its conditions; inside, the alias of the edge means the edge. -/
def SubqueryMatches (b : Binding) (subquery : ExistsSubquery) : Prop :=
  match subquery.pattern.steps with
  | [.node fromNode, .edge edge, .node toNode] =>
      dataset.NodeMatches b fromNode ∧ dataset.NodeMatches b toNode ∧
      ∃ u v, b.nodes[fromNode.aliasName]? = some u ∧ b.nodes[toNode.aliasName]? = some v ∧
      ∃ row ∈ dataset.edges, Leads edge.direction row u v ∧
        (∀ t, edge.edgeType = some t → row.1 = t) ∧
        ∀ condition ∈ subquery.whereConditions, ConditionHolds
          ((dataset.environment b).shadow edge.aliasName row.2.properties)
          ((dataset.environment b).shadow edge.aliasName row.2.properties) condition
  | _ => False

/-- A condition of the `WHERE` clause holds. -/
def Satisfies (b : Binding) : WhereCondition → Prop
  | .property x filter =>
      ConditionHolds (dataset.environment b) (dataset.environment b) (.property x filter)
  | .propertyComparison l op r =>
      ConditionHolds (dataset.environment b) (dataset.environment b)
        (.propertyComparison l op r)
  | .aliasComparison x op y => b.IdsCompare x op y
  | .notExists subquery => ¬ dataset.SubqueryMatches b subquery

end Dataset

/-! ### Queries -/

/-- A binding of the aliases of a pattern, and of no others, that fits its nodes
and edges. -/
structure Pattern.Matches [Chrono] (dataset : Dataset) (pattern : Pattern)
    (b : Binding) : Prop where
  nodeAliases : ∀ x, x ∈ b.nodes ↔ ∃ node, .node node ∈ pattern.steps ∧ node.aliasName = x
  edgeAliases : ∀ x, x ∈ b.edges ↔ ∃ edge, .edge edge ∈ pattern.steps ∧
    edge.aliasName = some x
  node : ∀ node, .node node ∈ pattern.steps → dataset.NodeMatches b node
  edge : ∀ earlier x edge y later, pattern.steps = earlier ++ .node x :: .edge edge ::
    .node y :: later →
    dataset.EdgeMatches b x.aliasName edge y.aliasName

/-- A binding that fits the pattern and the conditions of a query. -/
structure Query.Matches [Chrono] (dataset : Dataset) (query : Query) (b : Binding) :
    Prop where
  pattern : query.pattern.Matches dataset b
  condition : ∀ condition ∈ query.whereConditions, dataset.Satisfies b condition

/-- The rows of the bindings that match a query, each binding once, sorted where
the values can be, and cut. -/
def Dataset.MatchRows [Chrono] (dataset : Dataset) (query : Query)
    (rows : List QueryResult) : Prop :=
  ∃ bindings : List Binding, bindings.Nodup ∧
    (∀ b, b ∈ bindings ↔ query.Matches dataset b) ∧
    (∀ orderBy ∈ query.orderBy, TotalPreorderOn (dataset.compareAt orderBy) bindings →
      bindings.Pairwise fun a b => (dataset.compareAt orderBy a b).isLE = true) ∧
    List.Forall₂ (dataset.Row query.returns) (applyLimit query.limit bindings) rows

end GraphEngine
