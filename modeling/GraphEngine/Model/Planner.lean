/-
Module: GraphEngine.Model.Planner
Layer: Model
Purpose: Lowering of a validated query into a plan, in pattern order.  The
  source panics on the shapes it does not support; here a panic is an error that
  carries its message.
Trusted boundary: none
Main exports: NaivePlanner.plan, NaivePlanner.compileAntiJoin,
  literalToPropertyKey
-/
import GraphEngine.Model.Numerals
import GraphEngine.Model.Plan

namespace GraphEngine

/-- `{op:?}`. -/
def ComparisonOp.debug : ComparisonOp → String
  | .eq => "Eq"
  | .ne => "Ne"
  | .lt => "Lt"
  | .lte => "Lte"
  | .gt => "Gt"
  | .gte => "Gte"

/-- The comparison with its sides exchanged. -/
def flipOp : ComparisonOp → ComparisonOp
  | .eq => .eq
  | .ne => .ne
  | .lt => .gt
  | .lte => .gte
  | .gt => .lt
  | .gte => .lte

/-- The key of an index lookup; a number with a fraction has none. -/
def literalToPropertyKey : Literal → Except PanicMessage PropertyKey
  | .int64 v => .ok (.int64 v)
  | .bool v => .ok (.bool v)
  | .string v => .ok (.string v)
  | .float64 _ =>
      .error
        ("PropertyIndex has no PropertyKey variant for Float64 (see its doc comment) - " ++
          "a float-valued equality filter can't be planned in v1")

namespace NaivePlanner

/-- The literal `WHERE` conditions on one alias, in query order. -/
def whereFilters (query : Query) (aliasName : String) : List PropertyFilter :=
  query.whereConditions.filterMap fun condition =>
    match condition with
    | .property other filter => if other = aliasName then some filter else none
    | _ => none

/-- The one filter that the start step can carry: the first inline filter, or
else the only `WHERE` condition on the start alias. -/
def startFilter (node : NodePattern) (filters : List PropertyFilter) :
    Except PanicMessage (Option PropertyFilter) :=
  match node.propertyFilters.head? with
  | some filter => .ok (some filter)
  | none =>
      match filters with
      | [] => .ok none
      | [single] => .ok (some single)
      | multiple =>
          .error
            (s!"v1's ResolveStart supports at most one WHERE condition on the pattern's " ++
              s!"start node ({multiple.length} target {node.aliasName}.*) — split into " ++
              s!"a chained MATCH instead")

/-- The first step: a lookup by the one filter of the start node, which has to
be an equality, or a scan of its label if it has none. -/
def resolveStartOrAllStep (node : NodePattern) (filters : List PropertyFilter) :
    Except PanicMessage PlanStep := do
  let label ←
    match node.label with
    | some label => .ok label
    | none => .error "v1's naive planner requires a labeled start node"
  match ← startFilter node filters with
  | some filter =>
      if filter.op = .eq then do
        let key ← literalToPropertyKey filter.value
        .ok (.resolveStart
          { aliasName := node.aliasName
            labelOrType := label.name
            property := filter.property
            key := key })
      else
        .error
          (s!"v1's ResolveStart only supports an equality filter on the pattern's " ++
            s!"start node ({filter.op.debug} on {node.aliasName}.{filter.property} " ++
            s!"isn't an index lookup key)")
  | none => .ok (.resolveAll { aliasName := node.aliasName, label := label.name })

/-- The expansion that one edge and its target lower to.  Conditions on an
unlabelled target have no index to be routed through and are dropped. -/
def hopStep (query : Query) (fromAlias : String) (edge : EdgePattern)
    (toNode : NodePattern) : ExpandHop :=
  { fromAlias := fromAlias
    toAlias := toNode.aliasName
    toLabel := toNode.label.map Label.name
    edgeType := edge.edgeType.map EdgeType.name
    direction := edge.direction
    hops := edge.hops
    filters := if toNode.label.isSome then whereFilters query toNode.aliasName else []
    edgeAlias := edge.aliasName }

/-- The pattern after its first node; `i` is the position reached. -/
def planHops (query : Query) (fromAlias : String) (i : Nat) :
    List PatternStep → Except PanicMessage (List PlanStep)
  | [] => .ok []
  | .edge edge :: .node toNode :: rest => do
      let later ← planHops query toNode.aliasName (i + 2) rest
      .ok (.expandHop (hopStep query fromAlias edge toNode) :: later)
  | [.edge _] => .error s!"edge step at position {i} has no node after it"
  | .edge _ :: .edge _ :: _ => .error s!"expected a node step at pattern position {i + 1}"
  | .node _ :: _ => .error s!"expected an edge step at pattern position {i}"

/-- The literal conditions of a `NOT EXISTS` body: those on the subquery's own
edge. -/
def literalConditions (innerAlias : Option String) (conditions : List WhereCondition) :
    List PropertyFilter :=
  conditions.filterMap fun condition =>
    match condition with
    | .property aliasName filter =>
        if some aliasName = innerAlias then some filter else none
    | _ => none

/-- The outer conditions of a `NOT EXISTS` body, normalised to `inner OP
outer`. -/
def outerConditions (innerAlias : Option String) (conditions : List WhereCondition) :
    List OuterCondition :=
  conditions.filterMap fun condition =>
    match condition with
    | .propertyComparison left op right =>
        if some left.aliasName = innerAlias then
          some { property := left.property, op := op, outer := right }
        else if some right.aliasName = innerAlias then
          some { property := right.property, op := flipOp op, outer := left }
        else none
    | _ => none

/-- The anti-join of a subquery of two nodes and an edge between them. -/
def compileAntiJoin (subquery : ExistsSubquery) : Except PanicMessage AntiJoinStep :=
  match subquery.pattern.steps with
  | [.node fromNode, .edge edge, .node toNode] =>
      .ok
        { fromAlias := fromNode.aliasName
          toAlias := toNode.aliasName
          direction := edge.direction
          edgeAlias := edge.aliasName
          edgeType := edge.edgeType.map EdgeType.name
          literalConditions := literalConditions edge.aliasName subquery.whereConditions
          outerConditions := outerConditions edge.aliasName subquery.whereConditions }
  | _ =>
      .error "the validator guarantees a NOT EXISTS pattern is exactly [node, edge, node]"

/-- The anti-joins of a query, in query order. -/
def planAntiJoins : List WhereCondition → Except PanicMessage (List PlanStep)
  | [] => .ok []
  | .notExists subquery :: rest => do
      let step ← compileAntiJoin subquery
      let later ← planAntiJoins rest
      .ok (.antiJoin step :: later)
  | _ :: rest => planAntiJoins rest

/-- `NaivePlanner::plan`. -/
def plan (query : Query) : Except PanicMessage QueryPlan :=
  match query.pattern.steps with
  | [] => .error "a validated pattern always has at least one node"
  | .edge _ :: _ => .error "a pattern's first step is always a node"
  | .node first :: rest => do
      let start ← resolveStartOrAllStep first (whereFilters query first.aliasName)
      let hops ← planHops query first.aliasName 1 rest
      let antiJoins ← planAntiJoins query.whereConditions
      .ok { steps := start :: (hops ++ antiJoins), project := query.returns }

end NaivePlanner

end GraphEngine
