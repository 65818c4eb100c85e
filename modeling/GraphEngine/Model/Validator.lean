/-
Module: GraphEngine.Model.Validator
Layer: Model
Purpose: Static validation of a query against the schema.  Every violation is
  collected, in the order in which the source reports it.
Trusted boundary: none
Main exports: ValidationError, Scope, SchemaValidator.validate
-/
import GraphEngine.Model.Dsl

namespace GraphEngine

open Std (ExtTreeMap ExtTreeSet)

/-- What is wrong with a query, for the schema it is asked of. -/
inductive ValidationError where
  | unknownLabel (label : String)
  | unknownEdgeType (edgeType : String)
  | unknownProperty (label property : String)
  | incompatibleOperator (property : String)
  | unknownAlias (aliasName : String)
  | edgeAliasOnVariableLengthHop (aliasName : String) (min max : Nat)
  | notExistsAnchorNotPreBound (aliasName : String)
  | notExistsWrongShape (steps : Nat)
  | nestedNotExists
  | notExistsMustBeOutgoing
deriving DecidableEq, Repr

/-- What is bound at the point where a condition is checked.  A node alias may
be bound without a label. -/
structure Scope where
  boundNodes : ExtTreeSet String compare
  nodeLabels : ExtTreeMap String Label compare
  edgeTypes : ExtTreeMap String EdgeType compare

namespace SchemaValidator

/-! ### Properties and operators -/

/-- Equality is valid except on composite types; ordering only on numbers and
timestamps. -/
def operatorCompatible (ty : ScalarType) (op : ComparisonOp) : Bool :=
  match op with
  | .eq | .ne =>
      match ty with
      | .list _ | .vector _ => false
      | _ => true
  | .lt | .lte | .gt | .gte =>
      match ty with
      | .int64 | .float64 | .timestamp => true
      | _ => false

/-- The check both property kinds share: the property is declared and the
operator fits its type. `owner` is the label or edge type the error names. -/
def validateDeclaredProperty (owner : String) (properties : List PropertyDef)
    (property : String) (op : ComparisonOp) : List ValidationError :=
  match properties.find? (fun p => p.name = property) with
  | some prop =>
      if operatorCompatible prop.ty op then [] else [.incompatibleOperator property]
  | none => [.unknownProperty owner property]

/-- A property of a label: it is declared, and its type has the comparison. -/
def validateNodePropertyFilter (label : Label) (property : String) (op : ComparisonOp)
    (schema : Schema) : List ValidationError :=
  match schema.nodeDef label with
  | none => []
  | some nodeDef => validateDeclaredProperty label.name nodeDef.properties property op

/-- A property of an edge type: it is declared, and its type has the
comparison. -/
def validateEdgeProperty (edgeType : EdgeType) (property : String) (op : ComparisonOp)
    (schema : Schema) : List ValidationError :=
  match schema.edgeDef edgeType with
  | none => []
  | some edgeDef => validateDeclaredProperty edgeType.name edgeDef.properties property op

/-- Resolves `alias.property` against the node labels first, then the edge
types. -/
def validatePropertyRef (scope : Scope) (schema : Schema) (aliasName property : String)
    (op : ComparisonOp) : List ValidationError :=
  match scope.nodeLabels[aliasName]? with
  | some label => validateNodePropertyFilter label property op schema
  | none =>
      match scope.edgeTypes[aliasName]? with
      | some edgeType => validateEdgeProperty edgeType property op schema
      | none => [.unknownAlias aliasName]

/-! ### Patterns -/

/-- A node of a pattern: its label and its filters. -/
def validateNodePattern (node : NodePattern) (schema : Schema) : List ValidationError :=
  match node.label with
  | none => []
  | some label =>
      match schema.nodeDef label with
      | some _ =>
          node.propertyFilters.flatMap fun filter =>
            validateNodePropertyFilter label filter.property filter.op schema
      | none => [.unknownLabel label.name]

/-- An aliased edge must be a single hop. -/
def validateEdgePattern (edge : EdgePattern) (schema : Schema) : List ValidationError :=
  (match edge.edgeType with
    | some edgeType =>
        if (schema.edgeDef edgeType).isNone then [.unknownEdgeType edgeType.name] else []
    | none => []) ++
  (match edge.aliasName with
    | some aliasName =>
        if edge.hops.min ≠ 1 ∨ edge.hops.max ≠ 1 then
          [.edgeAliasOnVariableLengthHop aliasName edge.hops.min edge.hops.max]
        else []
    | none => [])

/-! ### Scopes -/

/-- The scope with a node's alias and label. -/
def Scope.bindNode (scope : Scope) (node : NodePattern) : Scope :=
  { scope with
    boundNodes := scope.boundNodes.insert node.aliasName
    nodeLabels :=
      match node.label with
      | some label => scope.nodeLabels.insert node.aliasName label
      | none => scope.nodeLabels }

/-- The scope with an edge's alias and type. -/
def Scope.bindEdge (scope : Scope) (edge : EdgePattern) : Scope :=
  match edge.aliasName, edge.edgeType with
  | some aliasName, some edgeType =>
      { scope with edgeTypes := scope.edgeTypes.insert aliasName edgeType }
  | _, _ => scope

/-- The scope after a step of the pattern. -/
def Scope.bindStep (scope : Scope) : PatternStep → Scope
  | .node node => Scope.bindNode scope node
  | .edge edge => Scope.bindEdge scope edge

/-- The scope a pattern leaves behind. -/
def scopeOf (pattern : Pattern) : Scope :=
  pattern.steps.foldl Scope.bindStep ⟨∅, ∅, ∅⟩

/-! ### Conditions -/

/-- One condition, with the treatment of a `NOT EXISTS` left to the caller: at
the top level it is validated, inside another one it is an error. -/
def validateWhereConditionWith (onNotExists : ExistsSubquery → List ValidationError)
    (schema : Schema) (scope : Scope) : WhereCondition → List ValidationError
  | .property aliasName filter =>
      validatePropertyRef scope schema aliasName filter.property filter.op
  | .aliasComparison left _ right =>
      [left, right].flatMap fun aliasName =>
        if aliasName ∈ scope.boundNodes then [] else [.unknownAlias aliasName]
  | .propertyComparison left op right =>
      validatePropertyRef scope schema left.aliasName left.property op ++
        validatePropertyRef scope schema right.aliasName right.property .eq
  | .notExists subquery => onNotExists subquery

/-- An anchor of a `NOT EXISTS` must re-use a bound alias, without label or
filters. -/
def validateAnchor (outer : Scope) (anchor : NodePattern) : List ValidationError :=
  if anchor.aliasName ∉ outer.boundNodes ∨ anchor.label.isSome ∨
    anchor.propertyFilters ≠ [] then
    [.notExistsAnchorNotPreBound anchor.aliasName]
  else []

/-- A subquery: two nodes that the outer query binds, an outgoing edge of one
hop between them, and conditions over the outer scope and that edge. -/
def validateNotExists (schema : Schema) (outer : Scope) (subquery : ExistsSubquery) :
    List ValidationError :=
  match subquery.pattern.steps with
  | [.node fromNode, .edge edge, .node toNode] =>
      [fromNode, toNode].flatMap (validateAnchor outer) ++
        validateEdgePattern edge schema ++
        (if edge.hops.min ≠ 1 ∨ edge.hops.max ≠ 1 then
          [.edgeAliasOnVariableLengthHop (edge.aliasName.getD "<unaliased>")
            edge.hops.min edge.hops.max]
        else []) ++
        (if edge.direction ≠ .outgoing then [.notExistsMustBeOutgoing] else []) ++
        subquery.whereConditions.flatMap
          (validateWhereConditionWith (fun _ => [.nestedNotExists]) schema
            (Scope.bindEdge outer edge))
  | steps => [.notExistsWrongShape steps.length]

/-- A condition of the outer query. -/
def validateWhereCondition (schema : Schema) (scope : Scope) :
    WhereCondition → List ValidationError :=
  validateWhereConditionWith (validateNotExists schema scope) schema scope

/-- An item of the `RETURN` clause. -/
def validateReturnItem (item : ReturnItem) (schema : Schema) (scope : Scope) :
    List ValidationError :=
  match item.property with
  | none =>
      if item.aliasName ∉ scope.boundNodes ∧ item.aliasName ∉ scope.edgeTypes then
        [.unknownAlias item.aliasName]
      else []
  | some property => validatePropertyRef scope schema item.aliasName property .eq

/-- The property of the `ORDER BY` clause. -/
def validateOrderBy (orderBy : OrderBy) (schema : Schema) (scope : Scope) :
    List ValidationError :=
  validatePropertyRef scope schema orderBy.aliasName orderBy.property .eq

/-- One step of the pattern by itself. -/
def validateStep (schema : Schema) : PatternStep → List ValidationError
  | .node node => validateNodePattern node schema
  | .edge edge => validateEdgePattern edge schema

/-- All violations of a query, in source order. -/
def violations (query : Query) (schema : Schema) : List ValidationError :=
  let scope := scopeOf query.pattern
  query.pattern.steps.flatMap (validateStep schema) ++
    query.whereConditions.flatMap (validateWhereCondition schema scope) ++
    query.returns.flatMap (fun item => validateReturnItem item schema scope) ++
    (match query.orderBy with
      | some orderBy => validateOrderBy orderBy schema scope
      | none => [])

/-- `SchemaValidator::validate`. -/
def validate (query : Query) (schema : Schema) : Except (List ValidationError) Unit :=
  if violations query schema = [] then .ok () else .error (violations query schema)

/-- A query is accepted exactly where nothing is found to be wrong with it. -/
theorem validate_eq_ok_iff {query : Query} {schema : Schema} :
    validate query schema = .ok () ↔ violations query schema = [] := by
  rw [validate]
  split
  · simp_all
  · simp_all

end SchemaValidator

end GraphEngine
