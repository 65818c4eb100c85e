/-
Module: GraphEngine.Proofs.CompatibleQueries
Layer: Proofs
Purpose: Clients of the old schema version: a query that validates under it
  validates under every version that the change to is classified as compatible.
Trusted boundary: none
Main exports: violations_of_compatible
-/
import GraphEngine.Model.Evolution
import GraphEngine.Proofs.LiteralTypes

namespace GraphEngine

namespace SchemaValidator

open SpecSchemaEvolution

/-! ### Properties -/

/-- A property keeps its type, so it stands every check that it stood. -/
theorem validateDeclaredProperty_of_compatible {diffed owner : String}
    {fromProperties toProperties : List PropertyDef}
    (kept : diffProperties diffed fromProperties toProperties = [])
    {property : String} {op : ComparisonOp}
    (checked : validateDeclaredProperty owner fromProperties property op = []) :
    validateDeclaredProperty owner toProperties property op = [] := by
  rw [validateDeclaredProperty] at checked ⊢
  cases found : fromProperties.find? fun p => p.name = property with
  | none =>
      rw [found] at checked
      cases checked
  | some fromProp =>
      rw [found] at checked
      have named : fromProp.name = property := of_decide_eq_true (List.find?_some found :)
      obtain ⟨toProp, found', sameType⟩ :=
        diffProperties_eq_nil_iff.mp kept fromProp (List.mem_of_find?_eq_some found)
      rw [named] at found'
      rw [found']
      dsimp only
      rw [sameType]
      exact checked

variable {fromSchema toSchema : Schema}
variable (compatible : diff fromSchema toSchema = .compatible)

include compatible

/-- A label of the old schema is one of the new. -/
theorem nodeDef_isSome_of_compatible {label : Label}
    (known : (fromSchema.nodeDef label).isSome) :
    (toSchema.nodeDef label).isSome := by
  obtain ⟨fromNode, declared⟩ := Option.isSome_iff_exists.mp known
  obtain ⟨toNode, kept, -⟩ := node_of_compatible compatible declared
  exact Option.isSome_of_eq_some kept

/-- An edge type of the old schema is one of the new. -/
theorem edgeDef_isSome_of_compatible {edgeType : EdgeType}
    (known : (fromSchema.edgeDef edgeType).isSome) :
    (toSchema.edgeDef edgeType).isSome := by
  obtain ⟨fromEdge, declared⟩ := Option.isSome_iff_exists.mp known
  obtain ⟨toEdge, kept, -⟩ := edge_of_compatible compatible declared
  exact Option.isSome_of_eq_some kept

/-- A filter of a node that the old schema accepts is accepted by the new. -/
theorem validateNodePropertyFilter_of_compatible {label : Label}
    (known : (fromSchema.nodeDef label).isSome) {property : String}
    {op : ComparisonOp}
    (checked : validateNodePropertyFilter label property op fromSchema = []) :
    validateNodePropertyFilter label property op toSchema = [] := by
  obtain ⟨fromNode, declared⟩ := Option.isSome_iff_exists.mp known
  obtain ⟨toNode, kept, owner, properties⟩ := node_of_compatible compatible declared
  rw [validateNodePropertyFilter, declared] at checked
  rw [validateNodePropertyFilter, kept]
  exact validateDeclaredProperty_of_compatible properties checked

/-- A property of an edge that the old schema accepts is accepted by the new. -/
theorem validateEdgeProperty_of_compatible {edgeType : EdgeType}
    (known : (fromSchema.edgeDef edgeType).isSome) {property : String}
    {op : ComparisonOp}
    (checked : validateEdgeProperty edgeType property op fromSchema = []) :
    validateEdgeProperty edgeType property op toSchema = [] := by
  obtain ⟨fromEdge, declared⟩ := Option.isSome_iff_exists.mp known
  obtain ⟨toEdge, kept, owner, properties⟩ := edge_of_compatible compatible declared
  rw [validateEdgeProperty, declared] at checked
  rw [validateEdgeProperty, kept]
  exact validateDeclaredProperty_of_compatible properties checked

/-- The labels of a scope are labels of the old version; a label that is new
could not stand for one of them. -/
theorem validatePropertyRef_of_compatible {scope : Scope}
    (known : ScopeKnown fromSchema scope) {aliasName property : String}
    {op : ComparisonOp}
    (checked : validatePropertyRef scope fromSchema aliasName property op = []) :
    validatePropertyRef scope toSchema aliasName property op = [] := by
  rw [validatePropertyRef] at checked ⊢
  cases labelled : scope.nodeLabels[aliasName]? with
  | some label =>
      rw [labelled] at checked
      exact validateNodePropertyFilter_of_compatible compatible
        (known.node labelled) checked
  | none =>
      rw [labelled] at checked
      cases typed : scope.edgeTypes[aliasName]? with
      | some edgeType =>
          rw [typed] at checked
          exact validateEdgeProperty_of_compatible compatible (known.edge typed) checked
      | none =>
          rw [typed] at checked
          cases checked

/-! ### Patterns -/

/-- A node that the old schema accepts is accepted by the new. -/
theorem validateNodePattern_of_compatible {node : NodePattern}
    (checked : validateNodePattern node fromSchema = []) :
    validateNodePattern node toSchema = [] := by
  rw [validateNodePattern] at checked ⊢
  cases labelled : node.label with
  | none => rfl
  | some label =>
      rw [labelled] at checked
      dsimp only at checked
      cases declared : fromSchema.nodeDef label with
      | none =>
          rw [declared] at checked
          cases checked
      | some fromNode =>
          rw [declared, List.flatMap_eq_nil_iff] at checked
          have known : (fromSchema.nodeDef label).isSome :=
            Option.isSome_of_eq_some declared
          obtain ⟨toNode, kept⟩ := Option.isSome_iff_exists.mp
            (nodeDef_isSome_of_compatible compatible known)
          dsimp only
          rw [kept, List.flatMap_eq_nil_iff]
          intro filter member
          exact validateNodePropertyFilter_of_compatible compatible known
            (checked filter member)

/-- An edge that the old schema accepts is accepted by the new. -/
theorem validateEdgePattern_of_compatible {edge : EdgePattern}
    (checked : validateEdgePattern edge fromSchema = []) :
    validateEdgePattern edge toSchema = [] := by
  have known (edgeType : EdgeType) (typed : edge.edgeType = some edgeType) :=
    edgeDef_isSome_of_compatible compatible (edgeDef_of_validateEdgePattern checked typed)
  rw [validateEdgePattern, List.append_eq_nil_iff] at checked ⊢
  refine ⟨?_, checked.2⟩
  cases typed : edge.edgeType with
  | none => rfl
  | some edgeType =>
      have declared := known edgeType typed
      rw [Option.isSome_iff_ne_none] at declared
      dsimp only
      rw [if_neg]
      intro missing
      exact declared (Option.isNone_iff_eq_none.mp missing)

/-- A step that the old schema accepts is accepted by the new. -/
theorem validateStep_of_compatible {step : PatternStep}
    (checked : validateStep fromSchema step = []) :
    validateStep toSchema step = [] := by
  cases step with
  | node node => exact validateNodePattern_of_compatible compatible checked
  | edge edge => exact validateEdgePattern_of_compatible compatible checked

/-! ### Conditions -/

/-- A condition that the old schema accepts is accepted by the new, if
subqueries are. -/
theorem validateWhereConditionWith_of_compatible {scope : Scope}
    (known : ScopeKnown fromSchema scope)
    {onNotExists onNotExists' : ExistsSubquery → List ValidationError}
    (nested : ∀ subquery, onNotExists subquery = [] → onNotExists' subquery = [])
    {condition : WhereCondition}
    (checked : validateWhereConditionWith onNotExists fromSchema scope
      condition = []) :
    validateWhereConditionWith onNotExists' toSchema scope condition = [] := by
  cases condition with
  | property aliasName filter =>
      exact validatePropertyRef_of_compatible compatible known checked
  | aliasComparison left op right => exact checked
  | propertyComparison left op right =>
      rw [validateWhereConditionWith, List.append_eq_nil_iff] at checked ⊢
      exact ⟨validatePropertyRef_of_compatible compatible known checked.1,
        validatePropertyRef_of_compatible compatible known checked.2⟩
  | notExists subquery => exact nested subquery checked

/-- The edge of a `NOT EXISTS` is checked before the conditions that may name
it. -/
theorem validateNotExists_of_compatible {outer : Scope}
    (known : ScopeKnown fromSchema outer) {subquery : ExistsSubquery}
    (checked : validateNotExists fromSchema outer subquery = []) :
    validateNotExists toSchema outer subquery = [] := by
  rw [validateNotExists] at checked ⊢
  split at checked
  case h_2 => cases checked
  case h_1 fromNode edge toNode steps =>
      rw [List.append_eq_nil_iff, List.append_eq_nil_iff, List.append_eq_nil_iff,
        List.append_eq_nil_iff, List.flatMap_eq_nil_iff,
        List.flatMap_eq_nil_iff] at checked
      obtain ⟨⟨⟨⟨anchors, hop⟩, single⟩, direction⟩, conditions⟩ := checked
      rw [List.append_eq_nil_iff, List.append_eq_nil_iff, List.append_eq_nil_iff,
        List.append_eq_nil_iff, List.flatMap_eq_nil_iff, List.flatMap_eq_nil_iff]
      refine ⟨⟨⟨⟨anchors, validateEdgePattern_of_compatible compatible hop⟩, single⟩,
          direction⟩, ?_⟩
      intro condition member
      apply validateWhereConditionWith_of_compatible compatible (known.bindEdge hop) _
        (conditions condition member)
      intro inner rejected
      cases rejected

/-! ### Queries -/

/-- A compatible change rejects no query that was accepted. -/
theorem violations_of_compatible {query : Query}
    (valid : violations query fromSchema = []) : violations query toSchema = [] := by
  have known := scopeKnown_of_valid valid
  have steps (step : PatternStep) (member : step ∈ query.pattern.steps) :=
    validateStep_of_compatible compatible (step_valid valid member)
  have conditions (condition : WhereCondition)
      (member : condition ∈ query.whereConditions) :
      validateWhereCondition toSchema (scopeOf query.pattern) condition = [] := by
    apply validateWhereConditionWith_of_compatible compatible known _
      (whereCondition_valid valid member)
    intro subquery checked
    exact validateNotExists_of_compatible compatible known checked
  rw [violations, List.append_eq_nil_iff, List.append_eq_nil_iff, List.append_eq_nil_iff,
    List.flatMap_eq_nil_iff] at valid ⊢
  obtain ⟨⟨-, items⟩, order⟩ := valid
  rw [List.flatMap_eq_nil_iff] at items
  refine ⟨⟨⟨steps, List.flatMap_eq_nil_iff.mpr conditions⟩,
      List.flatMap_eq_nil_iff.mpr ?_⟩, ?_⟩
  · intro item member
    have checked := items item member
    rw [validateReturnItem] at checked ⊢
    cases asked : item.property with
    | none =>
        rw [asked] at checked
        exact checked
    | some property =>
        rw [asked] at checked
        exact validatePropertyRef_of_compatible compatible known checked
  · cases asked : query.orderBy with
    | none => rfl
    | some orderBy =>
        rw [asked] at order
        exact validatePropertyRef_of_compatible compatible known order

end SchemaValidator

end GraphEngine
