/-
Module: GraphEngine.Model.Evolution
Layer: Model
Purpose: The classification of a change from one schema version to another.
Trusted boundary: none
Main exports: EvolutionKind, SpecSchemaEvolution.diff
-/
import GraphEngine.Model.Schema

namespace GraphEngine

/-- Whether a new schema can serve the old one's data and queries, and what
stands in the way. -/
inductive EvolutionKind where
  | compatible
  | incompatible (reasons : List String)
deriving DecidableEq, Repr

/-- `{ty:?}`. -/
def ScalarType.debug : ScalarType → String
  | .int64 => "Int64"
  | .float64 => "Float64"
  | .bool => "Bool"
  | .string => "String"
  | .timestamp => "Timestamp"
  | .bytes => "Bytes"
  | .list element => "List(" ++ element.debug ++ ")"
  | .vector dim => s!"Vector \x7b dim: {dim} \x7d"

namespace SpecSchemaEvolution

/-- What stands in the way for one property.  Only its type is compared. -/
def diffProperty (owner : String) (toProperties : List PropertyDef)
    (fromProp : PropertyDef) : List String :=
  match toProperties.find? (fun p => p.name = fromProp.name) with
  | some toProp =>
      if toProp.ty ≠ fromProp.ty then
        [s!"{owner}: property {fromProp.name} changed type from " ++
          s!"{fromProp.ty.debug} to {toProp.ty.debug}"]
      else []
  | none => [s!"{owner}: property {fromProp.name} was removed"]

/-- What stands in the way for the properties of one label or type. -/
def diffProperties (owner : String) (fromProperties toProperties : List PropertyDef) :
    List String :=
  fromProperties.flatMap (diffProperty owner toProperties)

/-- What stands in the way for one label of the old schema. -/
def diffNode (toSchema : Schema) (entry : Label × NodeDef) : List String :=
  match toSchema.nodes[entry.1]? with
  | some toNode =>
      diffProperties s!"node {entry.1.name}" entry.2.properties toNode.properties
  | none => [s!"node label {entry.1.name} was removed"]

/-- What stands in the way for one edge type of the old schema. -/
def diffEdge (toSchema : Schema) (entry : EdgeType × EdgeDef) : List String :=
  match toSchema.edges[entry.1]? with
  | some toEdge =>
      diffProperties s!"edge {entry.1.name}" entry.2.properties toEdge.properties
  | none => [s!"edge type {entry.1.name} was removed"]

/-- `SpecSchemaEvolution::diff`. -/
def diff (fromSchema toSchema : Schema) : EvolutionKind :=
  let reasons := fromSchema.nodes.toList.flatMap (diffNode toSchema) ++
    fromSchema.edges.toList.flatMap (diffEdge toSchema)
  if reasons = [] then .compatible else .incompatible reasons

/-! ### What compatibility says -/

/-- Nothing stands in the way for a property exactly where the new schema has it
with its type. -/
theorem diffProperty_eq_nil_iff {owner : String} {toProperties : List PropertyDef}
    {fromProp : PropertyDef} :
    diffProperty owner toProperties fromProp = [] ↔
      ∃ toProp, toProperties.find? (fun p => p.name = fromProp.name) = some toProp ∧
        toProp.ty = fromProp.ty := by
  rw [diffProperty]
  split
  case h_1 toProp found => simp [found]
  case h_2 absent => simp [absent]

/-- Nothing stands in the way for a list of properties exactly where nothing
does for any of them. -/
theorem diffProperties_eq_nil_iff {owner : String}
    {fromProperties toProperties : List PropertyDef} :
    diffProperties owner fromProperties toProperties = [] ↔ ∀ fromProp ∈ fromProperties,
      ∃ toProp, toProperties.find? (fun p => p.name = fromProp.name) = some toProp ∧
        toProp.ty = fromProp.ty := by
  simp only [diffProperties, List.flatMap_eq_nil_iff, diffProperty_eq_nil_iff]

/-- A compatible change keeps every label and its properties' types. -/
theorem node_of_compatible {fromSchema toSchema : Schema}
    (compatible : diff fromSchema toSchema = .compatible) {label : Label}
    {fromNode : NodeDef} (declared : fromSchema.nodeDef label = some fromNode) :
    ∃ toNode, toSchema.nodeDef label = some toNode ∧ ∃ owner,
      diffProperties owner fromNode.properties toNode.properties = [] := by
  rw [diff] at compatible
  split at compatible
  case isFalse => cases compatible
  case isTrue none =>
      rw [List.append_eq_nil_iff, List.flatMap_eq_nil_iff] at none
      have entry := none.1 (label, fromNode)
        (Std.ExtTreeMap.mem_toList_iff_getElem?_eq_some.mpr declared)
      rw [diffNode] at entry
      split at entry
      case h_1 toNode found => exact ⟨toNode, found, _, entry⟩
      case h_2 => cases entry

/-- An edge type of the old schema is one of the new, and so are its
properties. -/
theorem edge_of_compatible {fromSchema toSchema : Schema}
    (compatible : diff fromSchema toSchema = .compatible) {edgeType : EdgeType}
    {fromEdge : EdgeDef} (declared : fromSchema.edgeDef edgeType = some fromEdge) :
    ∃ toEdge, toSchema.edgeDef edgeType = some toEdge ∧ ∃ owner,
      diffProperties owner fromEdge.properties toEdge.properties = [] := by
  rw [diff] at compatible
  split at compatible
  case isFalse => cases compatible
  case isTrue none =>
      rw [List.append_eq_nil_iff, List.flatMap_eq_nil_iff,
        List.flatMap_eq_nil_iff] at none
      have entry := none.2 (edgeType, fromEdge)
        (Std.ExtTreeMap.mem_toList_iff_getElem?_eq_some.mpr declared)
      rw [diffEdge] at entry
      split at entry
      case h_1 toEdge found => exact ⟨toEdge, found, _, entry⟩
      case h_2 => cases entry

end SpecSchemaEvolution

end GraphEngine
