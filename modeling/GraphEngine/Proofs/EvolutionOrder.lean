/-
Module: GraphEngine.Proofs.EvolutionOrder
Layer: Proofs
Purpose: Compatible changes as a relation on schemas.  Chains of compatible
  changes are compatible; a schema is compatible with itself exactly when no
  type declares one property with two types, which the parser lets pass.
Trusted boundary: none
Main exports: Keeps, compatible_iff, diff_trans, diff_self_iff, chainsFrom_iff
-/
import GraphEngine.Proofs.Evolution

namespace GraphEngine

open SpecSchemaEvolution

/-! ### Properties of one type -/

/-- Each property is still declared, and the declaration found under its name
has its type. -/
def Keeps (fromProperties toProperties : List PropertyDef) : Prop :=
  ∀ fromProp ∈ fromProperties, ∃ toProp,
    toProperties.find? (fun p => p.name = fromProp.name) = some toProp ∧
      toProp.ty = fromProp.ty

/-- Declarations of one name agree on its type. -/
def RepeatsAgree (properties : List PropertyDef) : Prop :=
  ∀ prop ∈ properties, ∀ prop' ∈ properties, prop.name = prop'.name → prop.ty = prop'.ty

/-- What keeps the properties of a schema that keeps them keeps them. -/
theorem Keeps.trans {first second third : List PropertyDef} (kept : Keeps first second)
    (kept' : Keeps second third) : Keeps first third := by
  intro prop member
  obtain ⟨middle, found, sameType⟩ := kept prop member
  obtain ⟨last, found', sameType'⟩ := kept' middle (List.mem_of_find?_eq_some found)
  have sameName : middle.name = prop.name := by simpa using List.find?_some found
  rw [sameName] at found'
  exact ⟨last, found', sameType'.trans sameType⟩

/-- A list of properties keeps itself exactly where repeated names agree. -/
theorem keeps_self_iff {properties : List PropertyDef} :
    Keeps properties properties ↔ RepeatsAgree properties := by
  constructor
  · intro kept prop member prop' member' sameName
    obtain ⟨found, first, sameType⟩ := kept prop member
    obtain ⟨found', first', sameType'⟩ := kept prop' member'
    rw [sameName, first'] at first
    rw [← sameType, ← sameType', Option.some.inj first]
  · intro agree prop member
    cases first : properties.find? (fun p => p.name = prop.name) with
    | none => exact absurd (decide_eq_true rfl) (List.find?_eq_none.mp first prop member)
    | some found =>
        have sameName : found.name = prop.name := by simpa using List.find?_some first
        exact ⟨found, rfl,
          agree found (List.mem_of_find?_eq_some first) prop member sameName⟩

/-! ### Schemas -/

section Schemas

variable {first second third schema : Schema}

/-- A change is compatible when every label and every edge type stays and keeps
its properties. -/
theorem compatible_iff : diff first second = .compatible ↔
    (∀ label fromNode, first.nodeDef label = some fromNode →
      ∃ toNode, second.nodeDef label = some toNode ∧
        Keeps fromNode.properties toNode.properties) ∧
    ∀ edgeType fromEdge, first.edgeDef edgeType = some fromEdge →
      ∃ toEdge, second.edgeDef edgeType = some toEdge ∧
        Keeps fromEdge.properties toEdge.properties := by
  constructor
  · intro compatible
    constructor
    · intro label fromNode declared
      obtain ⟨toNode, found, owner, none⟩ := node_of_compatible compatible declared
      exact ⟨toNode, found, diffProperties_eq_nil_iff.mp none⟩
    · intro edgeType fromEdge declared
      obtain ⟨toEdge, found, owner, none⟩ := edge_of_compatible compatible declared
      exact ⟨toEdge, found, diffProperties_eq_nil_iff.mp none⟩
  · rintro ⟨nodes, edges⟩
    rw [diff, if_pos]
    rw [List.append_eq_nil_iff, List.flatMap_eq_nil_iff, List.flatMap_eq_nil_iff]
    constructor
    · rintro ⟨label, fromNode⟩ member
      obtain ⟨toNode, found, kept⟩ :=
        nodes label fromNode (Std.ExtTreeMap.mem_toList_iff_getElem?_eq_some.mp member)
      have lookup : second.nodes[label]? = some toNode := found
      rw [diffNode, lookup]
      exact diffProperties_eq_nil_iff.mpr kept
    · rintro ⟨edgeType, fromEdge⟩ member
      obtain ⟨toEdge, found, kept⟩ :=
        edges edgeType fromEdge (Std.ExtTreeMap.mem_toList_iff_getElem?_eq_some.mp member)
      have lookup : second.edges[edgeType]? = some toEdge := found
      rw [diffEdge, lookup]
      exact diffProperties_eq_nil_iff.mpr kept

/-- Two compatible changes make one. -/
theorem diff_trans (upgrade : diff first second = .compatible)
    (upgrade' : diff second third = .compatible) :
    diff first third = .compatible := by
  rw [compatible_iff] at upgrade upgrade' ⊢
  constructor
  · intro label fromNode declared
    obtain ⟨middle, found, kept⟩ := upgrade.1 label fromNode declared
    obtain ⟨toNode, found', kept'⟩ := upgrade'.1 label middle found
    exact ⟨toNode, found', kept.trans kept'⟩
  · intro edgeType fromEdge declared
    obtain ⟨middle, found, kept⟩ := upgrade.2 edgeType fromEdge declared
    obtain ⟨toEdge, found', kept'⟩ := upgrade'.2 edgeType middle found
    exact ⟨toEdge, found', kept.trans kept'⟩

/-- No label and no edge type declares one property with two types. -/
structure Schema.RepeatsAgree (schema : Schema) : Prop where
  node : ∀ label nodeDef, schema.nodeDef label = some nodeDef →
    GraphEngine.RepeatsAgree nodeDef.properties
  edge : ∀ edgeType edgeDef, schema.edgeDef edgeType = some edgeDef →
    GraphEngine.RepeatsAgree edgeDef.properties

/-- A schema is compatible with itself exactly where repeated names agree. -/
theorem diff_self_iff : diff schema schema = .compatible ↔ schema.RepeatsAgree := by
  rw [compatible_iff]
  constructor
  · rintro ⟨nodes, edges⟩
    constructor
    · intro label nodeDef declared
      obtain ⟨same, found, kept⟩ := nodes label nodeDef declared
      cases declared.symm.trans found
      exact keeps_self_iff.mp kept
    · intro edgeType edgeDef declared
      obtain ⟨same, found, kept⟩ := edges edgeType edgeDef declared
      cases declared.symm.trans found
      exact keeps_self_iff.mp kept
  · intro agree
    constructor
    · intro label nodeDef declared
      exact ⟨nodeDef, declared, keeps_self_iff.mpr (agree.node label nodeDef declared)⟩
    · intro edgeType edgeDef declared
      exact ⟨edgeDef, declared, keeps_self_iff.mpr (agree.edge edgeType edgeDef declared)⟩

/-- An upgrade from the schema to itself is compatible, and so are chains of two
compatible upgrades from it. -/
def ChainsFrom (schema : Schema) : Prop :=
  diff schema schema = .compatible ∧
    ∀ second third, diff schema second = .compatible → diff second third = .compatible →
      diff schema third = .compatible

/-- Compatible upgrades form a preorder on the schemas that do not declare one
property with two types, and on no others.  Transitivity holds of all schemas;
it is reflexivity that fails, since a property is compared with the first of its
name. -/
theorem chainsFrom_iff : ChainsFrom schema ↔ schema.RepeatsAgree := by
  rw [ChainsFrom, diff_self_iff]
  exact and_iff_left fun second third upgrade upgrade' => diff_trans upgrade upgrade'

end Schemas

/-- The parser accepts a label that declares one property with two types, and
the schema is not compatible with itself. -/
theorem chainsFrom_fails :
    ¬ ∀ (report : String → String) (source : String) (schema : Schema),
    PestSchemaParser.parse report source = .ok (.ok schema) → ChainsFrom schema := by
  have passed : schemaParsesTo (fun schema => decide (diff schema schema ≠ .compatible))
      "schema graph_v1 \x7b node Person \x7b id: NodeId age: Int64 age: String \x7d \x7d" =
        true := by
    decide +kernel
  obtain ⟨schema, parsed, different⟩ := exists_of_schemaParsesTo passed
  intro chains
  exact of_decide_eq_true different (chains _ _ schema parsed).1

end GraphEngine
