/-
Module: GraphEngine.Spec.SameService
Layer: Spec
Purpose: Generations that no client can tell apart.  A null and a missing value
  are one and the same to every filter and on the wire, so two generations that
  differ in nulls, and in their metadata, answer every call alike.
Trusted boundary: none
Main exports: SameValues, SameService
-/
import GraphEngine.Model.GrpcTransport

namespace GraphEngine

/-! ### Records up to nulls -/

/-- The same values are stored under the same names, nulls apart. -/
def SameValues (properties properties' : Properties) : Prop :=
  ∀ (name : String) (value : PropertyValue), value ≠ .null →
    (properties[name]? = some value ↔ properties'[name]? = some value)

namespace SameValues

variable {properties properties' : Properties}

theorem refl (properties : Properties) : SameValues properties properties :=
  fun _ _ _ => Iff.rfl

theorem symm (same : SameValues properties properties') :
    SameValues properties' properties :=
  fun name value stored => (same name value stored).symm

theorem trans {properties'' : Properties} (same : SameValues properties properties')
    (same' : SameValues properties' properties'') : SameValues properties properties'' :=
  fun name value stored => (same name value stored).trans (same' name value stored)

/-- A computation on stored values that has no result for null has the same
results. -/
theorem bind_eq (same : SameValues properties properties') {α : Type}
    {f : PropertyValue → Option α} (silent : f .null = none) (name : String) :
    (properties[name]?).bind f = (properties'[name]?).bind f := by
  have each (result : α) : (properties[name]?).bind f = some result ↔
      (properties'[name]?).bind f = some result := by
    rw [Option.bind_eq_some_iff, Option.bind_eq_some_iff]
    refine exists_congr fun value => and_congr_left fun found => same name value ?_
    intro isNull
    rw [isNull, silent] at found
    cases found
  exact Option.ext each

/-- No filter holds of a null, and none of a missing value. -/
theorem evaluateFilter_eq [Chrono] (same : SameValues properties properties')
    (filter : PropertyFilter) :
    evaluateFilter properties filter = evaluateFilter properties' filter := by
  have asBind (stored : Properties) : evaluateFilter stored filter =
      ((stored[filter.property]?).bind fun value =>
      if literalMatches value filter.op filter.value then some () else none).isSome := by
    rw [evaluateFilter]
    cases stored[filter.property]? with
    | none => rfl
    | some value =>
        cases decision : literalMatches value filter.op filter.value <;> simp [decision]
  have silent : (if literalMatches .null filter.op filter.value then some ()
      else none) = none := by
    rw [literalMatches, literalOrdering.eq_def]
    rfl
  rw [asBind, asBind, same.bind_eq silent]

/-- Properties of the same values pass the same filters. -/
theorem evaluateFilters_eq [Chrono] (same : SameValues properties properties')
    (filters : List PropertyFilter) :
    evaluateFilters properties filters = evaluateFilters properties' filters :=
  congrArg filters.all (funext same.evaluateFilter_eq)

/-- The wire has no variant for a null. -/
theorem fields_eq (same : SameValues properties properties') :
    (properties.filterMap fun _ value =>
      PartitionServiceImpl.propertyValueToProto value) =
      properties'.filterMap fun _ value =>
        PartitionServiceImpl.propertyValueToProto value := by
  apply Std.ExtTreeMap.ext_getElem?
  intro name
  rw [Std.ExtTreeMap.getElem?_filterMap', Std.ExtTreeMap.getElem?_filterMap']
  exact same.bind_eq rfl name

end SameValues

/-! ### Generations -/

/-- The same graph and the same index, and records that differ in nulls alone. -/
structure SameService (generation generation' : IndexGeneration) : Prop where
  topology : generation.topology = generation'.topology
  properties : generation.properties = generation'.properties
  nodeRecord : ∀ v : NodeId,
    Option.Rel (fun (record record' : NodeRecord) => record.label = record'.label ∧
    SameValues record.properties record'.properties) generation.nodeRecords[v]?
      generation'.nodeRecords[v]?
  edgeRecord : ∀ e : EdgeId, Option.Rel
    (fun (record record' : EdgeRecord) => record.edgeType = record'.edgeType ∧
    SameValues record.properties record'.properties) generation.edgeRecords[e]?
      generation'.edgeRecords[e]?

/-- What is computed alike of related records is computed alike of what was
found. -/
theorem map_eq_of_rel {α β : Type} {R : α → α → Prop} {f : α → β}
    {found found' : Option α} (related : Option.Rel R found found')
    (alike : ∀ a a', R a a' → f a = f a') : found.map f = found'.map f := by
  cases related with
  | none => rfl
  | some inside => exact congrArg some (alike _ _ inside)

theorem rel_symm {α : Type} {R : α → α → Prop} (symmetric : ∀ {a b}, R a b → R b a)
    {found found' : Option α} (related : Option.Rel R found found') :
    Option.Rel R found' found := by
  cases related with
  | none => exact .none
  | some inside => exact .some (symmetric inside)

theorem rel_trans {α : Type} {R : α → α → Prop}
    (transitive : ∀ {a b c}, R a b → R b c → R a c)
    {found found' found'' : Option α} (related : Option.Rel R found found')
    (related' : Option.Rel R found' found'') : Option.Rel R found found'' := by
  cases related with
  | none => exact related'
  | some inside =>
      cases related' with
      | some inside' => exact .some (transitive inside inside')

namespace SameService

variable {generation generation' : IndexGeneration}
variable (same : SameService generation generation')

include same

/-- Nodes have the same labels. -/
theorem label_eq (v : NodeId) :
    (generation.nodeRecords[v]?).map NodeRecord.label =
      (generation'.nodeRecords[v]?).map NodeRecord.label :=
  map_eq_of_rel (same.nodeRecord v) fun _ _ related => related.1

/-- A node's record is sent alike. -/
theorem sentNode_eq (v : NodeId) :
    (generation.nodeRecords[v]?).map PartitionServiceImpl.nodeRecordToProto =
    (generation'.nodeRecords[v]?).map PartitionServiceImpl.nodeRecordToProto := by
  apply map_eq_of_rel (same.nodeRecord v)
  rintro record record' ⟨label, values⟩
  rw [PartitionServiceImpl.nodeRecordToProto, PartitionServiceImpl.nodeRecordToProto,
    label, values.fields_eq]

/-- An edge's record is sent alike. -/
theorem sentEdge_eq (e : EdgeId) :
    (generation.edgeRecords[e]?).map PartitionServiceImpl.edgeRecordToProto =
    (generation'.edgeRecords[e]?).map PartitionServiceImpl.edgeRecordToProto := by
  apply map_eq_of_rel (same.edgeRecord e)
  rintro record record' ⟨edgeType, values⟩
  rw [PartitionServiceImpl.edgeRecordToProto, PartitionServiceImpl.edgeRecordToProto,
    edgeType, values.fields_eq]

/-- An edge's record passes the same filters. -/
theorem filtered_eq [Chrono] (e : EdgeId) (filters : List PropertyFilter) :
    (generation.edgeRecords[e]?).map
      (fun record => evaluateFilters record.properties filters) =
      (generation'.edgeRecords[e]?).map fun record =>
        evaluateFilters record.properties filters :=
  map_eq_of_rel (same.edgeRecord e) fun _ _ related =>
    related.2.evaluateFilters_eq filters

/-- Nodes have the same entries. -/
theorem neighbors_eq (direction : Direction) (v : NodeId) :
    generation.neighbors direction v = generation'.neighbors direction v := by
  cases direction with
  | outgoing => exact congrArg (TopologicalIndex.outNeighbors · v) same.topology
  | incoming => exact congrArg (TopologicalIndex.inNeighbors · v) same.topology

/-- Serving alike is symmetric. -/
theorem symm : SameService generation' generation where
  topology := same.topology.symm
  properties := same.properties.symm
  nodeRecord v :=
    rel_symm (fun related => ⟨related.1.symm, related.2.symm⟩) (same.nodeRecord v)
  edgeRecord e :=
    rel_symm (fun related => ⟨related.1.symm, related.2.symm⟩) (same.edgeRecord e)

/-- Serving alike is transitive. -/
theorem trans {generation'' : IndexGeneration}
    (same' : SameService generation' generation'') :
    SameService generation generation'' where
  topology := same.topology.trans same'.topology
  properties := same.properties.trans same'.properties
  nodeRecord v :=
    rel_trans (fun first second => ⟨first.1.trans second.1, first.2.trans second.2⟩)
    (same.nodeRecord v) (same'.nodeRecord v)
  edgeRecord e :=
    rel_trans (fun first second => ⟨first.1.trans second.1, first.2.trans second.2⟩)
    (same.edgeRecord e) (same'.edgeRecord e)

end SameService

/-- Only the metadata differs. -/
theorem SameService.ofMeta (generation : IndexGeneration) (genMeta : GenerationMeta) :
    SameService generation { generation with genMeta := genMeta } where
  topology := rfl
  properties := rfl
  nodeRecord v := by
    cases generation.nodeRecords[v]? with
    | none => exact .none
    | some record => exact .some ⟨rfl, .refl _⟩
  edgeRecord e := by
    cases generation.edgeRecords[e]? with
    | none => exact .none
    | some record => exact .some ⟨rfl, .refl _⟩

end GraphEngine
