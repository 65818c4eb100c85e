/-
Module: GraphEngine.Spec.Conformance
Layer: Spec
Purpose: The rows that conform to some declarations: what a declaration asks of
  a row, and that every type has values, so that every demand can be met.
Trusted boundary: none
Main exports: Schema.nodeProperties, Storable, propertiesConform_iff,
  exists_hasType, exists_filled, PropertiesConform.insert
-/
import GraphEngine.Spec.Dataset

namespace GraphEngine

namespace Schema

/-- The properties a label declares, none if it is not declared. -/
def nodeProperties (schema : Schema) (label : Label) : List PropertyDef :=
  ((schema.nodeDef label).map NodeDef.properties).getD []

/-- The properties an edge type declares, none if it is not declared. -/
def edgeProperties (schema : Schema) (edgeType : EdgeType) : List PropertyDef :=
  ((schema.edgeDef edgeType).map EdgeDef.properties).getD []

end Schema

/-! ### Declarations of a property -/

section Declarations

variable (properties : List PropertyDef) (name : String)

/-- The name is that of a declared property. -/
def Declared : Prop := ∃ prop ∈ properties, prop.name = name

instance : Decidable (Declared properties name) :=
  inferInstanceAs (Decidable (∃ prop ∈ properties, prop.name = name))

/-- A declaration of the name allows null. -/
def MayBeNull : Prop := ∃ prop ∈ properties, prop.name = name ∧ prop.optional = true

/-- A declaration of the name demands a value. -/
def MustBePresent : Prop := ∃ prop ∈ properties, prop.name = name ∧ prop.optional = false

/-- A value that a row may store under the name. -/
def Storable (value : PropertyValue) : Prop := ∃ prop ∈ properties, prop.name = name ∧
  (HasType value prop.ty ∨ prop.optional = true ∧ value = .null)

end Declarations

/-- Properties conform exactly where those that have to be present are and every
value may be stored. -/
theorem propertiesConform_iff {declared : List PropertyDef}
    {properties : Properties} :
    PropertiesConform declared properties ↔
      (∀ name, MustBePresent declared name → name ∈ properties) ∧
      ∀ name value, properties[name]? = some value → Storable declared name value := by
  constructor
  · intro conform
    refine ⟨?_, conform.typed⟩
    rintro _ ⟨prop, member, rfl, required⟩
    exact conform.present prop member required
  · rintro ⟨present, typed⟩
    exact ⟨fun prop member required => present _ ⟨prop, member, rfl, required⟩, typed⟩

/-- Only values of declared properties may be stored. -/
theorem declared_of_storable {properties : List PropertyDef} {name : String}
    {value : PropertyValue} (storable : Storable properties name value) :
    Declared properties name := by
  obtain ⟨prop, member, named, -⟩ := storable
  exact ⟨prop, member, named⟩

/-- A null may be stored exactly where the property may be null. -/
theorem storable_null {properties : List PropertyDef} {name : String} :
    Storable properties name .null ↔ MayBeNull properties name := by
  refine exists_congr fun prop => and_congr_right fun _ => and_congr_right fun _ => ?_
  constructor
  · rintro (typed | ⟨optional, -⟩)
    · cases typed
    · exact optional
  · exact fun optional => .inr ⟨optional, rfl⟩

/-! ### Rows -/

/-- Every type has values. -/
theorem exists_hasType (ty : ScalarType) : ∃ value, HasType value ty := by
  cases ty with
  | int64 => exact ⟨_, .int64 0⟩
  | float64 => exact ⟨_, .float64 ⟨0⟩⟩
  | bool => exact ⟨_, .bool false⟩
  | string => exact ⟨_, .string ""⟩
  | timestamp => exact ⟨_, .timestamp 0⟩
  | bytes => exact ⟨_, .bytes []⟩
  | list element => exact ⟨_, .list (List.forall_mem_nil _)⟩
  | vector dim => exact ⟨_, .vector dim (List.forall_mem_nil _)⟩

/-- There is a row that stores nothing but what is demanded. -/
theorem exists_filled (properties : List PropertyDef) :
    ∃ row, PropertiesConform properties row ∧ ∀ name, name ∈ row →
      MustBePresent properties name := by
  choose value typed using exists_hasType
  let demanded := properties.filter fun prop => prop.optional = false
  let row : Properties := collectMap (demanded.map fun prop => (prop.name, value prop.ty))
  have stored : ∀ name, name ∈ row ↔ MustBePresent properties name := by
    intro name
    rw [Std.ExtTreeMap.mem_iff_isSome_getElem?, getElem?_collectMap_isSome]
    simp only [MustBePresent, List.map_map, List.mem_map, Function.comp_apply,
      demanded, List.mem_filter, decide_eq_true_eq, and_assoc]
    exact exists_congr fun prop => and_congr_right fun _ => and_comm
  refine ⟨row,
    propertiesConform_iff.mpr ⟨fun name => (stored name).mpr, fun name v found => ?_⟩,
    fun name => (stored name).mp⟩
  obtain ⟨prop, listed, same⟩ := List.mem_map.mp (mem_of_getElem?_collectMap found)
  cases same
  exact ⟨prop, (List.mem_filter.mp listed).1, rfl, .inl (typed prop.ty)⟩

/-- A row may store, under a name, whatever a declaration of the name allows. -/
theorem PropertiesConform.insert {properties : List PropertyDef} {row : Properties}
    {name : String} {value : PropertyValue}
    (conform : PropertiesConform properties row)
    (storable : Storable properties name value) :
    PropertiesConform properties (row.insert name value) := by
  rw [propertiesConform_iff] at conform ⊢
  constructor
  · intro other demanded
    exact Std.ExtTreeMap.mem_insert.mpr (.inr (conform.1 other demanded))
  · intro other stored found
    rw [Std.ExtTreeMap.getElem?_insert] at found
    split at found
    case isTrue same =>
        cases found
        rw [Std.compare_eq_iff_eq] at same
        exact same ▸ storable
    case isFalse => exact conform.2 other stored found

end GraphEngine
