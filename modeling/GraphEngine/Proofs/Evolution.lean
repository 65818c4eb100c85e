/-
Module: GraphEngine.Proofs.Evolution
Layer: Proofs
Purpose: When a change that is classified as compatible keeps every conforming
  row conforming.
Trusted boundary: none
Main exports: Tables, Tables.Conform, Kept, SafelyEvolves, compatible_safe_iff
-/
import GraphEngine.Model.Evolution
import GraphEngine.Model.SchemaParser
import GraphEngine.Spec.Conformance

namespace GraphEngine

open SpecSchemaEvolution

/-! ### Tables under a schema -/

/-- The rows of all node and edge tables. -/
structure Tables where
  nodes : List (Label × NodeRow)
  edges : List (EdgeType × EdgeRow)

namespace Tables

/-- The tables have a node with the label. -/
def HasLabel (tables : Tables) (v : NodeId) (label : Label) : Prop :=
  ∃ node ∈ tables.nodes, node.2.id = v ∧ node.1 = label

/-- Every row is declared by the schema, and every edge joins nodes of the
labels declared for its type. -/
structure Conform (schema : Schema) (tables : Tables) : Prop where
  node : ∀ node ∈ tables.nodes, ∃ nodeDef, schema.nodeDef node.1 = some nodeDef ∧
    PropertiesConform nodeDef.properties node.2.properties
  edge : ∀ edge ∈ tables.edges, ∃ edgeDef, schema.edgeDef edge.1 = some edgeDef ∧
    PropertiesConform edgeDef.properties edge.2.properties ∧
    tables.HasLabel edge.2.src edgeDef.source ∧ tables.HasLabel edge.2.dst edgeDef.target

end Tables

/-- Properties that are declared only in the new version read as null. -/
def withNulls (fromProperties toProperties : List PropertyDef)
    (properties : Properties) : Properties :=
  (toProperties.filter fun prop => fromProperties.all fun old =>
    old.name ≠ prop.name).foldl
    (fun read prop => read.insert prop.name .null) properties

/-- A node row written under one schema version, read under another. -/
def readNode (fromSchema toSchema : Schema) (node : Label × NodeRow) : Label × NodeRow :=
  (node.1,
    { id := node.2.id
      properties :=
        withNulls (fromSchema.nodeProperties node.1) (toSchema.nodeProperties node.1)
        node.2.properties })

/-- A row of an edge table read at the new schema. -/
def readEdge (fromSchema toSchema : Schema) (edge : EdgeType × EdgeRow) :
    EdgeType × EdgeRow :=
  (edge.1,
    { id := edge.2.id
      src := edge.2.src
      dst := edge.2.dst
      properties :=
        withNulls (fromSchema.edgeProperties edge.1) (toSchema.edgeProperties edge.1)
        edge.2.properties })

/-- Tables of the old schema read at the new one. -/
def Tables.readAs (fromSchema toSchema : Schema) (tables : Tables) : Tables where
  nodes := tables.nodes.map (readNode fromSchema toSchema)
  edges := tables.edges.map (readEdge fromSchema toSchema)

/-- The new declarations ask no more of a row than the old ones: a new property
is optional, an optional one stays so, and a required one was required before. -/
structure Kept (fromProperties toProperties : List PropertyDef) : Prop where
  added : ∀ name, Declared toProperties name → ¬ Declared fromProperties name →
    MayBeNull toProperties name
  nullable : ∀ name, MayBeNull fromProperties name → MayBeNull toProperties name
  demanded : ∀ name, Declared fromProperties name → MustBePresent toProperties name →
    MustBePresent fromProperties name

/-! ### Reading rows of one label or type -/

/-- Filling in nulls overwrites what is declared. -/
theorem getElem?_insertNulls (props : List PropertyDef) (properties : Properties)
    (name : String) :
    (props.foldl (fun read prop => read.insert prop.name .null) properties)[name]? =
      if Declared props name then some .null else properties[name]? := by
  induction props generalizing properties with
  | nil => simp [Declared]
  | cons prop props ih =>
      rw [List.foldl_cons, ih, Std.ExtTreeMap.getElem?_insert]
      simp only [Declared, List.mem_cons, exists_eq_or_imp, Std.compare_eq_iff_eq]
      by_cases here : prop.name = name <;> by_cases later : ∃ other ∈ props,
        other.name = name <;>
        simp [here, later]

/-- A property read at the new schema: the value stored if the old schema has it
too, a null if it is new. -/
theorem getElem?_withNulls (fromProperties toProperties : List PropertyDef)
    (properties : Properties) (name : String) :
    (withNulls fromProperties toProperties properties)[name]? =
      if Declared toProperties name ∧ ¬ Declared fromProperties name then some .null
      else properties[name]? := by
  rw [withNulls, getElem?_insertNulls]
  refine if_congr ?_ rfl rfl
  simp only [Declared, List.mem_filter, List.all_eq_true, decide_eq_true_eq]
  constructor
  · rintro ⟨prop, ⟨member, new⟩, rfl⟩
    exact ⟨⟨prop, member, rfl⟩, fun ⟨old, listed, same⟩ => new old listed same⟩
  · rintro ⟨⟨prop, member, rfl⟩, new⟩
    exact ⟨prop, ⟨member, fun old listed same => new ⟨old, listed, same⟩⟩, rfl⟩

/-- The properties present at the new schema. -/
theorem mem_withNulls {fromProperties toProperties : List PropertyDef}
    {properties : Properties} {name : String} :
    name ∈ withNulls fromProperties toProperties properties ↔
      (Declared toProperties name ∧ ¬ Declared fromProperties name) ∨
        name ∈ properties := by
  rw [Std.ExtTreeMap.mem_iff_isSome_getElem?, getElem?_withNulls,
    Std.ExtTreeMap.mem_iff_isSome_getElem?]
  split <;> simp_all

/-- A value stored under the old declarations may be stored under the new ones
if null still may. -/
theorem storable_of_compatible {owner : String}
    {fromProperties toProperties : List PropertyDef}
    (compatible : diffProperties owner fromProperties toProperties = [])
    {name : String} {value : PropertyValue}
    (nullable : MayBeNull fromProperties name → MayBeNull toProperties name)
    (storable : Storable fromProperties name value) :
    Storable toProperties name value := by
  obtain ⟨fromProp, member, rfl, typed | ⟨optional, rfl⟩⟩ := storable
  · obtain ⟨toProp, found, sameType⟩ :=
      diffProperties_eq_nil_iff.mp compatible fromProp member
    refine ⟨toProp, List.mem_of_find?_eq_some found,
      of_decide_eq_true (List.find?_some found :), ?_⟩
    rw [sameType]
    exact .inl typed
  · exact storable_null.mpr (nullable ⟨fromProp, member, rfl, optional⟩)

/-- Declarations that ask no more leave every row conforming. -/
theorem conform_of_kept {owner : String}
    {fromProperties toProperties : List PropertyDef}
    (compatible : diffProperties owner fromProperties toProperties = [])
    (kept : Kept fromProperties toProperties) {properties : Properties}
    (conform : PropertiesConform fromProperties properties) :
    PropertiesConform toProperties
      (withNulls fromProperties toProperties properties) := by
  rw [propertiesConform_iff] at conform ⊢
  constructor
  · intro name demanded
    rw [mem_withNulls]
    by_cases old : Declared fromProperties name
    · exact .inr (conform.1 name (kept.demanded name old demanded))
    · obtain ⟨prop, member, named, -⟩ := demanded
      exact .inl ⟨⟨prop, member, named⟩, old⟩
  · intro name value found
    rw [getElem?_withNulls] at found
    split at found
    case isTrue new =>
        cases found
        exact storable_null.mpr (kept.added name new.1 new.2)
    case isFalse =>
        exact storable_of_compatible compatible (kept.nullable name)
          (conform.2 name value found)

/-! ### Rows that test the new declarations -/

/-- If all conforming rows stay conforming, the new declarations ask no more. -/
theorem kept_of_conform {fromProperties toProperties : List PropertyDef}
    (safe : ∀ row, PropertiesConform fromProperties row →
      PropertiesConform toProperties (withNulls fromProperties toProperties row)) :
    Kept fromProperties toProperties := by
  obtain ⟨row, conform, least⟩ := exists_filled fromProperties
  have read := propertiesConform_iff.mp (safe row conform)
  constructor
  case added =>
    intro name new absent
    refine storable_null.mp (read.2 name .null ?_)
    rw [getElem?_withNulls, if_pos ⟨new, absent⟩]
  case nullable =>
    intro name nullable
    have old : Declared fromProperties name :=
      declared_of_storable (storable_null.mpr nullable)
    have withNull :=
      propertiesConform_iff.mp (safe _ (conform.insert (storable_null.mpr nullable)))
    refine storable_null.mp (withNull.2 name .null ?_)
    rw [getElem?_withNulls, if_neg fun new => new.2 old]
    simp
  case demanded =>
    intro name old demanded
    refine least name
      ((mem_withNulls.mp (read.1 name demanded)).resolve_left fun new => new.2 old)

/-! ### Whole schemas -/

/-- Edges of the declaration can exist: the labels of both ends are declared. -/
def Schema.EdgesPossible (schema : Schema) (edgeDef : EdgeDef) : Prop :=
  (schema.nodeDef edgeDef.source).isSome ∧ (schema.nodeDef edgeDef.target).isSome

/-- Every label, and every edge type of which there can be rows, keeps its
demands, and the edge type its ends. -/
structure SafelyEvolves (fromSchema toSchema : Schema) : Prop where
  node : ∀ label fromNode toNode, fromSchema.nodeDef label = some fromNode →
    toSchema.nodeDef label = some toNode → Kept fromNode.properties toNode.properties
  edge : ∀ edgeType fromEdge toEdge, fromSchema.edgeDef edgeType = some fromEdge →
    toSchema.edgeDef edgeType = some toEdge → fromSchema.EdgesPossible fromEdge →
    Kept fromEdge.properties toEdge.properties ∧ toEdge.source = fromEdge.source ∧
      toEdge.target = fromEdge.target

section Schemas

variable {fromSchema toSchema : Schema}

/-- Reading at another schema keeps labels. -/
theorem hasLabel_readAs {tables : Tables} {v : NodeId} {label : Label} :
    (tables.readAs fromSchema toSchema).HasLabel v label ↔ tables.HasLabel v label := by
  simp [Tables.HasLabel, Tables.readAs, readNode]

/-- The properties of a node read at the new schema. -/
theorem readNode_properties {label : Label} {fromNode toNode : NodeDef}
    (declared : fromSchema.nodeDef label = some fromNode)
    (kept : toSchema.nodeDef label = some toNode) (row : NodeRow) :
    (readNode fromSchema toSchema (label, row)).2.properties =
      withNulls fromNode.properties toNode.properties row.properties := by
  simp [readNode, Schema.nodeProperties, declared, kept]

/-- The properties of an edge read at the new schema. -/
theorem readEdge_properties {edgeType : EdgeType} {fromEdge toEdge : EdgeDef}
    (declared : fromSchema.edgeDef edgeType = some fromEdge)
    (kept : toSchema.edgeDef edgeType = some toEdge) (row : EdgeRow) :
    (readEdge fromSchema toSchema (edgeType, row)).2.properties =
      withNulls fromEdge.properties toEdge.properties row.properties := by
  simp [readEdge, Schema.edgeProperties, declared, kept]

/-- The labels at the ends of an edge are declared, for there are nodes of
them. -/
theorem nodeDef_isSome_of_hasLabel {tables : Tables}
    (conform : tables.Conform fromSchema) {v : NodeId} {label : Label}
    (labelled : tables.HasLabel v label) : (fromSchema.nodeDef label).isSome := by
  obtain ⟨node, member, -, rfl⟩ := labelled
  obtain ⟨nodeDef, declared, -⟩ := conform.node node member
  rw [declared]
  rfl

/-- Tables that conform to the old schema conform to the new one, if nothing new
is required. -/
theorem conform_of_safelyEvolves
    (compatible : diff fromSchema toSchema = .compatible)
    (safely : SafelyEvolves fromSchema toSchema) {tables : Tables}
    (conform : tables.Conform fromSchema) :
    (tables.readAs fromSchema toSchema).Conform toSchema := by
  constructor
  case node =>
    intro read member
    obtain ⟨⟨label, row⟩, listed, rfl⟩ := List.mem_map.mp member
    obtain ⟨fromNode, declared, properties⟩ := conform.node _ listed
    obtain ⟨toNode, kept, owner, sameTypes⟩ := node_of_compatible compatible declared
    refine ⟨toNode, kept, ?_⟩
    rw [readNode_properties declared kept]
    exact conform_of_kept sameTypes
      (safely.node label fromNode toNode declared kept) properties
  case edge =>
    intro read member
    obtain ⟨⟨edgeType, row⟩, listed, rfl⟩ := List.mem_map.mp member
    obtain ⟨fromEdge, declared, properties, source, target⟩ := conform.edge _ listed
    obtain ⟨toEdge, kept, owner, sameTypes⟩ := edge_of_compatible compatible declared
    obtain ⟨demands, sameSource, sameTarget⟩ :=
      safely.edge edgeType fromEdge toEdge declared kept
      ⟨nodeDef_isSome_of_hasLabel conform source,
        nodeDef_isSome_of_hasLabel conform target⟩
    refine ⟨toEdge, kept, ?_, hasLabel_readAs.mpr (sameSource ▸ source),
      hasLabel_readAs.mpr (sameTarget ▸ target)⟩
    rw [readEdge_properties declared kept]
    exact conform_of_kept sameTypes demands properties

/-- One node and nothing else. -/
def loneNode (label : Label) (properties : Properties) : Tables where
  nodes := [(label, { id := ⟨0⟩, properties := properties })]
  edges := []

/-- One edge between two nodes. -/
def loneEdge (edgeType : EdgeType) (edgeDef : EdgeDef)
    (properties sourceProperties targetProperties : Properties) : Tables where
  nodes := [(edgeDef.source, { id := ⟨0⟩, properties := sourceProperties }),
    (edgeDef.target, { id := ⟨1⟩, properties := targetProperties })]
  edges := [(edgeType, { id := ⟨0⟩, src := ⟨0⟩, dst := ⟨1⟩, properties := properties })]

/-- Tables of one node conform, if its properties do. -/
theorem loneNode_conform {label : Label} {nodeDef : NodeDef}
    (declared : fromSchema.nodeDef label = some nodeDef) {properties : Properties}
    (conform : PropertiesConform nodeDef.properties properties) :
    (loneNode label properties).Conform fromSchema where
  node := by
    intro node member
    rw [List.mem_singleton.mp member]
    exact ⟨nodeDef, declared, conform⟩
  edge := by simp [loneNode]

/-- Tables of one edge and its ends conform, if its properties do. -/
theorem loneEdge_conform {edgeType : EdgeType} {edgeDef : EdgeDef}
    (declared : fromSchema.edgeDef edgeType = some edgeDef)
    {sourceDef targetDef : NodeDef}
    (source : fromSchema.nodeDef edgeDef.source = some sourceDef)
    (target : fromSchema.nodeDef edgeDef.target = some targetDef)
    {properties sourceProperties targetProperties : Properties}
    (conform : PropertiesConform edgeDef.properties properties)
    (sourceConform : PropertiesConform sourceDef.properties sourceProperties)
    (targetConform : PropertiesConform targetDef.properties targetProperties) :
    (loneEdge edgeType edgeDef properties sourceProperties targetProperties).Conform
      fromSchema where
  node := by
    simp only [loneEdge, List.forall_mem_cons]
    exact ⟨⟨sourceDef, source, sourceConform⟩,
      ⟨targetDef, target, targetConform⟩, by simp⟩
  edge := by
    intro edge member
    rw [List.mem_singleton.mp member]
    exact ⟨edgeDef, declared, conform, by simp [Tables.HasLabel, loneEdge],
      by simp [Tables.HasLabel, loneEdge]⟩

/-- If all tables that conform to the old schema conform to the new one, nothing
new is required. -/
theorem safelyEvolves_of_conform
    (safe : ∀ tables : Tables, tables.Conform fromSchema →
      (tables.readAs fromSchema toSchema).Conform toSchema) :
    SafelyEvolves fromSchema toSchema := by
  constructor
  case node =>
    intro label fromNode toNode declared kept
    refine kept_of_conform fun properties conform => ?_
    have read := (safe _ (loneNode_conform declared conform)).node _
      (List.mem_map_of_mem List.mem_cons_self)
    obtain ⟨nodeDef, found, conform'⟩ := read
    rw [readNode_properties declared kept] at conform'
    cases kept.symm.trans found
    exact conform'
  case edge =>
    rintro edgeType fromEdge toEdge declared kept ⟨sourceDeclared, targetDeclared⟩
    obtain ⟨sourceDef, source⟩ := Option.isSome_iff_exists.mp sourceDeclared
    obtain ⟨targetDef, target⟩ := Option.isSome_iff_exists.mp targetDeclared
    obtain ⟨sourceRow, sourceConform, -⟩ := exists_filled sourceDef.properties
    obtain ⟨targetRow, targetConform, -⟩ := exists_filled targetDef.properties
    have read : ∀ properties, PropertiesConform fromEdge.properties properties →
        PropertiesConform toEdge.properties
          (withNulls fromEdge.properties toEdge.properties properties) ∧
        toEdge.source = fromEdge.source ∧ toEdge.target = fromEdge.target := by
      intro properties conform
      have after := safe _
        (loneEdge_conform declared source target conform sourceConform targetConform)
      obtain ⟨edgeDef, found, conform', sourceLabel, targetLabel⟩ :=
        after.edge _ (List.mem_map_of_mem List.mem_cons_self)
      rw [readEdge_properties declared kept] at conform'
      cases kept.symm.trans found
      rw [hasLabel_readAs] at sourceLabel targetLabel
      refine ⟨conform', ?_, ?_⟩
      · simpa [Tables.HasLabel, loneEdge, readEdge, eq_comm] using sourceLabel
      · simpa [Tables.HasLabel, loneEdge, readEdge, eq_comm] using targetLabel
    obtain ⟨row, conform, -⟩ := exists_filled fromEdge.properties
    exact ⟨kept_of_conform fun properties conform => (read properties conform).1,
      (read row conform).2⟩

/-- A change classified as compatible keeps every conforming dataset conforming
if and only if no label and no edge type between declared labels comes to demand
more, and no such edge type changes its ends.  A dataset is read at the new
schema as the reader does it: properties that are new there are null.

The condition is on the two schemas.  Edge types whose ends are not declared are
left out of it because no conforming dataset has an edge of them. -/
theorem compatible_safe_iff (compatible : diff fromSchema toSchema = .compatible) :
    (∀ tables : Tables, tables.Conform fromSchema →
      (tables.readAs fromSchema toSchema).Conform toSchema) ↔
      SafelyEvolves fromSchema toSchema :=
  ⟨safelyEvolves_of_conform, fun safely _ conform =>
    conform_of_safelyEvolves compatible safely conform⟩

end Schemas

/-! ### Two versions of a schema of persons -/

namespace Persons

/-- `nickname: String?`. -/
def nickname : PropertyDef where
  name := "nickname"
  ty := .string
  optional := true
  indexed := false

theorem nickname_kept : Kept [] [nickname] where
  added := by
    rintro name ⟨prop, member, named⟩ _
    rw [List.mem_singleton.mp member] at named
    exact ⟨nickname, List.mem_cons_self, named, rfl⟩
  nullable := by
    rintro name ⟨prop, ⟨⟩, _⟩
  demanded := by
    rintro name ⟨prop, ⟨⟩, _⟩

theorem nickname_safelyEvolves : SafelyEvolves (declaring []) (declaring [nickname]) where
  node := by
    intro label fromNode toNode declared kept
    rw [nodeDef_declaring declared, nodeDef_declaring kept]
    exact nickname_kept
  edge := by
    intro edgeType fromEdge toEdge declared
    simp [Schema.edgeDef, declaring] at declared

end Persons

/-- Every table of persons conforms after a nickname is added. -/
theorem nickname_safe :
    diff (Persons.declaring []) (Persons.declaring [Persons.nickname]) = .compatible ∧
    ∀ tables : Tables, tables.Conform (Persons.declaring []) →
      (tables.readAs (Persons.declaring [])
        (Persons.declaring [Persons.nickname])).Conform
        (Persons.declaring [Persons.nickname]) := by
  have compatible : diff (Persons.declaring [])
      (Persons.declaring [Persons.nickname]) = .compatible := by
    decide
  exact ⟨compatible, (compatible_safe_iff compatible).mpr Persons.nickname_safelyEvolves⟩

/-- The text parses, to a schema that passes the test. -/
def schemaParsesTo (test : Schema → Bool) (source : String) : Bool :=
  match PestSchemaParser.parse (fun _ => "") source with
  | .ok (.ok schema) => test schema
  | _ => false

/-- A text that parses to a schema that passes a test. -/
theorem exists_of_schemaParsesTo {test : Schema → Bool} {source : String}
    (passed : schemaParsesTo test source = true) : ∃ schema,
      PestSchemaParser.parse (fun _ => "") source = .ok (.ok schema) ∧
        test schema = true := by
  unfold schemaParsesTo at passed
  split at passed
  case h_1 schema parsed => exact ⟨schema, parsed, passed⟩
  case h_2 => cases passed

/-- Both texts parse, to schemas that pass the test. -/
def schemasParseTo (test : Schema → Schema → Bool) (fromSource toSource : String) :
    Bool :=
  match PestSchemaParser.parse (fun _ => "") fromSource,
    PestSchemaParser.parse (fun _ => "") toSource with
  | .ok (.ok fromSchema), .ok (.ok toSchema) => test fromSchema toSchema
  | _, _ => false

/-- Texts that parse to schemas that pass a test together. -/
theorem exists_of_schemasParseTo {test : Schema → Schema → Bool}
    {fromSource toSource : String}
    (passed : schemasParseTo test fromSource toSource = true) : ∃ fromSchema toSchema,
      PestSchemaParser.parse (fun _ => "") fromSource = .ok (.ok fromSchema) ∧
      PestSchemaParser.parse (fun _ => "") toSource = .ok (.ok toSchema) ∧
      test fromSchema toSchema = true := by
  unfold schemasParseTo at passed
  split at passed
  case h_1 fromSchema toSchema parsed parsed' =>
    exact ⟨fromSchema, toSchema, parsed, parsed', passed⟩
  case h_2 => cases passed

/-- A required property is added, the change is classified as compatible, and a
person written before does not conform after. -/
theorem compatible_unsafe :
    ¬ ∀ (report : String → String) (fromSource toSource : String)
    (fromSchema toSchema : Schema), PestSchemaParser.parse report fromSource =
      .ok (.ok fromSchema) →
      PestSchemaParser.parse report toSource = .ok (.ok toSchema) →
        diff fromSchema toSchema = .compatible →
      ∀ tables : Tables, tables.Conform fromSchema →
        (tables.readAs fromSchema toSchema).Conform toSchema := by
  let name : PropertyDef :=
    { name := "name", ty := .string, optional := false, indexed := false }
  have passed : schemasParseTo (fun fromSchema toSchema =>
      decide (diff fromSchema toSchema = .compatible) &&
      decide (fromSchema.nodeDef Social.person = some ⟨Social.person, []⟩) &&
      decide (toSchema.nodeDef Social.person = some ⟨Social.person, [name]⟩))
      "schema graph_v1 \x7b node Person \x7b id: NodeId \x7d \x7d"
      "schema graph_v2 \x7b node Person \x7b id: NodeId name: String \x7d \x7d" =
        true := by
        decide +kernel
  obtain ⟨fromSchema, toSchema, parsed, parsed', tested⟩ :=
    exists_of_schemasParseTo passed
  simp only [Bool.and_eq_true, decide_eq_true_eq] at tested
  obtain ⟨⟨compatible, declared⟩, kept⟩ := tested
  intro safe
  have evolves := safelyEvolves_of_conform (safe _ _ _ _ _ parsed parsed' compatible)
  obtain ⟨prop, member, -, optional⟩ := (evolves.node _ _ _ declared kept).added "name"
    ⟨name, List.mem_cons_self, rfl⟩ (by rintro ⟨prop, ⟨⟩, _⟩)
  rw [List.mem_singleton.mp member] at optional
  cases optional

end GraphEngine
