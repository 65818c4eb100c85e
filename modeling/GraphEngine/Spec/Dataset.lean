/-
Module: GraphEngine.Spec.Dataset
Layer: Spec
Purpose: The tables that a rebuild scans, the graph they describe, and the
  clusters that serve them.
Trusted boundary: the tables stand for the rows that the storage backend hands
  out at the snapshots pinned
Main exports: Dataset, Dataset.view, Dataset.Built, Dataset.Conforms,
  Dataset.ServedBy, FullyReachable
-/
import GraphEngine.Model.Builder
import GraphEngine.Model.Validator
import GraphEngine.Spec.ClusterView

namespace GraphEngine

open Std (ExtTreeMap)

/-- The rows of the node and edge tables, each at one snapshot. -/
structure Dataset where
  schema : Schema
  labels : List Label
  nodeRows : Label → List NodeRow
  edgeRows : EdgeType → List EdgeRow
  snapshot : String → SnapshotId

namespace Dataset

variable (dataset : Dataset)

/-! ### The rows scanned -/

/-- All node rows, in scan order. -/
def nodes : List (Label × NodeRow) :=
  dataset.labels.flatMap fun label => (dataset.nodeRows label).map fun row => (label, row)

/-- All edge rows, in scan order. -/
def edges : List (EdgeType × EdgeRow) :=
  dataset.schema.edges.toList.flatMap fun entry =>
    (dataset.edgeRows entry.2.edgeType).map fun row => (entry.2.edgeType, row)

/-- A backend that hands out these rows. -/
def reader : IcebergReader (Except StorageError) where
  latestSnapshot table := .ok (dataset.snapshot table)
  scanNodes _ label _ := .ok ((dataset.nodeRows label).map .ok)
  scanEdges _ edgeType _ := .ok ((dataset.edgeRows edgeType).map .ok)

/-- The snapshots that a rebuild pins. -/
def snapshotByTable : ExtTreeMap String SnapshotId compare :=
  ((dataset.labels.map nodeTableName) ++
    dataset.schema.edges.toList.map fun entry => edgeTableName entry.2.edgeType).foldl
    (fun pinned table => pinned.insert table (dataset.snapshot table)) ∅

/-- The generation of one partition, assembled from all the rows. -/
def generation (partitioning : Partitioning) (partition : PartitionId)
    (builtAtUnixMs : Int) : IndexGeneration :=
  assemble dataset.schema partitioning partition dataset.snapshotByTable
    builtAtUnixMs dataset.nodes
    dataset.edges

/-- `generation` is what the builder makes of the tables for one partition. -/
def Built (partitioning : Partitioning) (partition : PartitionId)
    (generation : IndexGeneration) : Prop :=
  ∃ builtAtUnixMs,
    IcebergIndexBuilder.build ⟨dataset.reader, dataset.schema, partitioning⟩ partition
    dataset.labels builtAtUnixMs = .ok generation

/-! ### Well-formedness -/

/-- No two node rows share an id. -/
def UniqueNodeIds : Prop := (dataset.nodes.map fun node => node.2.id).Nodup

/-- No two edge rows share an id. -/
def UniqueEdgeIds : Prop := (dataset.edges.map fun edge => edge.2.id).Nodup

/-- Some node row has this id. -/
def Scanned (v : NodeId) : Prop := ∃ node ∈ dataset.nodes, node.2.id = v

instance (v : NodeId) : Decidable (dataset.Scanned v) :=
  inferInstanceAs (Decidable (∃ node ∈ dataset.nodes, node.2.id = v))

/-- Both ends of every edge are in a node table. -/
def EndpointsPresent : Prop :=
  ∀ edge ∈ dataset.edges, dataset.Scanned edge.2.src ∧ dataset.Scanned edge.2.dst

/-! ### The graph described -/

/-- An edge row leads, in a direction, from one node to another. -/
def Leads (direction : Direction) (edge : EdgeType × EdgeRow) (u v : NodeId) : Prop :=
  orient (decide (direction = .outgoing)) edge.2 = (u, v)

/-- What the tables say of the graph, without partitions or a builder: a node is
found by what its row says, an entry leads from one scanned end of an edge row
to the other, and records are those of the rows. -/
def view : GraphView where
  started labelOrType property key v := ∃ node ∈ dataset.nodes, node.2.id = v ∧
    ((labelOrType, property), key) ∈ indexedKeys dataset.schema node
  labelled label v := ∃ node ∈ dataset.nodes, node.2.id = v ∧ node.1.name = label
  adjacent direction u t e v := dataset.Scanned u ∧ dataset.Scanned v ∧
    ∃ edge ∈ dataset.edges, Leads direction edge u v ∧ edge.1 = t ∧ edge.2.id = e
  nodeRecord v record := ∃ node ∈ dataset.nodes, node.2.id = v ∧
    record = { label := node.1, properties := node.2.properties }
  edgeRecord e record := ∃ edge ∈ dataset.edges, edge.2.id = e ∧
    record = { edgeType := edge.1, properties := edge.2.properties }
  owned _ := True
  candidate direction u t v record := dataset.Scanned u ∧ dataset.Scanned v ∧
    ∃ edge ∈ dataset.edges, Leads direction edge u v ∧ edge.1 = t ∧
      record = { edgeType := edge.1, properties := edge.2.properties }

end Dataset

/-! ### Conformance -/

/-- A stored value of a declared type.  Elements of a list may be null, and
vectors are read as lists of floats. -/
inductive HasType : PropertyValue → ScalarType → Prop where
  | int64 (value : Int) : HasType (.int64 value) .int64
  | float64 (value : F64) : HasType (.float64 value) .float64
  | bool (value : Bool) : HasType (.bool value) .bool
  | string (value : String) : HasType (.string value) .string
  | timestamp (value : Int) : HasType (.timestamp value) .timestamp
  | bytes (value : List UInt8) : HasType (.bytes value) .bytes
  | list {values : List PropertyValue} {element : ScalarType}
      (elements : ∀ value ∈ values, value ≠ .null → HasType value element) :
        HasType (.list values) (.list element)
  | vector {values : List PropertyValue} (dim : Nat)
      (elements : ∀ value ∈ values, value ≠ .null → HasType value .float64) :
        HasType (.list values) (.vector dim)

/-- A row has the properties declared and no others; only an optional one may be
absent or null. -/
structure PropertiesConform (declared : List PropertyDef) (properties : Properties) :
    Prop where
  present : ∀ prop ∈ declared, prop.optional = false → prop.name ∈ properties
  typed : ∀ name value, properties[name]? = some value →
    ∃ prop ∈ declared, prop.name = name ∧
    (HasType value prop.ty ∨ prop.optional = true ∧ value = .null)

/-- The label of a node in the tables. -/
def Dataset.HasLabel (dataset : Dataset) (v : NodeId) (label : Label) : Prop :=
  ∃ node ∈ dataset.nodes, node.2.id = v ∧ node.1 = label

/-- Every row is declared by the schema, and every edge joins nodes of the
labels declared for its type. -/
structure Dataset.Conforms (dataset : Dataset) : Prop where
  node : ∀ node ∈ dataset.nodes, ∃ nodeDef, dataset.schema.nodeDef node.1 = some nodeDef ∧
    PropertiesConform nodeDef.properties node.2.properties
  edge : ∀ edge ∈ dataset.edges, ∃ edgeDef, dataset.schema.edgeDef edge.1 = some edgeDef ∧
    PropertiesConform edgeDef.properties edge.2.properties ∧
    dataset.HasLabel edge.2.src edgeDef.source ∧
      dataset.HasLabel edge.2.dst edgeDef.target

/-- Where ids are unique a node has one label. -/
theorem Dataset.HasLabel.unique {dataset : Dataset} (unique : dataset.UniqueNodeIds)
    {v : NodeId} {label label' : Label} (first : dataset.HasLabel v label)
    (second : dataset.HasLabel v label') : label = label' := by
  rcases first with ⟨node, member, id, rfl⟩
  rcases second with ⟨node', member', id', rfl⟩
  have same : node = node' :=
    List.inj_on_of_nodup_map unique member member' (id.trans id'.symm)
  rw [same]

/-! ### Clusters -/

/-- Every replica that would be asked serves the generation built for its
partition. -/
def Dataset.ServedBy (dataset : Dataset) (hasher : Partitioning)
    (partitions : PartitionMap) (serve : GenerationHandle → IndexGeneration) : Prop :=
  ∀ p generation, servingOf partitions serve p = some generation →
    dataset.Built hasher p generation

/-- Every partition has a healthy replica. -/
def FullyReachable (hasher : Partitioning) (partitions : PartitionMap) : Prop :=
  ∀ v, (pickReplica partitions (hasher.partition v)).isSome

/-! ### The canonical deployment -/

/-- The address of the only replica of a partition: a word of the partition's
length. -/
def deploymentAddress (p : Nat) : String := String.ofList (List.replicate p 'r')

/-- One healthy replica for every partition. -/
def deployment (hasher : Partitioning) : PartitionMap where
  replicasByPartition := collectMap ((List.range hasher.nPartitions).map fun p =>
    ({ val := p },
      [{ replica := { name := deploymentAddress p }, address := deploymentAddress p,
                      healthy := true }]))

/-- Every replica serves the generation built for its partition. -/
def Dataset.deployed (dataset : Dataset) (hasher : Partitioning)
    (handle : GenerationHandle) : IndexGeneration :=
  dataset.generation hasher { val := handle.address.length } 0

/-- Every partition of the deployment has its one replica picked. -/
theorem pickReplica_deployment (hasher : Partitioning) (p : PartitionId) :
    pickReplica (deployment hasher) p =
      if p.val < hasher.nPartitions then
        some { replica := { name := deploymentAddress p.val },
               address := deploymentAddress p.val,
               healthy := true }
      else none := by
  rw [pickReplica, PartitionMap.healthyReplicas, deployment]
  split
  case h_1 replicas found =>
      obtain ⟨q, inRange, same⟩ := List.mem_map.mp (mem_of_getElem?_collectMap found)
      cases same
      rw [List.mem_range] at inRange
      rw [if_pos inRange]
      rfl
  case h_2 absent =>
      split
      case isTrue below =>
          exfalso
          have listed := congrArg Option.isSome absent
          rw [Option.isSome_none, ← Bool.not_eq_true, getElem?_collectMap_isSome,
            List.map_map] at listed
          exact listed (List.mem_map.mpr ⟨p.val, List.mem_range.mpr below, rfl⟩)
      case isFalse => rfl

/-- Every partition of the deployment serves what is built of the dataset. -/
theorem servingOf_deployment (dataset : Dataset) (hasher : Partitioning)
    (p : PartitionId) :
    servingOf (deployment hasher) (dataset.deployed hasher) p =
      if p.val < hasher.nPartitions then some (dataset.generation hasher p 0)
        else none := by
  rw [servingOf, pickReplica_deployment]
  split
  · have size : (deploymentAddress p.val).length = p.val := by
      rw [deploymentAddress, String.length_ofList, List.length_replicate]
    rw [Option.map_some, Dataset.deployed, ReplicaEndpoint.handle, size]
  · rfl

/-- No partition of the deployment is out of reach. -/
theorem fullyReachable_deployment (hasher : Partitioning) :
    FullyReachable hasher (deployment hasher) := by
  intro v
  have below : (hasher.partition v).val < hasher.nPartitions := hasher.partitionOf_lt v
  rw [pickReplica_deployment, if_pos below]
  rfl

/-! ### A small social graph -/

namespace Social

def person : Label := { name := "Person" }
def company : Label := { name := "Company" }
def knows : EdgeType := { name := "KNOWS" }
def worksAt : EdgeType := { name := "WORKS_AT" }

/-- Persons who know one another and work at companies.  Names are indexed,
which the start lookup needs; an acquaintance may say who brought it about. -/
def schema : Schema where
  version := "1"
  nodes := collectMap
    [(company, { label := company, properties := [] }),
     (person,
      { label := person
        properties :=
          [{ name := "name", ty := .string, optional := false, indexed := true }] })]
  edges := collectMap
    [(knows,
      { edgeType := knows, source := person, target := person
        properties :=
          [{ name := "via", ty := .string, optional := true, indexed := false }] }),
     (worksAt, { edgeType := worksAt, source := person, target := company,
                 properties := [] })]

/-- A record with one text property. -/
def textual (property value : String) : Properties :=
  (∅ : Properties).insert property (.string value)

/-- Three people and a company: 1 knows 2, 2 knows 4, and 1 works at 3.  Of an
acquaintance the edge says through whom it was made. -/
def dataset : Dataset where
  schema := schema
  labels := schema.nodes.keys
  nodeRows label :=
    if label = person then
      [{ id := ⟨1⟩, properties := textual "name" "Ann" },
        { id := ⟨2⟩, properties := textual "name" "Bob" },
       { id := ⟨4⟩, properties := textual "name" "Cid" }]
    else if label = company then [{ id := ⟨3⟩, properties := ∅ }]
    else []
  edgeRows edgeType :=
    if edgeType = knows then
      [{ id := ⟨10⟩, src := ⟨1⟩, dst := ⟨2⟩, properties := textual "via" "Ann" },
       { id := ⟨11⟩, src := ⟨2⟩, dst := ⟨4⟩, properties := textual "via" "Ann" }]
    else if edgeType = worksAt then
      [{ id := ⟨12⟩, src := ⟨1⟩, dst := ⟨3⟩, properties := ∅ }]
    else []
  snapshot _ := { val := 1 }

@[simp] theorem textual_self (property value : String) :
    (textual property value)[property]? = some (.string value) := by
  simp [textual]

/-- A person of the dataset. -/
def somebody (id : Nat) (name : String) : Label × NodeRow :=
  (person, { id := { val := id }, properties := textual "name" name })

/-- The nodes of the example in the order in which they are scanned. -/
theorem nodes_eq : dataset.nodes =
    [(company, { id := ⟨3⟩, properties := ∅ }), somebody 1 "Ann", somebody 2 "Bob",
      somebody 4 "Cid"] :=
  rfl

/-- No two nodes of the example share an id. -/
theorem uniqueNodeIds : dataset.UniqueNodeIds := by
  unfold Dataset.UniqueNodeIds
  decide

/-- No two edges of the example share an id. -/
theorem uniqueEdgeIds : dataset.UniqueEdgeIds := by
  unfold Dataset.UniqueEdgeIds
  decide

/-- Every edge of the example has its ends. -/
theorem endpointsPresent : dataset.EndpointsPresent := by
  unfold Dataset.EndpointsPresent
  decide

theorem textual_conforms {prop : PropertyDef} (text : prop.ty = .string)
    (value : String) : PropertiesConform [prop] (textual prop.name value) where
  present := by
    intro other member _
    rw [List.mem_singleton.mp member]
    simp [textual]
  typed := by
    intro name stored found
    refine ⟨prop, List.mem_cons_self, ?_⟩
    rw [textual, Std.ExtTreeMap.getElem?_insert] at found
    split at found
    case isTrue same =>
        cases found
        rw [text]
        exact ⟨Std.LawfulEqOrd.eq_of_compare same, .inl (.string value)⟩
    case isFalse => simp at found

theorem empty_conforms : PropertiesConform [] ∅ where
  present := by simp
  typed := by simp

/-- The edges of the example in the order in which they are scanned. -/
theorem edges_eq : dataset.edges =
    [(knows, { id := ⟨10⟩, src := ⟨1⟩, dst := ⟨2⟩, properties := textual "via" "Ann" }),
     (knows, { id := ⟨11⟩, src := ⟨2⟩, dst := ⟨4⟩, properties := textual "via" "Ann" }),
     (worksAt, { id := ⟨12⟩, src := ⟨1⟩, dst := ⟨3⟩, properties := ∅ })] :=
  rfl

instance decidableHasLabel (v : NodeId) (label : Label) :
    Decidable (dataset.HasLabel v label) :=
  inferInstanceAs (Decidable (∃ node ∈ dataset.nodes, node.2.id = v ∧ node.1 = label))

/-- The example conforms to its schema. -/
theorem conforms : dataset.Conforms where
  node := by
    intro node member
    rw [nodes_eq] at member
    rcases List.mem_cons.mp member with rfl | isPerson
    · exact ⟨{ label := company, properties := [] }, rfl, empty_conforms⟩
    · have people : ∃ id name, node = somebody id name := by
        simp only [List.mem_cons, List.not_mem_nil, or_false] at isPerson
        rcases isPerson with rfl | rfl | rfl <;> exact ⟨_, _, rfl⟩
      rcases people with ⟨id, name, rfl⟩
      have text : PropertyDef.ty
          { name := "name", ty := .string, optional := false, indexed := true } =
          .string := rfl
      have declared : schema.nodeDef person =
          some { label := person, properties := [_] } :=
        rfl
      exact ⟨_, declared, textual_conforms text name⟩
  edge := by
    intro edge member
    have text : PropertyDef.ty
        { name := "via", ty := .string, optional := true, indexed := false } =
        .string := rfl
    rw [edges_eq] at member
    simp only [List.mem_cons, List.not_mem_nil, or_false] at member
    rcases member with rfl | rfl | rfl
    · exact ⟨{ edgeType := knows, source := person, target := person,
               properties := [_] }, rfl,
        textual_conforms text "Ann", by decide, by decide⟩
    · exact ⟨{ edgeType := knows, source := person, target := person,
               properties := [_] }, rfl,
        textual_conforms text "Ann", by decide, by decide⟩
    · exact ⟨{ edgeType := worksAt, source := person, target := company,
               properties := [] }, rfl,
        empty_conforms, by decide, by decide⟩

/-- Everything on one partition. -/
def single : Partitioning := Partitioning.ofHash id 1 Nat.one_pos

/-- Even and odd ids on a partition each. -/
def byParity : Partitioning := Partitioning.ofHash id 2 Nat.two_pos

/-- `(alias:label)`. -/
def labelled (aliasName : String) (label : Label) : NodePattern :=
  { aliasName := aliasName, label := some label, propertyFilters := [] }

/-- `-[:edgeType]->`. -/
def typed (edgeType : EdgeType) : EdgePattern :=
  { aliasName := none, edgeType := some edgeType, direction := .outgoing,
    hops := { min := 1, max := 1 } }

/-- `MATCH pattern RETURN alias`. -/
def matching (steps : List PatternStep) (aliasName : String) : Query where
  pattern := { steps := steps }
  whereConditions := []
  returns := [{ aliasName := aliasName, property := none }]
  orderBy := none
  limit := none

/-- `MATCH (a:Person)-[:KNOWS]->(b:Person) RETURN b`. -/
def acquaintances : Query :=
  matching [.node (labelled "a" person), .edge (typed knows),
    .node (labelled "b" person)] "b"

/-- What it lowers to. -/
def acquaintancesPlan : QueryPlan where
  steps :=
    [.resolveAll { aliasName := "a", label := "Person" },
     .expandHop
      { fromAlias := "a", toAlias := "b", toLabel := some "Person",
        edgeType := some "KNOWS"
        direction := .outgoing, hops := { min := 1, max := 1 }, filters :=
          [], edgeAlias := none }]
  project := [{ aliasName := "b", property := none }]

/-- The validator accepts the query for acquaintances. -/
theorem acquaintances_valid :
    SchemaValidator.validate acquaintances dataset.schema = .ok () := by
  decide

/-- The query for acquaintances is planned as a scan and a hop. -/
theorem acquaintances_planned :
    NaivePlanner.plan acquaintances = .ok acquaintancesPlan := rfl

/-- No text of the example is a timestamp. -/
scoped instance noTimestamps : Chrono := ⟨fun _ => none⟩

/-- Every collection is enumerated in its own order. -/
def inOrder (_ size : Nat) : Equiv.Perm (Fin size) := Equiv.refl _

/-- `a` and `b` bound. -/
def pair (a b : Nat) : Binding := (Binding.fromNode "a" ⟨a⟩).bindNode "b" ⟨b⟩

end Social

/-! ### Schemas with persons only -/

namespace Persons

/-- `node Person { id: NodeId <properties> }`. -/
def declaring (properties : List PropertyDef) : Schema where
  version := "graph_v1"
  nodes :=
    collectMap [(Social.person, { label := Social.person, properties := properties })]
  edges := ∅

/-- Every label of the schema declares the properties given. -/
theorem nodeDef_declaring {properties : List PropertyDef} {label : Label}
    {nodeDef : NodeDef}
    (declared : (declaring properties).nodeDef label = some nodeDef) :
    nodeDef.properties = properties := by
  have member := mem_of_getElem?_collectMap declared
  cases List.mem_singleton.mp member
  rfl

end Persons

end GraphEngine
