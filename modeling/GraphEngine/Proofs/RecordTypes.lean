/-
Module: GraphEngine.Proofs.RecordTypes
Layer: Proofs
Purpose: Type soundness from the Arrow columns to the records of a generation:
  each record has the properties its label or edge type declares, each of its
  declared type or null.
Trusted boundary: none
Main exports: PropertiesTyped, RecordsTyped, TypeSound, typeSound
-/
import GraphEngine.Proofs.Build
import GraphEngine.Proofs.Scans
import GraphEngine.Proofs.StorageBoundary

namespace GraphEngine

open IcebergIndexBuilder

/-- The properties are those declared, each null or of its declared type. -/
structure PropertiesTyped (declared : List PropertyDef) (properties : Properties) :
    Prop where
  present : ∀ prop ∈ declared, ∃ value, properties[prop.name]? = some value ∧
    Inhabits value prop.ty
  declaredOnly : ∀ name ∈ properties, ∃ prop ∈ declared, prop.name = name

theorem StoresProperties.typed {batch : RecordBatch} {row : Nat}
    {declared : List PropertyDef} {properties : Properties}
    (stores : StoresProperties batch row declared properties) :
    PropertiesTyped declared properties where
  present prop listed := by
    obtain ⟨column, value, -, -, found, typed⟩ := stores.stored prop listed
    exact ⟨value, found, typed⟩
  declaredOnly := stores.declaredOnly

def NodeTyped (schema : Schema) (label : Label) (properties : Properties) : Prop :=
  ∃ nodeDef, schema.nodeDef label = some nodeDef ∧
    PropertiesTyped nodeDef.properties properties

def EdgeTyped (schema : Schema) (edgeType : EdgeType) (properties : Properties) : Prop :=
  ∃ edgeDef, schema.edgeDef edgeType = some edgeDef ∧
    PropertiesTyped edgeDef.properties properties

/-- Every record has the properties that its label or edge type declares. -/
structure RecordsTyped (schema : Schema) (generation : IndexGeneration) : Prop where
  node : ∀ (v : NodeId) record, generation.nodeRecords[v]? = some record →
    NodeTyped schema record.label record.properties
  edge : ∀ (e : EdgeId) record, generation.edgeRecords[e]? = some record →
    EdgeTyped schema record.edgeType record.properties

/-- A row for which an id column has another kind than ids, or in which a
declared property reaches an array of another kind, is refused as not
conforming. -/
structure WrongKindRefused {Row : Type} (batch : RecordBatch) (shape : RowShape Row)
    (declared : List PropertyDef) (items : List (Except StorageError Row)) :
    Prop where
  id : ∀ row < batch.numRows, ∀ name ∈ shape.idColumns, ∀ column,
    batch.columnByName name = some column →
    (∀ slots, column ≠ .int64 slots) →
      ∃ reason, itemFor items row = some (.error (.nonConformingRow reason))
  property : ∀ row < batch.numRows, ∀ prop ∈ declared, ∀ column,
    batch.columnByName prop.name = some column →
    WrongKind column row prop.ty →
      ∃ reason, itemFor items row = some (.error (.nonConformingRow reason))

/-- A rebuild over the batches of a catalog, whatever is committed while it
runs, succeeds with typed records only; a value of another kind is refused with
its row. -/
structure TypeSound (catalog : ArrowCatalog) (schema : Schema)
    (partitioning : Partitioning) : Prop where
  records : ∀ partition labels builtAt,
    ((catalog.reader.builder schema partitioning).build partition labels
      builtAt).Always (RecordsTyped schema)
  value : ∀ array row ty, WrongKind array row ty →
    ∃ reason, readPropertyValue array row ty = .error (.nonConformingRow reason)
  node : ∀ batch nodeDef, WrongKindRefused batch nodeShape nodeDef.properties
    (batchToNodeRows (.ok batch) nodeDef)
  edge : ∀ batch edgeDef, WrongKindRefused batch edgeShape edgeDef.properties
    (batchToEdgeRows (.ok batch) edgeDef)

/-! ### Rows of a batch -/

theorem wrongKindRefused_of_reads {Row : Type} {batch : RecordBatch}
    {shape : RowShape Row} {declared : List PropertyDef}
    {items : List (Except StorageError Row)}
    (reads : ReadsRows batch shape declared items) :
    WrongKindRefused batch shape declared items := by
  constructor
  · intro row inside name listed column named other
    rcases reads row inside with ⟨r, -, -, -, readable⟩ | ⟨refused, -⟩
    · obtain ⟨slots, named'⟩ := readable.id name listed
      rw [named] at named'
      exact absurd (Option.some.inj named') (other slots)
    · exact refused
  · intro row inside prop listed column named wrong
    rcases reads row inside with ⟨r, -, -, -, readable⟩ | ⟨refused, -⟩
    · obtain ⟨column', named', right⟩ := readable.property prop listed
      rw [named] at named'
      cases named'
      exact absurd wrong right
    · exact refused

/-- A row handed out by a batch is the answer for a row of the batch. -/
theorem row_of_mem_nodes {batch : RecordBatch} {nodeDef : NodeDef} {r : NodeRow}
    (member : .ok r ∈ batchToNodeRows (.ok batch) nodeDef) :
    ∃ row < batch.numRows, itemFor (batchToNodeRows (.ok batch) nodeDef) row =
      some (.ok r) := by
  simp only [batchToNodeRows] at member ⊢
  split at member
  case h_1 => simp at member
  case h_2 idColumn named =>
    obtain ⟨row, inside, item⟩ := List.mem_map.mp member
    have bound := List.mem_range.mp inside
    exact ⟨row, bound, (itemFor_map _ bound).trans (congrArg some item)⟩

theorem row_of_mem_edges {batch : RecordBatch} {edgeDef : EdgeDef} {r : EdgeRow}
    (member : .ok r ∈ batchToEdgeRows (.ok batch) edgeDef) :
    ∃ row < batch.numRows, itemFor (batchToEdgeRows (.ok batch) edgeDef) row =
      some (.ok r) := by
  simp only [batchToEdgeRows] at member ⊢
  split at member
  case h_1 idColumn srcColumn dstColumn _ _ _ =>
    obtain ⟨row, inside, item⟩ := List.mem_map.mp member
    have bound := List.mem_range.mp inside
    exact ⟨row, bound, (itemFor_map _ bound).trans (congrArg some item)⟩
  case h_2 => simp at member

theorem typed_of_answer {Row : Type} {batch : RecordBatch} {shape : RowShape Row}
    {declared : List PropertyDef} {items : List (Except StorageError Row)}
    (reads : ReadsRows batch shape declared items) {row : Nat} {r : Row}
    (inside : row < batch.numRows) (answered : itemFor items row = some (.ok r)) :
    PropertiesTyped declared (shape.properties r) := by
  rcases reads row inside with ⟨r', answered', -, stores, -⟩ | ⟨⟨reason, refused⟩, -⟩
  · rw [answered] at answered'
    cases answered'
    exact stores.typed
  · rw [answered] at refused
    cases refused

theorem typed_of_mem_nodes {batch : Except String RecordBatch} {nodeDef : NodeDef}
    {r : NodeRow} (member : .ok r ∈ batchToNodeRows batch nodeDef) :
    PropertiesTyped nodeDef.properties r.properties := by
  cases batch with
  | error reason => simp [batchToNodeRows] at member
  | ok batch =>
      obtain ⟨row, inside, answered⟩ := row_of_mem_nodes member
      exact typed_of_answer (reads_node batch nodeDef) inside answered

theorem typed_of_mem_edges {batch : Except String RecordBatch} {edgeDef : EdgeDef}
    {r : EdgeRow} (member : .ok r ∈ batchToEdgeRows batch edgeDef) :
    PropertiesTyped edgeDef.properties r.properties := by
  cases batch with
  | error reason => simp [batchToEdgeRows] at member
  | ok batch =>
      obtain ⟨row, inside, answered⟩ := row_of_mem_edges member
      exact typed_of_answer (reads_edge batch edgeDef) inside answered

/-! ### Rebuilds -/

section Rebuild

variable {catalog : ArrowCatalog} {schema : Schema} {partitioning : Partitioning}

/-- Every row scanned under a label is typed. -/
theorem scanLabels_typed (labels : List Label) :
    (labels.foldlM (catalog.reader.builder schema partitioning).scanLabel
      (∅, [])).Always fun scanned =>
      ∀ a ∈ scanned.2, a.1 ∈ labels ∧ NodeTyped schema a.1 a.2.properties := by
  apply scanLabels_from (P := fun label row => NodeTyped schema label row.properties)
  intro label nodeDef snapshot stream row declared scanned member
  obtain ⟨batches, -, rfl⟩ := map_eq_ok_iff.mp scanned
  obtain ⟨batch, -, inBatch⟩ := List.mem_flatMap.mp member
  exact ⟨nodeDef, declared, typed_of_mem_nodes inBatch⟩

theorem scanEdgeTypes_typed (edgeDefs : List EdgeDef)
    (pinned : Std.ExtTreeMap String SnapshotId compare) :
    (edgeDefs.foldlM (catalog.reader.builder schema partitioning).scanEdgeType
      (pinned, [])).Always fun scanned =>
      ∀ a ∈ scanned.2, a.1 ∈ edgeDefs.map EdgeDef.edgeType ∧
        EdgeTyped schema a.1 a.2.properties := by
  apply scanEdgeTypes_from
    (P := fun edgeType row => EdgeTyped schema edgeType row.properties)
  intro edgeType edgeDef snapshot stream row declared scanned member
  obtain ⟨batches, -, rfl⟩ := map_eq_ok_iff.mp scanned
  obtain ⟨batch, -, inBatch⟩ := List.mem_flatMap.mp member
  exact ⟨edgeDef, declared, typed_of_mem_edges inBatch⟩

/-- A rebuild ends with typed records. -/
theorem build_typed (partition : PartitionId) (labels : List Label) (builtAt : Int) :
    ((catalog.reader.builder schema partitioning).build partition labels
      builtAt).Always (RecordsTyped schema) := by
  apply Client.Always.bind (scanLabels_typed labels)
  intro scannedNodes nodesTyped
  apply Client.Always.bind (scanEdgeTypes_typed _ _)
  intro scannedEdges edgesTyped
  apply Client.Always.pure
  constructor
  · intro v record found
    obtain ⟨-, node, member, -, rfl⟩ := nodeRecords_sound _ _ _ _ _ _ _ found
    exact (nodesTyped node member).2
  · intro e record found
    obtain ⟨edge, member, -, -, rfl⟩ := edgeRecords_sound _ _ _ _ _ _ _ found
    exact (edgesTyped edge member).2

end Rebuild

/-- Rebuilds are type sound, for every catalog of Arrow batches, schema and
partitioning: whatever the commits meanwhile, a record of a generation that is
built has values of the declared types only, and a column of another kind is
reported. -/
theorem typeSound (catalog : ArrowCatalog) (schema : Schema)
    (partitioning : Partitioning) : TypeSound catalog schema partitioning where
  records := build_typed
  value _ _ _ wrong := readPropertyValue_eq_error_iff.mpr wrong
  node batch nodeDef := wrongKindRefused_of_reads (reads_node batch nodeDef)
  edge batch edgeDef := wrongKindRefused_of_reads (reads_edge batch edgeDef)

end GraphEngine
