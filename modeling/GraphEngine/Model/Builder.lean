/-
Module: GraphEngine.Model.Builder
Layer: Model
Purpose: The full rebuild of a partition's generation: pin a snapshot per table,
  scan every row, keep the nodes the partition owns, and construct the topology,
  the property index and the records.
Trusted boundary: the storage backend behind `IcebergReader`; the clock is a
  parameter
Main exports: buildTopology, buildPropertyIndex, IcebergIndexBuilder.build,
  assemble
-/
import GraphEngine.Model.Index

namespace GraphEngine

open Std (ExtTreeMap)

/-! ### Topology

The source counts positions and offsets in `u32`; here they are natural numbers.
`PackedTopology` builds the bounded one, and `PackedTopology.build_eq` shows that the
two are the same below 2^32 nodes and 2^32 edge rows. -/

/-- Owner and other endpoint of an edge row, seen in one direction. -/
def orient (outgoing : Bool) (row : EdgeRow) : NodeId × NodeId :=
  if outgoing then (row.src, row.dst) else (row.dst, row.src)

/-- The adjacency entry of an edge row.  The other endpoint is local when the
partition has it, remote when it hashes to another partition, and missing when
it hashes here but was not scanned. -/
def adjacencyEntry (partition : PartitionId)
    (idToLocal : ExtTreeMap NodeId LocalIdx compare) (outgoing : Bool)
    (partitioning : Partitioning) (edge : EdgeType × EdgeRow) : AdjacencyEntry :=
  let dst := (orient outgoing edge.2).2
  let dstLocal := if dst ∈ idToLocal then some dst else none
  let dstHome := partitioning.partition dst
  { edgeId := edge.2.id
    edgeType := edge.1
    dstLocal := dstLocal
    dstRemote :=
      if dstLocal.isNone ∧
        dstHome ≠ partition then some { partition := dstHome, node := dst }
      else none }

/-- Offsets and entries of one direction. -/
def buildCsr (partition : PartitionId) (nodeIds : List NodeId)
    (idToLocal : ExtTreeMap NodeId LocalIdx compare) (edges : List (EdgeType × EdgeRow))
    (outgoing : Bool) (partitioning : Partitioning) : List Nat × List AdjacencyEntry :=
  csrLayout
    (fillRows (fun edge => (idToLocal[(orient outgoing edge.2).1]?).map LocalIdx.val)
      (adjacencyEntry partition idToLocal outgoing partitioning) nodeIds.length edges)

/-- Positions of the owned nodes; of two rows with one id the later one counts. -/
def positions (nodeIds : List NodeId) : ExtTreeMap NodeId LocalIdx compare :=
  collectMap (nodeIds.zipIdx.map fun entry => (entry.1, { val := entry.2 }))

/-- A position that is given to an id lies inside the list of ids. -/
theorem positions_lt {nodeIds : List NodeId} (id : NodeId) (i : LocalIdx)
    (found : (positions nodeIds)[id]? = some i) : i.val < nodeIds.length := by
  have member := mem_of_getElem?_collectMap found
  obtain ⟨entry, inZip, same⟩ := List.mem_map.mp member
  have position := List.snd_lt_of_mem_zipIdx inZip
  cases same
  simpa using position

/-- The offsets of a built half are as many as the nodes and one, and the last
of them is the number of entries. -/
theorem buildCsr_shape (partition : PartitionId) (nodeIds : List NodeId)
    (idToLocal : ExtTreeMap NodeId LocalIdx compare)
    (edges : List (EdgeType × EdgeRow)) (outgoing : Bool)
    (partitioning : Partitioning) :
    CsrShape nodeIds.length
      (buildCsr partition nodeIds idToLocal edges outgoing partitioning).1
      (buildCsr partition nodeIds idToLocal edges outgoing partitioning).2 := by
  have shape := csrLayout_shape
    (fillRows (fun edge => (idToLocal[(orient outgoing edge.2).1]?).map LocalIdx.val)
      (adjacencyEntry partition idToLocal outgoing partitioning) nodeIds.length edges)
  rwa [length_fillRows] at shape

/-- The adjacency of one partition: `nodes` are the rows the partition owns,
`edges` all the rows scanned.  Positions are given in the order of the rows, and
an entry is made at the end of an edge that is owned. -/
def buildTopology (partition : PartitionId) (nodes : List (Label × NodeRow))
    (edges : List (EdgeType × EdgeRow)) (partitioning : Partitioning) :
    TopologicalIndex :=
  let nodeIds := nodes.map fun node => node.2.id
  { nodeIds := nodeIds
    idToLocal := positions nodeIds
    outOffsets :=
      (buildCsr partition nodeIds (positions nodeIds) edges true partitioning).1
    outEntries :=
      (buildCsr partition nodeIds (positions nodeIds) edges true partitioning).2
    inOffsets :=
      (buildCsr partition nodeIds (positions nodeIds) edges false partitioning).1
    inEntries :=
      (buildCsr partition nodeIds (positions nodeIds) edges false partitioning).2
    idToLocal_lt := positions_lt
    outShape :=
      buildCsr_shape partition nodeIds (positions nodeIds) edges true partitioning
    inShape :=
      buildCsr_shape partition nodeIds (positions nodeIds) edges false partitioning }

/-! ### Property index -/

/-- The index key of a value, if its type has one. -/
def propertyKey : PropertyValue → Option PropertyKey
  | .int64 v => some (.int64 v)
  | .bool v => some (.bool v)
  | .string v => some (.string v)
  | .timestamp v => some (.timestamp v)
  | .float64 _ | .bytes _ | .list _ | .null => none

/-- Push a node under one property of its label. -/
def indexEntry
    (byKey : ExtTreeMap (String × String)
      (ExtTreeMap PropertyKey (List NodeId) compare) compare)
    (slot : String × String) (key : PropertyKey) (id : NodeId) :
    ExtTreeMap (String × String) (ExtTreeMap PropertyKey (List NodeId) compare) compare :=
  byKey.alter slot fun tree => some (pushGroup (tree.getD ∅) key id)

/-- The slots and keys under which one node row is indexed, in the order of the
declaration. -/
def indexedKeys (schema : Schema) (node : Label × NodeRow) :
    List ((String × String) × PropertyKey) :=
  match schema.nodeDef node.1 with
  | none => []
  | some nodeDef =>
      (nodeDef.properties.filter fun prop => prop.indexed).filterMap fun prop =>
        ((node.2.properties[prop.name]?).bind propertyKey).map fun key =>
          ((node.1.name, prop.name), key)

/-- Index the node properties that the schema marks as indexed. -/
def buildPropertyIndex (schema : Schema) (nodes : List (Label × NodeRow)) :
    PropertyIndex where
  byKey :=
    nodes.foldl
      (fun byKey node =>
        (indexedKeys schema node).foldl
          (fun byKey entry => indexEntry byKey entry.1 entry.2 node.2.id)
          byKey)
      ∅

/-! ### The rebuild -/

/-- The generation built from the scanned rows: everything after the scans.
Nodes are counted once those of other partitions are dropped, edges before. -/
def assemble (schema : Schema) (partitioning : Partitioning)
    (partition : PartitionId)
    (snapshotByTable : ExtTreeMap String SnapshotId compare) (builtAtUnixMs : Int)
    (scannedNodes : List (Label × NodeRow)) (edges : List (EdgeType × EdgeRow)) :
    IndexGeneration :=
  let nodes := scannedNodes.filter fun node =>
    partitioning.partitionOf node.2.id = partition.val
  { genMeta :=
      { partition := partition
        snapshotByTable := snapshotByTable
        builtAtUnixMs := builtAtUnixMs
        nodeCount := nodes.length
        edgeCount := edges.length }
    topology := buildTopology partition nodes edges partitioning
    properties := buildPropertyIndex schema nodes
    nodeRecords := collectMap (nodes.map fun node =>
      (node.2.id, { label := node.1, properties := node.2.properties }))
    -- an edge's record is owned by the partition that owns its source
    edgeRecords := collectMap
      ((edges.filter fun edge =>
          partitioning.partitionOf edge.2.src = partition.val).map fun edge =>
        (edge.2.id, { edgeType := edge.1, properties := edge.2.properties })) }

/-- Backed by a reader and the schema that names which tables to scan. -/
structure IcebergIndexBuilder (m : Type → Type) where
  reader : IcebergReader m
  schema : Schema
  partitioning : Partitioning

namespace IcebergIndexBuilder

variable {m : Type → Type} [Monad m] [MonadExcept StorageError m]

/-- Drain a stream of rows; the first error ends the rebuild. -/
def drain {Row : Type} (stream : List (Except StorageError Row)) : m (List Row) :=
  stream.mapM fun item =>
    match item with
    | .ok row => pure row
    | .error e => throw e

/-- Scan one node table at its latest snapshot. -/
def scanLabel (builder : IcebergIndexBuilder m)
    (acc : ExtTreeMap String SnapshotId compare × List (Label × NodeRow))
    (label : Label) :
    m (ExtTreeMap String SnapshotId compare × List (Label × NodeRow)) := do
  let table := nodeTableName label
  let snapshot ← builder.reader.latestSnapshot table
  let stream ← builder.reader.scanNodes builder.schema label snapshot
  let rows ← drain stream
  pure (acc.1.insert table snapshot, acc.2 ++ rows.map fun row => (label, row))

/-- Scan one edge table at its latest snapshot. -/
def scanEdgeType (builder : IcebergIndexBuilder m)
    (acc : ExtTreeMap String SnapshotId compare × List (EdgeType × EdgeRow))
    (edgeDef : EdgeDef) :
    m (ExtTreeMap String SnapshotId compare × List (EdgeType × EdgeRow)) := do
  let table := edgeTableName edgeDef.edgeType
  let snapshot ← builder.reader.latestSnapshot table
  let stream ← builder.reader.scanEdges builder.schema edgeDef.edgeType snapshot
  let rows ← drain stream
  pure (acc.1.insert table snapshot, acc.2 ++ rows.map fun row => (edgeDef.edgeType, row))

/-- `IcebergIndexBuilder::build`. -/
def build (builder : IcebergIndexBuilder m) (partition : PartitionId)
    (labels : List Label) (builtAtUnixMs : Int) : m IndexGeneration := do
  let scannedNodes ← labels.foldlM builder.scanLabel (∅, [])
  let scannedEdges ← (builder.schema.edges.toList.map Prod.snd).foldlM
      builder.scanEdgeType
    (scannedNodes.1, [])
  pure (assemble builder.schema builder.partitioning partition
    scannedEdges.1 builtAtUnixMs
    scannedNodes.2 scannedEdges.2)

end IcebergIndexBuilder

end GraphEngine
