/-
Module: GraphEngine.Model.Catalog
Layer: Model
Purpose: The Iceberg reader over a catalog that other processes commit to.  The
  current snapshot of a table is whatever the catalog has when it is asked; a
  scan goes through a pinned snapshot.
Trusted boundary: a commit replaces the state of one table at once, and a
  snapshot never changes
Main exports: TableState, IcebergCatalogReader, IcebergCatalogReader.reader,
  IcebergCatalogReader.readerAt
-/
import GraphEngine.Lib.Client
import GraphEngine.Model.Storage

namespace GraphEngine

/-- What the catalog has for a table: no table, with the reason that loading it
gives, a table without a snapshot, or a current snapshot. -/
inductive TableState where
  | missing (reason : String)
  | uncommitted
  | current (snapshot : SnapshotId)
deriving DecidableEq, Repr

/-- The reader: its namespace, and the decoded rows of every snapshot of a
table. -/
structure IcebergCatalogReader where
  namespaceIdent : String
  nodeRows : String → SnapshotId → NodeDef →
    Except StorageError (List (Except StorageError NodeRow))
  edgeRows : String → SnapshotId → EdgeDef →
    Except StorageError (List (Except StorageError EdgeRow))

namespace IcebergCatalogReader

variable (catalogReader : IcebergCatalogReader)

/-- The answer of `latest_snapshot`, by what the catalog has. -/
def currentSnapshot (table : String) : TableState → Except StorageError SnapshotId
  | .missing reason => .error (.backend reason)
  | .uncommitted =>
      .error (.snapshotResolution
        s!"table {catalogReader.namespaceIdent}.{table} has no committed snapshot")
  | .current snapshot => .ok snapshot

/-- A scan of the table of a label: the rows of one snapshot, each read by
itself. -/
def scanNodes (schema : Schema) (label : Label) (snapshot : SnapshotId) :
    Except StorageError (List (Except StorageError NodeRow)) :=
  match schema.nodeDef label with
  | none => .error (.tableNotFound (nodeTableName label))
  | some nodeDef => catalogReader.nodeRows (nodeTableName label) snapshot nodeDef

/-- A scan of the table of an edge type. -/
def scanEdges (schema : Schema) (edgeType : EdgeType) (snapshot : SnapshotId) :
    Except StorageError (List (Except StorageError EdgeRow)) :=
  match schema.edgeDef edgeType with
  | none => .error (.tableNotFound (edgeTableName edgeType))
  | some edgeDef => catalogReader.edgeRows (edgeTableName edgeType) snapshot edgeDef

/-- `impl IcebergReader for IcebergCatalogReader`; the cells are the tables of
the catalog. -/
def reader : IcebergReader (Client String TableState StorageError) where
  latestSnapshot table := do
    let state ← Client.acquire table
    Client.ofExcept (catalogReader.currentSnapshot table state)
  scanNodes schema label snapshot :=
    Client.ofExcept (catalogReader.scanNodes schema label snapshot)
  scanEdges schema edgeType snapshot :=
    Client.ofExcept (catalogReader.scanEdges schema edgeType snapshot)

/-- The reader at one instant: the catalog has `catalog` throughout. -/
def readerAt (catalog : String → TableState) : IcebergReader (Except StorageError) where
  latestSnapshot table := catalogReader.currentSnapshot table (catalog table)
  scanNodes := catalogReader.scanNodes
  scanEdges := catalogReader.scanEdges

end IcebergCatalogReader

end GraphEngine
