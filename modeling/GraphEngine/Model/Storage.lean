/-
Module: GraphEngine.Model.Storage
Layer: Model
Purpose: Runtime property values, the rows of the node and edge tables, and the
  read-only access to Iceberg that the index builder goes through.
Trusted boundary: `IcebergReader` is the interface of the storage backend;
  nothing is assumed of it here
Main exports: F64, PropertyValue, NodeRow, EdgeRow, StorageError, IcebergReader
-/
import GraphEngine.Model.Schema

namespace GraphEngine

open Std (ExtTreeMap)

/-! ### Floats -/

/-- An IEEE 754 binary64 value, by its bit pattern. -/
structure F64 where
  bits : BitVec 64
deriving DecidableEq, Repr

namespace F64

/-- Exponent and fraction without the sign: the order of magnitudes is the order
of these numbers. -/
def magnitude (x : F64) : Nat := x.bits.toNat % 0x8000000000000000

/-- The sign bit. -/
def negative (x : F64) : Bool := x.bits.msb

/-- All exponent bits set and a non-zero fraction. -/
def isNaN (x : F64) : Bool := decide (0x7FF0000000000000 < x.magnitude)

/-- Position on the number line; both zeros are at `0`. -/
def position (x : F64) : Int := if x.negative then -(x.magnitude : Int) else x.magnitude

/-- `f64::partial_cmp`: a NaN is incomparable with everything. -/
def partialCmp (x y : F64) : Option Ordering :=
  if x.isNaN || y.isNaN then none else some (compare x.position y.position)

/-- `f64::eq`. -/
def eq (x y : F64) : Bool := x.partialCmp y == some .eq

end F64

/-! ### Values and rows -/

/-- Runtime property value. -/
inductive PropertyValue where
  | int64 (value : Int)
  | float64 (value : F64)
  | bool (value : Bool)
  | string (value : String)
  | timestamp (value : Int)
  | bytes (value : List UInt8)
  | list (value : List PropertyValue)
  | null
deriving Repr

/-- The properties of a record, by name. -/
abbrev Properties := ExtTreeMap String PropertyValue compare

/-- A row of a node table. -/
structure NodeRow where
  id : NodeId
  properties : Properties

/-- A row of an edge table. -/
structure EdgeRow where
  id : EdgeId
  src : NodeId
  dst : NodeId
  properties : Properties

/-- Handle to one Iceberg snapshot. -/
structure SnapshotId where
  val : Int
deriving DecidableEq, Repr

/-- What a catalog or a reader reports. -/
inductive StorageError where
  | tableNotFound (table : String)
  | snapshotResolution (reason : String)
  | nonConformingRow (reason : String)
  | backend (reason : String)
deriving DecidableEq, Repr

/-! ### Table access -/

/-- Table name for a node label, e.g. `Person` -> `nodes_person`.
`to_lowercase` maps every letter of Unicode and `String.toLower` those of ASCII;
the labels and edge types of a parsed schema are identifiers, which have no
others. -/
def nodeTableName (label : Label) : String := "nodes_" ++ label.name.toLower

/-- Table name for an edge type, e.g. `WORKS_AT` -> `edges_works_at`; the same
holds of its letters. -/
def edgeTableName (edgeType : EdgeType) : String := "edges_" ++ edgeType.name.toLower

/-- Read-only Iceberg access in a monad `m`.  A scan is a stream whose items may
each be an error. -/
structure IcebergReader (m : Type → Type) where
  latestSnapshot : String → m SnapshotId
  scanNodes : Schema → Label → SnapshotId → m (List (Except StorageError NodeRow))
  scanEdges : Schema → EdgeType → SnapshotId → m (List (Except StorageError EdgeRow))

end GraphEngine
