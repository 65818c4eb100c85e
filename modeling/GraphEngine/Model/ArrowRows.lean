/-
Module: GraphEngine.Model.ArrowRows
Layer: Model
Purpose: From Arrow record batches to rows.  A column is an array of one kind
  whose slots each have a value and a validity bit; the reader casts a column to
  the kind that the declared type asks for and reads one slot.
Trusted boundary: the batches of a scan come from the Iceberg crate and are
  parameters
Main exports: ArrowArray, RecordBatch, readPropertyValue, batchToNodeRows,
  batchToEdgeRows, ArrowCatalog
-/
import GraphEngine.Model.Catalog
import GraphEngine.Model.Evolution
import Mathlib.Algebra.Ring.Int.Defs

namespace GraphEngine

/-! ### Arrow arrays -/

/-- A slot of an array: what its buffer holds, and whether the slot is valid
(not null). -/
structure Slot (α : Type) where
  value : α
  valid : Bool
deriving DecidableEq, Repr

/-- An Arrow array.  A list array has the elements of all its rows in one array,
and for each row where they start and how many they are.  `other` is any array
that the reader never casts to. -/
inductive ArrowArray where
  | int64 (slots : List (Slot Int))
  | float64 (slots : List (Slot F64))
  | boolean (slots : List (Slot Bool))
  | string (slots : List (Slot String))
  | timestampMicrosecond (slots : List (Slot Int))
  | binary (slots : List (Slot (List UInt8)))
  | list (values : ArrowArray) (slots : List (Slot (Nat × Nat)))
  | other (slots : List (Slot Unit))
deriving Repr

namespace ArrowArray

/-- The number of slots of a column. -/
def length : ArrowArray → Nat
  | .int64 slots => slots.length
  | .float64 slots => slots.length
  | .boolean slots => slots.length
  | .string slots => slots.length
  | .timestampMicrosecond slots => slots.length
  | .binary slots => slots.length
  | .list _ slots => slots.length
  | .other slots => slots.length

def slotIsNull {α : Type} (slots : List (Slot α)) (row : Nat) : Bool :=
  (slots[row]?).any fun slot => !slot.valid

/-- `Array::is_null`: the validity bit, whatever the type of the column. -/
def isNull : ArrowArray → Nat → Bool
  | .int64 slots, row => slotIsNull slots row
  | .float64 slots, row => slotIsNull slots row
  | .boolean slots, row => slotIsNull slots row
  | .string slots, row => slotIsNull slots row
  | .timestampMicrosecond slots, row => slotIsNull slots row
  | .binary slots, row => slotIsNull slots row
  | .list _ slots, row => slotIsNull slots row
  | .other slots, row => slotIsNull slots row

/-- `slice`: the rows from one on. -/
def slice (start count : Nat) : ArrowArray → ArrowArray
  | .int64 slots => .int64 ((slots.drop start).take count)
  | .float64 slots => .float64 ((slots.drop start).take count)
  | .boolean slots => .boolean ((slots.drop start).take count)
  | .string slots => .string ((slots.drop start).take count)
  | .timestampMicrosecond slots => .timestampMicrosecond ((slots.drop start).take count)
  | .binary slots => .binary ((slots.drop start).take count)
  | .list values slots => .list values ((slots.drop start).take count)
  | .other slots => .other ((slots.drop start).take count)

/-- `value`: what the buffer holds for a row, whether the slot is valid or not.
Rows read are in range. -/
def valueOr {α : Type} (default : α) (slots : List (Slot α)) (row : Nat) : α :=
  ((slots[row]?).map Slot.value).getD default

/-- The elements of one row of a list array. -/
def elementsAt (values : ArrowArray) (slots : List (Slot (Nat × Nat))) (row : Nat) :
    ArrowArray :=
  let bounds := valueOr (0, 0) slots row
  values.slice bounds.1 bounds.2

end ArrowArray

/-- Named columns of one length. -/
structure RecordBatch where
  columns : List (String × ArrowArray)
  numRows : Nat
  length_eq : ∀ column ∈ columns, column.2.length = numRows

/-- The first column of the name, as `column_by_name` finds it. -/
def RecordBatch.columnByName (batch : RecordBatch) (name : String) : Option ArrowArray :=
  (batch.columns.find? fun column => column.1 = name).map Prod.snd

/-! ### Values -/

/-- What a failed `downcast` reports. -/
def downcastError (ty : ScalarType) : StorageError :=
  .nonConformingRow
    s!"column declared as {ty.debug} does not have the matching Arrow array type"

/-- `read_property_value` at `Float64`, as which the elements of a vector are
read. -/
def readFloat64 (array : ArrowArray) (row : Nat) : Except StorageError PropertyValue :=
  if array.isNull row then .ok .null
  else
    match array with
    | .float64 slots => .ok (.float64 (ArrowArray.valueOr ⟨0⟩ slots row))
    | _ => .error (downcastError .float64)

/-- The value of a row as the declared type.  A null is read before the kind of
the array is looked at. -/
def readPropertyValue (array : ArrowArray) (row : Nat) (ty : ScalarType) :
    Except StorageError PropertyValue :=
  if array.isNull row then .ok .null
  else
    match ty with
    | .int64 =>
        match array with
        | .int64 slots => .ok (.int64 (ArrowArray.valueOr 0 slots row))
        | _ => .error (downcastError .int64)
    | .float64 => readFloat64 array row
    | .bool =>
        match array with
        | .boolean slots => .ok (.bool (ArrowArray.valueOr false slots row))
        | _ => .error (downcastError .bool)
    | .string =>
        match array with
        | .string slots => .ok (.string (ArrowArray.valueOr "" slots row))
        | _ => .error (downcastError .string)
    | .timestamp =>
        match array with
        | .timestampMicrosecond slots => .ok (.timestamp (ArrowArray.valueOr 0 slots row))
        | _ => .error (downcastError .timestamp)
    | .bytes =>
        match array with
        | .binary slots => .ok (.bytes (ArrowArray.valueOr [] slots row))
        | _ => .error (downcastError .bytes)
    | .list element =>
        match array with
        | .list values slots => do
            let elements := values.elementsAt slots row
            let items ← (List.range elements.length).mapM fun i =>
                readPropertyValue elements i element
            .ok (.list items)
        | _ => .error (downcastError (.list element))
    | .vector dim =>
        match array with
        | .list values slots => do
            let elements := values.elementsAt slots row
            let items ← (List.range elements.length).mapM fun i => readFloat64 elements i
            .ok (.list items)
        | _ => .error (downcastError (.vector dim))

/-! ### Rows -/

/-- `as u64`: the bits of an `i64`. -/
def asU64 (value : Int) : Nat := (value % 2 ^ 64).toNat

/-- Ids are stored as signed integers.  The validity of the slot is not looked
at. -/
def readId (column : ArrowArray) (row : Nat) : Except StorageError Nat :=
  match column with
  | .int64 slots => .ok (asU64 (ArrowArray.valueOr 0 slots row))
  | _ => .error (.nonConformingRow "id column is not Int64")

/-- One property, under its name.  Whether it is optional is not looked at. -/
def readProperty (batch : RecordBatch) (row : Nat) (prop : PropertyDef) :
    Except StorageError (String × PropertyValue) :=
  match batch.columnByName prop.name with
  | none => .error (.nonConformingRow s!"missing column {prop.name}")
  | some column =>
      (readPropertyValue column row prop.ty).map fun value => (prop.name, value)

/-- The declared properties of a row that are not null, each read at its
declared type; the first that cannot be read fails the row. -/
def readProperties (batch : RecordBatch) (row : Nat) (properties : List PropertyDef) :
    Except StorageError Properties :=
  (properties.mapM (readProperty batch row)).map collectMap

/-- The items of one batch of a node table. -/
def batchToNodeRows (batch : Except String RecordBatch) (nodeDef : NodeDef) :
    List (Except StorageError NodeRow) :=
  match batch with
  | .error reason => [.error (.backend reason)]
  | .ok batch =>
      match batch.columnByName "node_id" with
      | none => [.error (.nonConformingRow "missing node_id column")]
      | some idColumn =>
          (List.range batch.numRows).map fun row => do
            let id ← readId idColumn row
            let properties ← readProperties batch row nodeDef.properties
            .ok { id := { val := id }, properties := properties }

/-- The items of one batch of an edge table: a row for every slot, or the reason
why it does not conform; a batch that could not be read, or without one of the
id columns, is a single failure. -/
def batchToEdgeRows (batch : Except String RecordBatch) (edgeDef : EdgeDef) :
    List (Except StorageError EdgeRow) :=
  match batch with
  | .error reason => [.error (.backend reason)]
  | .ok batch =>
      match batch.columnByName "edge_id", batch.columnByName "src_node_id",
        batch.columnByName "dst_node_id" with
      | some edgeIdColumn, some srcColumn, some dstColumn =>
          (List.range batch.numRows).map fun row => do
            let id ← readId edgeIdColumn row
            let src ← readId srcColumn row
            let dst ← readId dstColumn row
            let properties ← readProperties batch row edgeDef.properties
            .ok { id := { val := id }, src := { val := src }, dst := { val := dst },
                  properties := properties }
      | _, _, _ =>
          [.error (.nonConformingRow "missing edge_id/src_node_id/dst_node_id column")]

/-! ### Tables -/

/-- The batches of every snapshot of a table; the scan itself may fail. -/
structure ArrowCatalog where
  namespaceIdent : String
  arrowStream : String → SnapshotId →
    Except StorageError (List (Except String RecordBatch))

/-- The reader over the batches: the items of all batches, in order. -/
def ArrowCatalog.reader (catalog : ArrowCatalog) : IcebergCatalogReader where
  namespaceIdent := catalog.namespaceIdent
  nodeRows table snapshot nodeDef :=
    (catalog.arrowStream table snapshot).map fun batches =>
      batches.flatMap fun batch => batchToNodeRows batch nodeDef
  edgeRows table snapshot edgeDef :=
    (catalog.arrowStream table snapshot).map fun batches =>
      batches.flatMap fun batch => batchToEdgeRows batch edgeDef

end GraphEngine
