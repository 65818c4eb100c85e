/-
Module: GraphEngine.Model.Schema
Layer: Model
Purpose: The declarative graph schema: identifiers, scalar types, node and edge
  declarations, and the formula that assigns a node to a partition.
Trusted boundary: the hash behind `partitionOf` is a third-party function and
  stays a parameter
Main exports: NodeId, EdgeId, Label, EdgeType, Schema, Partitioning
-/
import GraphEngine.Lib.Collections
import Std.Data.ExtTreeMap

namespace GraphEngine

open Std (ExtTreeMap)

/-! ### Identifiers -/

/-- Global node identifier. -/
structure NodeId where
  val : Nat
deriving DecidableEq, Repr

/-- Global edge identifier, independent of the endpoints: the graph is a
multigraph. -/
structure EdgeId where
  val : Nat
deriving DecidableEq, Repr

/-- A node's single type. -/
structure Label where
  name : String
deriving DecidableEq, Repr

/-- An edge's single type. -/
structure EdgeType where
  name : String
deriving DecidableEq, Repr

/-- Nodes with one number are one. -/
theorem NodeId.val_injective (a b : NodeId) (same : a.val = b.val) : a = b := by
  cases a; cases b; cases same; rfl

/-- Edges with one number are one. -/
theorem EdgeId.val_injective (a b : EdgeId) (same : a.val = b.val) : a = b := by
  cases a; cases b; cases same; rfl

/-- Labels with one name are one. -/
theorem Label.name_injective (a b : Label) (same : a.name = b.name) : a = b := by
  cases a; cases b; cases same; rfl

/-- Edge types with one name are one. -/
theorem EdgeType.name_injective (a b : EdgeType) (same : a.name = b.name) : a = b := by
  cases a; cases b; cases same; rfl

instance : Ord NodeId := ⟨compareOn NodeId.val⟩
instance : Ord EdgeId := ⟨compareOn EdgeId.val⟩
instance : Ord Label := ⟨compareOn Label.name⟩
instance : Ord EdgeType := ⟨compareOn EdgeType.name⟩

instance : Std.TransOrd NodeId := inferInstanceAs (Std.TransCmp (compareOn NodeId.val))
instance : Std.TransOrd EdgeId := inferInstanceAs (Std.TransCmp (compareOn EdgeId.val))
instance : Std.TransOrd Label := inferInstanceAs (Std.TransCmp (compareOn Label.name))
instance : Std.TransOrd EdgeType :=
  inferInstanceAs (Std.TransCmp (compareOn EdgeType.name))

instance : Std.LawfulEqOrd NodeId := lawfulEqCmp_compareOn NodeId.val_injective
instance : Std.LawfulEqOrd EdgeId := lawfulEqCmp_compareOn EdgeId.val_injective
instance : Std.LawfulEqOrd Label := lawfulEqCmp_compareOn Label.name_injective
instance : Std.LawfulEqOrd EdgeType := lawfulEqCmp_compareOn EdgeType.name_injective

/-! ### Declarations -/

/-- Scalar property types. -/
inductive ScalarType where
  | int64
  | float64
  | bool
  | string
  | timestamp
  | bytes
  | list (element : ScalarType)
  | vector (dim : Nat)
deriving DecidableEq, Repr

/-- A property declaration on a node or edge type. -/
structure PropertyDef where
  name : String
  ty : ScalarType
  optional : Bool
  indexed : Bool
deriving DecidableEq, Repr

/-- Declaration of one node label. -/
structure NodeDef where
  label : Label
  properties : List PropertyDef
deriving DecidableEq, Repr

/-- Declaration of one edge type, with typed endpoints. -/
structure EdgeDef where
  edgeType : EdgeType
  source : Label
  target : Label
  properties : List PropertyDef
deriving DecidableEq, Repr

/-- A versioned schema. -/
structure Schema where
  version : String
  nodes : ExtTreeMap Label NodeDef compare
  edges : ExtTreeMap EdgeType EdgeDef compare

namespace Schema

/-- The definition of a label. -/
def nodeDef (schema : Schema) (label : Label) : Option NodeDef := schema.nodes[label]?

/-- The definition of an edge type. -/
def edgeDef (schema : Schema) (edgeType : EdgeType) : Option EdgeDef :=
  schema.edges[edgeType]?

end Schema

/-! ### Partitioning -/

/-- The assignment of nodes to a fixed number of partitions.  The source
computes it as `stable_hash(node_id) % n_partitions`; all the engine relies on
is that the result is in range. -/
structure Partitioning where
  nPartitions : Nat
  partitionOf : NodeId → Nat
  partitionOf_lt : ∀ id, partitionOf id < nPartitions

/-- The source's formula, over any hash. -/
def Partitioning.ofHash (stableHash : Nat → Nat) (nPartitions : Nat)
    (positive : 0 < nPartitions) : Partitioning where
  nPartitions := nPartitions
  partitionOf id := stableHash id.val % nPartitions
  partitionOf_lt _ := Nat.mod_lt _ positive

end GraphEngine
