/-
Module: GraphEngine.Model.Index
Layer: Model
Purpose: One index generation of a partition: the compressed adjacency in both
  directions, the property index and the retained records, with the lookups that
  queries make.
Trusted boundary: positions and offsets are unbounded here (the source stores
  them as 32-bit numbers)
Main exports: AdjacencyEntry, TopologicalIndex, PropertyKey, PropertyIndex,
  IndexGeneration, GenerationHandle
-/
import GraphEngine.Lib.Csr
import GraphEngine.Model.Storage

namespace GraphEngine

open Std (ExtTreeMap)

/-! ### Partitions and adjacency entries -/

/-- A partition by its number. -/
structure PartitionId where
  val : Nat
deriving DecidableEq, Repr

/-- Partitions with one number are one. -/
theorem PartitionId.val_injective (a b : PartitionId) (same : a.val = b.val) : a = b := by
  cases a; cases b; cases same; rfl

instance : Ord PartitionId := ⟨compareOn PartitionId.val⟩
instance : Std.TransOrd PartitionId :=
  inferInstanceAs (Std.TransCmp (compareOn PartitionId.val))
instance : Std.LawfulEqOrd PartitionId := lawfulEqCmp_compareOn PartitionId.val_injective

/-- The partition a node is assigned to. -/
def Partitioning.partition (partitioning : Partitioning) (id : NodeId) : PartitionId :=
  ⟨partitioning.partitionOf id⟩

/-- A node that exists outside the partition. -/
structure RemoteRef where
  partition : PartitionId
  node : NodeId
deriving DecidableEq, Repr

/-- Position of a node in the node array of a generation. -/
structure LocalIdx where
  val : Nat
deriving DecidableEq, Repr

/-- One adjacency entry.  The endpoint is local, or else remote, or else
missing. -/
structure AdjacencyEntry where
  edgeId : EdgeId
  edgeType : EdgeType
  dstLocal : Option NodeId
  dstRemote : Option RemoteRef
deriving DecidableEq, Repr

/-! ### Topology -/

/-- Compressed adjacency in both directions.  The last four fields are what the
builder establishes: every node position has a row, and no row leaves the
entries. -/
structure TopologicalIndex where
  nodeIds : List NodeId
  idToLocal : ExtTreeMap NodeId LocalIdx compare
  outOffsets : List Nat
  outEntries : List AdjacencyEntry
  inOffsets : List Nat
  inEntries : List AdjacencyEntry
  idToLocal_lt : ∀ (id : NodeId) (i : LocalIdx), idToLocal[id]? = some i →
    i.val < nodeIds.length
  outShape : CsrShape nodeIds.length outOffsets outEntries
  inShape : CsrShape nodeIds.length inOffsets inEntries

namespace TopologicalIndex

/-- The row of a node; a node without a position has no neighbors. -/
def neighbors (topology : TopologicalIndex) (node : NodeId) (offsets : List Nat)
    (entries : List AdjacencyEntry) : List AdjacencyEntry :=
  match topology.idToLocal[node]? with
  | some i => csrRow offsets entries i.val
  | none => []

/-- The entries of the edges that leave a node. -/
def outNeighbors (topology : TopologicalIndex) (node : NodeId) : List AdjacencyEntry :=
  topology.neighbors node topology.outOffsets topology.outEntries

/-- The entries of the edges that reach a node. -/
def inNeighbors (topology : TopologicalIndex) (node : NodeId) : List AdjacencyEntry :=
  topology.neighbors node topology.inOffsets topology.inEntries

end TopologicalIndex

/-! ### Property index -/

/-- Orderable wrapper of the values that can be indexed. -/
inductive PropertyKey where
  | int64 (value : Int)
  | bool (value : Bool)
  | string (value : String)
  | timestamp (value : Int)
deriving DecidableEq, Repr

namespace PropertyKey

/-- The derived order: the variant first, then the payload. -/
def variant : PropertyKey → Nat
  | .int64 _ => 0
  | .bool _ => 1
  | .string _ => 2
  | .timestamp _ => 3

/-- The number a key is compared by among keys of its variant. -/
def number : PropertyKey → Int
  | .int64 v => v
  | .bool v => if v then 1 else 0
  | .string _ => 0
  | .timestamp v => v

/-- The text a key is compared by among keys of its variant. -/
def text : PropertyKey → String
  | .string v => v
  | _ => ""

/-- A key is its variant, its number and its text. -/
theorem ext_parts {a b : PropertyKey} (variants : a.variant = b.variant)
    (numbers : a.number = b.number) (texts : a.text = b.text) : a = b := by
  cases a <;> cases b <;> simp_all [variant, number, text]
  case bool.bool v w => cases v <;> cases w <;> simp_all

instance : Ord PropertyKey :=
  ⟨compareLex (compareOn variant) (compareLex (compareOn number) (compareOn text))⟩

instance : Std.TransOrd PropertyKey :=
  inferInstanceAs
    (Std.TransCmp (compareLex (compareOn variant)
        (compareLex (compareOn number) (compareOn text))))

instance : Std.LawfulEqOrd PropertyKey where
  eq_of_compare {a b} same := by
    have parts : (compare a.variant b.variant).then
        ((compare a.number b.number).then (compare a.text b.text)) = .eq := same
    rw [Ordering.then_eq_eq, Ordering.then_eq_eq] at parts
    exact ext_parts (Std.LawfulEqOrd.eq_of_compare parts.1)
      (Std.LawfulEqOrd.eq_of_compare parts.2.1) (Std.LawfulEqOrd.eq_of_compare parts.2.2)
  compare_self := Std.ReflOrd.compare_self

end PropertyKey

/-- One end of a key range. -/
inductive Bound where
  | included (key : PropertyKey)
  | excluded (key : PropertyKey)
  | unbounded
deriving DecidableEq, Repr

/-- Whether a key is above a lower bound. -/
def Bound.allowsBelow : Bound → PropertyKey → Bool
  | .included bound, key => (compare bound key).isLE
  | .excluded bound, key => (compare bound key).isLT
  | .unbounded, _ => true

/-- Whether a key is below an upper bound. -/
def Bound.allowsAbove : Bound → PropertyKey → Bool
  | .included bound, key => (compare key bound).isLE
  | .excluded bound, key => (compare key bound).isLT
  | .unbounded, _ => true

/-- The pairs of bounds that a sorted map ranges over.  It panics on a lower end
past the upper one, and on two ends that exclude the same key. -/
def Bound.accepted : Bound → Bound → Bool
  | .excluded lower, .excluded upper => (compare lower upper).isLT
  | .included lower, .included upper => (compare lower upper).isLE
  | .included lower, .excluded upper => (compare lower upper).isLE
  | .excluded lower, .included upper => (compare lower upper).isLE
  | _, _ => true

instance slotOrd : Ord (String × String) := lexOrd
instance slotTransOrd : Std.TransOrd (String × String) :=
  inferInstanceAs (@Std.TransOrd (String × String) lexOrd)
instance slotLawfulEqOrd : Std.LawfulEqOrd (String × String) :=
  inferInstanceAs (@Std.LawfulEqOrd (String × String) lexOrd)

/-- The sorted values of the indexed properties, by label and property. -/
structure PropertyIndex where
  byKey : ExtTreeMap (String × String)
    (ExtTreeMap PropertyKey (List NodeId) compare) compare

namespace PropertyIndex

/-- The nodes of a label with a key under a property. -/
def lookupEq (index : PropertyIndex) (labelOrType property : String) (key : PropertyKey) :
    List NodeId :=
  ((index.byKey[(labelOrType, property)]?).bind fun tree => tree[key]?).getD []

/-- Range lookup in key order, for bounds with a non-empty span. -/
def lookupRange (index : PropertyIndex) (labelOrType property : String)
    (lower upper : Bound) : List NodeId :=
  match index.byKey[(labelOrType, property)]? with
  | some tree =>
      (tree.toList.filter fun entry => lower.allowsBelow entry.1 &&
        upper.allowsAbove entry.1).flatMap
        Prod.snd
  | none => []

/-- `lookup_range` on any bounds.  `none` is the panic of a sorted map with keys
in it. -/
def lookupRangeChecked (index : PropertyIndex) (labelOrType property : String)
    (lower upper : Bound) : Option (List NodeId) :=
  if ((index.byKey[(labelOrType, property)]?).any fun tree => !tree.isEmpty) &&
    !Bound.accepted lower upper then none
  else some (index.lookupRange labelOrType property lower upper)

end PropertyIndex

/-! ### Generations -/

/-- A node's full property record. -/
structure NodeRecord where
  label : Label
  properties : Properties

/-- An edge's full property record. -/
structure EdgeRecord where
  edgeType : EdgeType
  properties : Properties

/-- Metadata of one generation. -/
structure GenerationMeta where
  partition : PartitionId
  snapshotByTable : ExtTreeMap String SnapshotId compare
  builtAtUnixMs : Int
  nodeCount : Nat
  edgeCount : Nat

/-- One immutable, fully built index generation of a partition. -/
structure IndexGeneration where
  genMeta : GenerationMeta
  topology : TopologicalIndex
  properties : PropertyIndex
  nodeRecords : ExtTreeMap NodeId NodeRecord compare
  edgeRecords : ExtTreeMap EdgeId EdgeRecord compare

/-- The cell that holds the currently served generation of the process listening
at an address.  Its content is read with `acquire` and replaced by the rebuild
loop with `swap`. -/
structure GenerationHandle where
  address : String
deriving DecidableEq, Repr

end GraphEngine
