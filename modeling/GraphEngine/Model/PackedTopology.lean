/-
Module: GraphEngine.Model.PackedTopology
Layer: Model
Purpose: The topology as the process stores it.  Positions and offsets are
  32-bit numbers, and every index into a bucket, the offsets or the entries is
  checked where the source would panic.
Trusted boundary: none
Main exports: asU32, PackedTopology, PackedTopology.build,
  PackedTopology.neighbors
-/
import GraphEngine.Model.Builder

namespace GraphEngine

open Std (ExtTreeMap)

/-- `as u32`. -/
def asU32 (n : Nat) : Nat := n % 4294967296

/-- `TopologicalIndex`, with nothing known of its fields. -/
structure PackedTopology where
  nodeIds : List NodeId
  idToLocal : ExtTreeMap NodeId LocalIdx compare
  outOffsets : List Nat
  outEntries : List AdjacencyEntry
  inOffsets : List Nat
  inEntries : List AdjacencyEntry

namespace PackedTopology

/-! ### Reading -/

/-- `&entries[offsets[i]..offsets[i + 1]]`, unless an index is out of range. -/
def slice (offsets : List Nat) (entries : List AdjacencyEntry) (i : Nat) :
    Option (List AdjacencyEntry) := do
  let start ← offsets[i]?
  let stop ← offsets[i + 1]?
  if start ≤ stop ∧
    stop ≤ entries.length then some ((entries.take stop).drop start) else none

/-- The entries between a node's offset and the next one. -/
def neighbors (topology : PackedTopology) (node : NodeId) (offsets : List Nat)
    (entries : List AdjacencyEntry) : Option (List AdjacencyEntry) :=
  match topology.idToLocal[node]? with
  | some i => slice offsets entries i.val
  | none => some []

/-- The entries of the edges that leave a node. -/
def outNeighbors (topology : PackedTopology) (node : NodeId) :
    Option (List AdjacencyEntry) :=
  topology.neighbors node topology.outOffsets topology.outEntries

/-- The entries of the edges that reach a node. -/
def inNeighbors (topology : PackedTopology) (node : NodeId) :
    Option (List AdjacencyEntry) :=
  topology.neighbors node topology.inOffsets topology.inEntries

/-! ### Building -/

/-- Push the entry of one edge onto the bucket of its owner; an edge of another
partition's node is skipped. -/
def pushEdge (partition : PartitionId)
    (idToLocal : ExtTreeMap NodeId LocalIdx compare) (outgoing : Bool)
    (partitioning : Partitioning) (buckets : List (List AdjacencyEntry))
    (edge : EdgeType × EdgeRow) : Option (List (List AdjacencyEntry)) :=
  match idToLocal[(orient outgoing edge.2).1]? with
  | none => some buckets
  | some i =>
      if i.val < buckets.length then
        some (buckets.modify i.val
          (· ++ [adjacencyEntry partition idToLocal outgoing partitioning edge]))
      else none

/-- Append a bucket to the entries and record the length reached. -/
def flattenBucket (layout : List Nat × List AdjacencyEntry)
    (bucket : List AdjacencyEntry) : List Nat × List AdjacencyEntry :=
  (layout.1 ++ [asU32 (layout.2 ++ bucket).length], layout.2 ++ bucket)

/-- `build_csr`. -/
def buildCsr (partition : PartitionId) (nodeIds : List NodeId)
    (idToLocal : ExtTreeMap NodeId LocalIdx compare)
    (edges : List (EdgeType × EdgeRow)) (outgoing : Bool)
    (partitioning : Partitioning) : Option (List Nat × List AdjacencyEntry) := do
  let buckets ← edges.foldlM (pushEdge partition idToLocal outgoing partitioning)
    (List.replicate nodeIds.length [])
  pure (buckets.foldl flattenBucket ([0], []))

/-- The position of every node, cut to 32 bits. -/
def positions (nodeIds : List NodeId) : ExtTreeMap NodeId LocalIdx compare :=
  collectMap (nodeIds.zipIdx.map fun entry => (entry.1, { val := asU32 entry.2 }))

/-- `build_topology`. -/
def build (partition : PartitionId) (nodes : List (Label × NodeRow))
    (edges : List (EdgeType × EdgeRow)) (partitioning : Partitioning) :
    Option PackedTopology := do
  let nodeIds := nodes.map fun node => node.2.id
  let idToLocal := positions nodeIds
  let outgoing ← buildCsr partition nodeIds idToLocal edges true partitioning
  let incoming ← buildCsr partition nodeIds idToLocal edges false partitioning
  pure
    { nodeIds := nodeIds
      idToLocal := idToLocal
      outOffsets := outgoing.1
      outEntries := outgoing.2
      inOffsets := incoming.1
      inEntries := incoming.2 }

end PackedTopology

end GraphEngine
