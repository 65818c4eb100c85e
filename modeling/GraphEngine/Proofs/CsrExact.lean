/-
Module: GraphEngine.Proofs.CsrExact
Layer: Proofs
Purpose: Below 2^32 rows nothing is cut: the stored topology is the unbounded
  one, no index leaves its array, and reading the neighbors of a node back gives
  one entry for each of its edge rows, in scan order.
Trusted boundary: none
Main exports: TopologicalIndex.pack, PackedTopology.build_eq, ExactEntry,
  CsrExact, csrExact_of_build
-/
import GraphEngine.Model.PackedTopology
import GraphEngine.Proofs.Build

namespace GraphEngine

open Std (ExtTreeMap)

/-! ### Nothing is cut -/

/-- A number below `2^32` is kept. -/
theorem asU32_of_lt {n : Nat} (below : n < 4294967296) : asU32 n = n :=
  Nat.mod_eq_of_lt below

/-- The stored form of an unbounded topology. -/
def TopologicalIndex.pack (topology : TopologicalIndex) : PackedTopology where
  nodeIds := topology.nodeIds
  idToLocal := topology.idToLocal
  outOffsets := topology.outOffsets
  outEntries := topology.outEntries
  inOffsets := topology.inOffsets
  inEntries := topology.inEntries

namespace PackedTopology

/-- The positions of fewer than `2^32` nodes are kept. -/
theorem positions_eq {nodeIds : List NodeId} (below : nodeIds.length < 4294967296) :
    positions nodeIds = GraphEngine.positions nodeIds := by
  rw [positions, GraphEngine.positions]
  refine congrArg collectMap (List.map_congr_left fun entry member => ?_)
  have inside := List.snd_lt_of_mem_zipIdx member
  rw [asU32_of_lt (by omega)]

/-- Every push finds its bucket. -/
theorem pushEdges_eq (partition : PartitionId) (nodeIds : List NodeId)
    (edges : List (EdgeType × EdgeRow)) (outgoing : Bool)
    (partitioning : Partitioning) :
    edges.foldlM
      (pushEdge partition (GraphEngine.positions nodeIds) outgoing partitioning)
        (List.replicate nodeIds.length []) =
      some (fillRows
        (fun edge => ((GraphEngine.positions
              nodeIds)[(orient outgoing edge.2).1]?).map LocalIdx.val)
        (adjacencyEntry partition
          (GraphEngine.positions nodeIds) outgoing partitioning) nodeIds.length
        edges) := by
  induction edges using List.reverseRecOn with
  | nil => rfl
  | append_singleton edges edge inductionHypothesis =>
      rw [List.foldlM_append, inductionHypothesis, fillRows_append_singleton]
      have pushed := length_fillRows
        (fun edge : EdgeType × EdgeRow =>
          ((GraphEngine.positions nodeIds)[(orient outgoing edge.2).1]?).map LocalIdx.val)
        (adjacencyEntry partition
          (GraphEngine.positions nodeIds) outgoing partitioning) nodeIds.length edges
      simp only [Option.bind_eq_bind, Option.bind_some, List.foldlM_cons,
        List.foldlM_nil, pushEdge]
      cases found : (GraphEngine.positions nodeIds)[(orient outgoing edge.2).1]? with
      | none => rfl
      | some i =>
          have inside : i.val < nodeIds.length := positions_lt _ i found
          simp only [pushed, inside, if_true, Option.map_some]
          rfl

/-- Below 2^32 entries the offsets are those of the layout. -/
theorem flattenBuckets_eq (buckets : List (List AdjacencyEntry))
    (below : buckets.flatten.length < 4294967296) :
    buckets.foldl flattenBucket ([0], []) = csrLayout buckets := by
  induction buckets using List.reverseRecOn with
  | nil => rfl
  | append_singleton buckets bucket inductionHypothesis =>
      have total : buckets.flatten.length + bucket.length < 4294967296 := by
        simpa using below
      have entries : (csrLayout buckets).2 = buckets.flatten := by rw [csrLayout_eq]
      rw [csrLayout, List.foldl_append, List.foldl_append, ← csrLayout,
        inductionHypothesis (by omega), List.foldl_cons, List.foldl_cons,
        List.foldl_nil, List.foldl_nil, flattenBucket, csrAppend,
        asU32_of_lt (by rw [entries, List.length_append]; omega)]

/-- The buckets hold at most one entry for each edge. -/
theorem length_flatten_fillRows {α β : Type} (place : β → Option Nat)
    (entry : β → α) (count : Nat) (elements : List β) :
    (fillRows place entry count elements).flatten.length ≤ elements.length := by
  rw [(flatten_fillRows_perm place entry count elements).length_eq, List.length_map]
  exact List.length_filter_le _ _

/-- With fewer than `2^32` edges the packed half is the unbounded one. -/
theorem buildCsr_eq (partition : PartitionId) (nodeIds : List NodeId)
    {edges : List (EdgeType × EdgeRow)} (below : edges.length < 4294967296)
    (outgoing : Bool) (partitioning : Partitioning) :
    buildCsr partition nodeIds
      (GraphEngine.positions nodeIds) edges outgoing partitioning =
      some (GraphEngine.buildCsr partition nodeIds
        (GraphEngine.positions nodeIds) edges outgoing
        partitioning) := by
  have fits := length_flatten_fillRows
    (fun edge : EdgeType × EdgeRow =>
      ((GraphEngine.positions nodeIds)[(orient outgoing edge.2).1]?).map LocalIdx.val)
    (adjacencyEntry partition (GraphEngine.positions nodeIds) outgoing partitioning)
      nodeIds.length edges
  rw [buildCsr, pushEdges_eq, Option.bind_eq_bind, Option.bind_some,
    flattenBuckets_eq _ (by omega), GraphEngine.buildCsr]
  rfl

/-- The stored topology is the unbounded one. -/
theorem build_eq (partition : PartitionId) {nodes : List (Label × NodeRow)}
    {edges : List (EdgeType × EdgeRow)} (fewNodes : nodes.length < 4294967296)
    (fewEdges : edges.length < 4294967296) (partitioning : Partitioning) :
    build partition nodes edges partitioning =
      some (buildTopology partition nodes edges partitioning).pack := by
  have fewIds : (nodes.map fun node => node.2.id).length < 4294967296 := by
    rwa [List.length_map]
  simp only [build, positions_eq fewIds, buildCsr_eq partition _ fewEdges,
    Option.bind_eq_bind, Option.bind_some]
  rfl

theorem getElem?_eq_some_getD {offsets : List Nat} {i : Nat}
    (inside : i < offsets.length) : offsets[i]? = some (offsets.getD i 0) := by
  rw [List.getD_eq_getElem?_getD, List.getElem?_eq_getElem inside, Option.getD_some]

/-- A slice of a well-shaped layout is its row. -/
theorem slice_eq {rows : Nat} {offsets : List Nat} {entries : List AdjacencyEntry}
    (shape : CsrShape rows offsets entries) {i : Nat} (row : i < rows) :
    slice offsets entries i = some (csrRow offsets entries i) := by
  obtain ⟨inside, ascending, within⟩ := shape.bounds row
  rw [slice, getElem?_eq_some_getD (Nat.lt_of_succ_lt inside),
    getElem?_eq_some_getD inside, Option.bind_eq_bind, Option.bind_some,
    Option.bind_some, if_pos ⟨ascending, within⟩]
  rfl

/-- No read of the stored form of a topology leaves its arrays. -/
theorem neighbors_pack (topology : TopologicalIndex) (node : NodeId)
    {offsets : List Nat} {entries : List AdjacencyEntry}
    (shape : CsrShape topology.nodeIds.length offsets entries) :
    topology.pack.neighbors node offsets entries =
      some (topology.neighbors node offsets entries) := by
  have positions : topology.pack.idToLocal[node]? = topology.idToLocal[node]? := rfl
  rw [neighbors, TopologicalIndex.neighbors, positions]
  cases found : topology.idToLocal[node]? with
  | none => rfl
  | some i => exact slice_eq shape (topology.idToLocal_lt node i found)

end PackedTopology

/-! ### Reading the edges back -/

section Exact

variable (partition : PartitionId) (nodes : List (Label × NodeRow))
variable (edges : List (EdgeType × EdgeRow))
variable (partitioning : Partitioning)

/-- Some node row has this id. -/
def Owned (v : NodeId) : Prop := v ∈ nodes.map fun node => node.2.id

instance  (v : NodeId) : Decidable (Owned nodes v) :=
  inferInstanceAs (Decidable (v ∈ nodes.map fun node => node.2.id))

/-- The entry of an edge row at one of its ends: the row's id and type, and the
other end as a local node if it is among the rows, or else as a remote one if it
hashes to another partition. -/
structure ExactEntry (outgoing : Bool) (edge : EdgeType × EdgeRow)
    (entry : AdjacencyEntry) : Prop where
  edgeId : entry.edgeId = edge.2.id
  edgeType : entry.edgeType = edge.1
  isLocal : ∀ v, entry.dstLocal = some v ↔ v = (orient outgoing edge.2).2 ∧ Owned nodes v
  isRemote : ∀ remoteRef, entry.dstRemote = some remoteRef ↔
    remoteRef = ⟨partitioning.partition (orient outgoing edge.2).2,
      (orient outgoing edge.2).2⟩ ∧
      ¬ Owned nodes (orient outgoing edge.2).2 ∧
      partitioning.partition (orient outgoing edge.2).2 ≠ partition
  notBoth : entry.dstLocal = none ∨ entry.dstRemote = none

/-- One direction of a topology. -/
structure ExactDirection (outgoing : Bool) (offsets : List Nat)
    (entries : List AdjacencyEntry) (read : NodeId → Option (List AdjacencyEntry)) :
    Prop where
  length : offsets.length = nodes.length + 1
  first : offsets.head? = some 0
  ascending : offsets.Pairwise (· ≤ ·)
  last : offsets.getLast? = some entries.length
  rows : ∀ u, ∃ row, read u = some row ∧
    List.Forall₂ (ExactEntry partition nodes partitioning outgoing)
      (if Owned nodes u then edges.filter fun edge =>
        (orient outgoing edge.2).1 = u else []) row

/-- Both directions, over the ids of the rows. -/
structure CsrExact (topology : PackedTopology) : Prop where
  nodeIds : topology.nodeIds = nodes.map fun node => node.2.id
  outgoing : ExactDirection partition nodes edges partitioning true
    topology.outOffsets topology.outEntries
    topology.outNeighbors
  incoming : ExactDirection partition nodes edges partitioning false
    topology.inOffsets topology.inEntries
    topology.inNeighbors

variable {partition nodes edges partitioning}

/-- The entry of an edge says exactly where its other end is. -/
theorem exactEntry_adjacencyEntry (outgoing : Bool) (edge : EdgeType × EdgeRow) :
    ExactEntry partition nodes partitioning outgoing edge
      (adjacencyEntry partition (positions (nodes.map fun node => node.2.id)) outgoing
        partitioning edge) where
  edgeId := rfl
  edgeType := rfl
  isLocal v := by
    simp only [adjacencyEntry, mem_positions, Option.ite_none_right_eq_some,
      Option.some.injEq, Owned]
    constructor
    · intro both
      exact ⟨both.2.symm, both.2 ▸ both.1⟩
    · intro both
      exact ⟨both.1 ▸ both.2, both.1.symm⟩
  isRemote remoteRef := by
    simp only [adjacencyEntry, mem_positions, Option.ite_none_right_eq_some,
      Option.some.injEq, Owned]
    by_cases owned : (orient outgoing edge.2).2 ∈ nodes.map fun node => node.2.id
    · simp [owned]
    · simp only [owned, if_false, Option.isNone_none, true_and, not_false_eq_true]
      rw [and_comm, eq_comm]
  notBoth := by
    simp only [adjacencyEntry]
    split <;> simp

/-- A row of the stored topology, in either direction. -/
theorem exactDirection_buildCsr (outgoing : Bool) :
    ExactDirection partition nodes edges partitioning outgoing
      (buildCsr partition (nodes.map fun node => node.2.id)
        (positions (nodes.map fun node => node.2.id)) edges
        outgoing partitioning).1
      (buildCsr partition (nodes.map fun node => node.2.id)
        (positions (nodes.map fun node => node.2.id)) edges
        outgoing partitioning).2
      (fun u => (buildTopology partition nodes edges partitioning).pack.neighbors u
        (buildCsr partition (nodes.map fun node => node.2.id)
          (positions (nodes.map fun node => node.2.id)) edges
          outgoing partitioning).1
        (buildCsr partition (nodes.map fun node => node.2.id)
          (positions (nodes.map fun node => node.2.id)) edges
          outgoing partitioning).2) := by
  have shape := buildCsr_shape partition (nodes.map fun node => node.2.id)
    (positions (nodes.map fun node => node.2.id)) edges outgoing partitioning
  constructor
  case length => rw [shape.length_eq, List.length_map]
  case first =>
    rw [List.head?_eq_getElem?,
      PackedTopology.getElem?_eq_some_getD (by rw [shape.length_eq]; omega),
      shape.first]
  case ascending => exact csrLayout_pairwise _
  case last =>
    rw [List.getLast?_eq_getElem?, shape.length_eq, Nat.add_sub_cancel,
      PackedTopology.getElem?_eq_some_getD (by rw [shape.length_eq]; omega), shape.last]
  case rows =>
    intro u
    refine ⟨_, PackedTopology.neighbors_pack _ u shape, ?_⟩
    have stored : (buildTopology partition nodes edges partitioning).idToLocal[u]? =
        (positions (nodes.map fun node => node.2.id))[u]? := rfl
    rw [TopologicalIndex.neighbors, stored]
    have known : u ∈ positions (nodes.map fun node => node.2.id) ↔ Owned nodes u :=
      mem_positions
    rw [Std.ExtTreeMap.mem_iff_isSome_getElem?] at known
    cases found : (positions (nodes.map fun node => node.2.id))[u]? with
    | none =>
        rw [found] at known
        rw [if_neg fun owned => by cases known.mpr owned]
        exact .nil
    | some i =>
        rw [found] at known
        rw [if_pos (known.mp rfl)]
        dsimp only
        rw [csrRow_buildCsr partitioning partition edges found,
          List.forall₂_map_right_iff]
        exact List.forall₂_same.mpr fun edge _ => exactEntry_adjacencyEntry outgoing edge

/-- The topology built from fewer than `2 ^ 32` rows of each kind is exact:
offsets, entries, positions and references fit into the 32 bits that they are
stored in.  Ids may repeat, and edges may lack either end. -/
theorem csrExact_of_build (fewNodes : nodes.length < 4294967296)
    (fewEdges : edges.length < 4294967296) :
    ∃ topology, PackedTopology.build partition nodes edges partitioning = some topology ∧
      CsrExact partition nodes edges partitioning topology :=
  ⟨_, PackedTopology.build_eq partition fewNodes fewEdges partitioning,
    { nodeIds := rfl
      outgoing := exactDirection_buildCsr true
      incoming := exactDirection_buildCsr false }⟩

end Exact

/-- The even half of the social graph: Bob knows Cid, and is known by Ann, who
is elsewhere. -/
theorem social_csrExact : ∃ topology,
    PackedTopology.build ⟨0⟩
      [Social.somebody 2 "Bob", Social.somebody 4 "Cid"] Social.dataset.edges
      Social.byParity = some topology ∧
    CsrExact ⟨0⟩ [Social.somebody 2 "Bob", Social.somebody 4 "Cid"]
      Social.dataset.edges Social.byParity
      topology :=
  csrExact_of_build (by decide) (by decide)

end GraphEngine
