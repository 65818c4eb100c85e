/-
Module: GraphEngine.Proofs.GenerationCounts
Layer: Proofs
Purpose: What the counts of a generation's metadata count.  Nodes are counted
  after the partition's own are chosen, edges before: the edge counts are right
  exactly on one partition, or without edges.
Trusted boundary: none
Main exports: CountsExact, nodeCount_eq_size, edgeCount_eq_size_iff,
  countsExact_iff
-/
import GraphEngine.Proofs.Served

namespace GraphEngine

/-- The metadata count what each generation holds, and over all partitions the
nodes and edges of the graph. -/
structure CountsExact (dataset : Dataset) (partitioning : Partitioning)
    (generation : PartitionId → IndexGeneration) : Prop where
  nodes : ∀ p : PartitionId, p.val < partitioning.nPartitions →
    (generation p).genMeta.nodeCount = (generation p).nodeRecords.size
  edges : ∀ p : PartitionId, p.val < partitioning.nPartitions →
    (generation p).genMeta.edgeCount = (generation p).edgeRecords.size
  nodesInAll : ((List.range partitioning.nPartitions).map fun p =>
    (generation ⟨p⟩).genMeta.nodeCount).sum =
    dataset.nodes.length
  edgesInAll : ((List.range partitioning.nPartitions).map fun p =>
    (generation ⟨p⟩).genMeta.edgeCount).sum =
    dataset.edges.length

/-! ### One partition -/

section Partition

variable {dataset : Dataset} {partitioning : Partitioning} {partition : PartitionId}
variable {generation : IndexGeneration}

/-- The nodes counted are those owned. -/
theorem nodeCount_of_built (built : dataset.Built partitioning partition generation) :
    generation.genMeta.nodeCount =
      (dataset.nodes.filter fun node =>
        partitioning.partitionOf node.2.id = partition.val).length := by
  obtain ⟨builtAt, rfl⟩ := built_iff.mp built
  rfl

/-- The edges counted are all those scanned. -/
theorem edgeCount_of_built (built : dataset.Built partitioning partition generation) :
    generation.genMeta.edgeCount = dataset.edges.length := by
  obtain ⟨builtAt, rfl⟩ := built_iff.mp built
  rfl

/-- The node count is that of the records. -/
theorem nodeCount_eq_size (unique : dataset.UniqueNodeIds)
    (built : dataset.Built partitioning partition generation) :
    generation.genMeta.nodeCount = generation.nodeRecords.size := by
  rw [nodeCount_of_built built]
  obtain ⟨builtAt, rfl⟩ := built_iff.mp built
  have distinct : ((dataset.nodes.filter fun node =>
        partitioning.partitionOf node.2.id = partition.val).map
      fun node => node.2.id).Nodup := (List.filter_sublist.map _).nodup unique
  rw [Dataset.generation, assemble, size_collectMap (by rwa [List.map_map]),
    List.length_map]

/-- The edge records are those of the edges whose source is owned. -/
theorem size_edgeRecords (unique : dataset.UniqueEdgeIds)
    (built : dataset.Built partitioning partition generation) :
    generation.edgeRecords.size =
      (dataset.edges.filter fun edge =>
        partitioning.partitionOf edge.2.src = partition.val).length := by
  obtain ⟨builtAt, rfl⟩ := built_iff.mp built
  have distinct : ((dataset.edges.filter fun edge =>
        partitioning.partitionOf edge.2.src = partition.val).map
      fun edge => edge.2.id).Nodup := (List.filter_sublist.map _).nodup unique
  rw [Dataset.generation, assemble, size_collectMap (by rwa [List.map_map]),
    List.length_map]

/-- The edge count is that of the records exactly where every edge starts at an
owned node. -/
theorem edgeCount_eq_size_iff (unique : dataset.UniqueEdgeIds)
    (built : dataset.Built partitioning partition generation) :
    generation.genMeta.edgeCount = generation.edgeRecords.size ↔
      ∀ edge ∈ dataset.edges, partitioning.partition edge.2.src = partition := by
  rw [edgeCount_of_built built, size_edgeRecords unique built, eq_comm,
    List.length_filter_eq_length_iff]
  apply forall_congr'
  intro edge
  apply imp_congr_right
  intro _
  rw [decide_eq_true_eq]
  exact ⟨fun same => PartitionId.val_injective _ _ same, congrArg PartitionId.val⟩

end Partition

/-! ### All partitions -/

section Totals

variable {dataset : Dataset} {partitioning : Partitioning}
variable {generation : PartitionId → IndexGeneration}
variable (built : ∀ p, p.val < partitioning.nPartitions →
  dataset.Built partitioning p (generation p))

include built

/-- Every partition counts every edge. -/
theorem sum_edgeCount :
    ((List.range partitioning.nPartitions).map fun p =>
      (generation ⟨p⟩).genMeta.edgeCount).sum =
    partitioning.nPartitions * dataset.edges.length := by
  have each : (List.range partitioning.nPartitions).map
      (fun p => (generation ⟨p⟩).genMeta.edgeCount) =
      List.replicate partitioning.nPartitions dataset.edges.length := by
    apply List.eq_replicate_iff.mpr
    refine ⟨by simp, fun count listed => ?_⟩
    obtain ⟨p, inRange, rfl⟩ := List.mem_map.mp listed
    exact edgeCount_of_built (built ⟨p⟩ (List.mem_range.mp inRange))
  rw [each, List.sum_replicate_nat]

/-- A node is counted on the partition that owns it. -/
theorem sum_nodeCount :
    ((List.range partitioning.nPartitions).map fun p =>
      (generation ⟨p⟩).genMeta.nodeCount).sum =
    dataset.nodes.length := by
  have each : (List.range partitioning.nPartitions).map
      (fun p => (generation ⟨p⟩).genMeta.nodeCount) =
      (List.range partitioning.nPartitions).map fun p =>
        (dataset.nodes.filter fun node =>
          partitioning.partitionOf node.2.id = p).length := by
    apply List.map_congr_left
    intro p inRange
    exact nodeCount_of_built (built ⟨p⟩ (List.mem_range.mp inRange))
  rw [each]
  exact sum_length_filter
    (fun node : Label × NodeRow => partitioning.partitionOf node.2.id) _
    (fun node => partitioning.partitionOf_lt node.2.id) _

end Totals

/-- The counts are exact on one partition, or without edges, and nowhere else:
nodes are counted once those of other partitions are gone, but edges before, so
that every partition reports those of the whole graph.

* `built`: every partition has a build of the dataset;
* `uniqueNodes`, `uniqueEdges`: no two rows share an id, so that records are
  counted as rows are. -/
theorem countsExact_iff {dataset : Dataset} {partitioning : Partitioning}
    {generation : PartitionId → IndexGeneration}
    (uniqueNodes : dataset.UniqueNodeIds) (uniqueEdges : dataset.UniqueEdgeIds)
    (built : ∀ p, p.val < partitioning.nPartitions →
      dataset.Built partitioning p (generation p)) :
    CountsExact dataset partitioning generation ↔ partitioning.nPartitions = 1 ∨
      dataset.edges = [] := by
  constructor
  · intro exactCounts
    have total := exactCounts.edgesInAll
    rw [sum_edgeCount built] at total
    by_cases none : dataset.edges = []
    · exact .inr none
    · exact .inl (Nat.eq_of_mul_eq_mul_right (List.length_pos_iff.mpr none)
        (by rw [total, Nat.one_mul]))
  · intro condition
    constructor
    · intro p inRange
      exact nodeCount_eq_size uniqueNodes (built p inRange)
    · intro p inRange
      apply (edgeCount_eq_size_iff uniqueEdges (built p inRange)).mpr
      intro edge listed
      rcases condition with one | none
      · -- the only partition
        have owner := partitioning.partitionOf_lt edge.2.src
        rw [one, Nat.lt_one_iff] at owner inRange
        exact PartitionId.val_injective _ _ (owner.trans inRange.symm)
      · rw [none] at listed
        cases listed
    · exact sum_nodeCount built
    · rw [sum_edgeCount built]
      rcases condition with one | none
      · rw [one, Nat.one_mul]
      · rw [none, List.length_nil, Nat.mul_zero]

/-- The social graph on one partition. -/
theorem social_countsExact : CountsExact Social.dataset Social.single fun p =>
    Social.dataset.generation Social.single p 0 :=
  (countsExact_iff Social.uniqueNodeIds Social.uniqueEdgeIds fun _ _ =>
    built_iff.mpr ⟨0, rfl⟩).mpr (.inl rfl)

/-- On two partitions each counts all edges of the social graph. -/
theorem social_countedTwice : ¬ ∀ (dataset : Dataset) (partitioning : Partitioning)
    (generation : PartitionId → IndexGeneration), dataset.UniqueNodeIds →
      dataset.UniqueEdgeIds →
      (∀ p, p.val < partitioning.nPartitions →
        dataset.Built partitioning p (generation p)) →
        CountsExact dataset partitioning generation := by
  intro all
  have counted := (all Social.dataset Social.byParity
    (fun p => Social.dataset.generation Social.byParity p 0)
    Social.uniqueNodeIds Social.uniqueEdgeIds fun _ _ =>
      built_iff.mpr ⟨0, rfl⟩).edgesInAll
  have twice : Social.dataset.edges.length + (Social.dataset.edges.length + 0) =
      Social.dataset.edges.length :=
    counted
  have length : 0 < Social.dataset.edges.length := by
    rw [Social.edges_eq]
    exact Nat.succ_pos _
  omega

end GraphEngine
