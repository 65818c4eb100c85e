/-
Module: GraphEngine.Proofs.Served
Layer: Proofs
Purpose: A cluster that serves the generations built from one dataset shows that
  dataset.  What it shows is always in the tables; when every partition answers
  and no edge leaves the tables, it is all of them.
Trusted boundary: none
Main exports: mem_neighbors_of_built, record_of_source,
  Dataset.ServedBy.adjacent_iff, Dataset.ServedBy.edgesAgree,
  Dataset.ServedBy.le_view, Dataset.ServedBy.view_le
-/
import GraphEngine.Proofs.Build

namespace GraphEngine

open SimpleLocalExecutor (landsOn)

/-- Where both ends of every edge were scanned, an edge leads to a scanned
node. -/
theorem Dataset.EndpointsPresent.scanned {dataset : Dataset}
    (present : dataset.EndpointsPresent) {direction : Direction}
    {edge : EdgeType × EdgeRow} (member : edge ∈ dataset.edges) {u v : NodeId}
    (leads : Dataset.Leads direction edge u v) : dataset.Scanned v := by
  obtain ⟨source, target⟩ := present edge member
  cases direction <;> simp only [Dataset.Leads, orient, decide_true, if_true,
    reduceCtorEq, decide_false,
    Bool.false_eq_true, if_false, Prod.mk.injEq] at leads
  · rw [← leads.2]
    exact target
  · rw [← leads.2]
    exact source

/-- With one partition every node belongs to it. -/
theorem partition_eq_zero {hasher : Partitioning} (single : hasher.nPartitions = 1)
    (v : NodeId) : hasher.partition v = ⟨0⟩ := by
  have below := hasher.partitionOf_lt v
  have index : hasher.partitionOf v = 0 := by omega
  rw [Partitioning.partition, index]

section OnePartition

variable {dataset : Dataset} {partitioning : Partitioning} {partition : PartitionId}
variable {generation : IndexGeneration}

/-- The adjacency list of a node in a built generation: if the partition holds
the node, the entries of the rows that start from it in that direction. -/
theorem mem_neighbors_of_built
    (built : dataset.Built partitioning partition generation)
    {direction : Direction} {u : NodeId} {entry : AdjacencyEntry} :
    entry ∈ generation.neighbors direction u ↔ partitioning.partition u = partition ∧
      dataset.Scanned u ∧
      ∃ edge ∈ dataset.edges, (orient (decide (direction = .outgoing)) edge.2).1 = u ∧
        entry = adjacencyEntry partition
          (positions (ownedIds partitioning partition dataset.nodes))
          (decide (direction = .outgoing)) partitioning edge := by
  obtain ⟨builtAt, rfl⟩ := built_iff.mp built
  apply (mem_neighbors_assemble _ _ _ _ _ _ _).trans
  rw [mem_ownedIds, and_assoc]
  rfl

/-- The entry of an edge lands on its other end, unless that end is assigned to
the partition and was not scanned. -/
theorem landsOn_iff_known {outgoing : Bool} {edge : EdgeType × EdgeRow} {v : NodeId} :
    landsOn (adjacencyEntry partition
      (positions (ownedIds partitioning partition dataset.nodes)) outgoing
        partitioning edge) v = true ↔
      (orient outgoing edge.2).2 = v ∧
        (dataset.Scanned v ∨ partitioning.partition v ≠ partition) := by
  rw [landsOn_adjacencyEntry, endpoint_adjacencyEntry]
  rfl

/-- The adjacency of a built generation: edge rows between a node it owns and a
node that was scanned or is assigned elsewhere. -/
theorem neighbors_of_built (built : dataset.Built partitioning partition generation)
    {direction : Direction} {u v : NodeId} {t : EdgeType} {e : EdgeId} :
    (∃ entry ∈ generation.neighbors direction u,
        entry.edgeType = t ∧ entry.edgeId = e ∧ entry.endpoint = some v) ↔
      partitioning.partition u = partition ∧ dataset.Scanned u ∧
        (dataset.Scanned v ∨ partitioning.partition v ≠ partition) ∧
        ∃ edge ∈ dataset.edges, Dataset.Leads direction edge u v ∧ edge.1 = t ∧
          edge.2.id = e := by
  constructor
  · rintro ⟨entry, listed, rfl, rfl, leads⟩
    obtain ⟨owned, scanned, edge, member, source, rfl⟩ :=
      (mem_neighbors_of_built built).mp listed
    obtain ⟨target, known⟩ := (endpoint_adjacencyEntry _ _ _).mp leads
    exact ⟨owned, scanned, known, edge, member, Prod.ext source target, rfl, rfl⟩
  · rintro ⟨owned, scanned, known, edge, member, leads, rfl, rfl⟩
    refine ⟨_, (mem_neighbors_of_built built).mpr
      ⟨owned, scanned, edge, member, congrArg Prod.fst leads, rfl⟩, rfl, rfl, ?_⟩
    exact (endpoint_adjacencyEntry _ _ _).mpr ⟨congrArg Prod.snd leads, known⟩

/-- The edge records of a built generation are those of the tables. -/
theorem edgeRecord_of_built
    (built : dataset.Built partitioning partition generation) {e : EdgeId}
    {record : EdgeRecord} (found : generation.edgeRecords[e]? = some record) :
    dataset.view.edgeRecord e record := by
  obtain ⟨builtAt, rfl⟩ := built_iff.mp built
  obtain ⟨edge, member, id, -, same⟩ := edgeRecords_sound _ _ _ _ _ _ _ found
  exact ⟨edge, member, id, same⟩

/-- The record of an edge is with the partition that its source is assigned to. -/
theorem record_of_source (unique : dataset.UniqueEdgeIds)
    (built : dataset.Built partitioning partition generation)
    {edge : EdgeType × EdgeRow} (member : edge ∈ dataset.edges)
    (home : partitioning.partition edge.2.src = partition) :
    generation.edgeRecords[edge.2.id]? =
      some { edgeType := edge.1, properties := edge.2.properties } := by
  obtain ⟨builtAt, rfl⟩ := built_iff.mp built
  exact edgeRecords_complete _ _ _ _ _ _ _ unique member home

end OnePartition

/-- With unique edge ids, generations built from one dataset agree on the record
of an edge. -/
theorem edgesAgree_of_built {dataset : Dataset} (unique : dataset.UniqueEdgeIds)
    {hasher : Partitioning} {serving : PartitionId → Option IndexGeneration}
    (fromTables : ∀ p generation, serving p = some generation →
      ∃ partitioning q, dataset.Built partitioning q generation) :
    (clusterView hasher serving).EdgesAgree := by
  rintro e record record' ⟨p, generation, serves, found⟩
    ⟨p', generation', serves', found'⟩
  obtain ⟨_, _, built⟩ := fromTables p generation serves
  obtain ⟨_, _, built'⟩ := fromTables p' generation' serves'
  obtain ⟨edge, member, id, rfl⟩ := edgeRecord_of_built built found
  obtain ⟨edge', member', id', rfl⟩ := edgeRecord_of_built built' found'
  have same : edge = edge' :=
    List.inj_on_of_nodup_map unique member member' (id.trans id'.symm)
  rw [same]

namespace Dataset.ServedBy

variable {dataset : Dataset} {hasher : Partitioning} {partitions : PartitionMap}
variable {serve : GenerationHandle → IndexGeneration}

/-- A generation served is assembled from the rows of the dataset. -/
theorem assembled (served : dataset.ServedBy hasher partitions serve)
    {p : PartitionId} {generation : IndexGeneration}
    (serves : servingOf partitions serve p = some generation) :
    ∃ snapshots builtAt, generation =
      assemble dataset.schema hasher p snapshots builtAt dataset.nodes dataset.edges :=
  let ⟨builtAt, same⟩ := built_iff.mp (served p generation serves)
  ⟨dataset.snapshotByTable, builtAt, same⟩

/-! ### Everything shown is in the tables -/

/-- What an index lookup finds, a row has. -/
theorem started_sound (served : dataset.ServedBy hasher partitions serve)
    {labelOrType property : String} {key : PropertyKey} {v : NodeId}
    (started : (clusterView hasher (servingOf partitions serve)).started labelOrType
      property key v) : dataset.view.started labelOrType property key v := by
  obtain ⟨p, generation, serves, found⟩ := started
  obtain ⟨snapshots, builtAt, rfl⟩ := served.assembled serves
  exact ((mem_lookupEq_assemble _ _ _ _ _ _ _).mp found).2

/-- What a scan of a label finds, a row has. -/
theorem labelled_sound (served : dataset.ServedBy hasher partitions serve)
    {label : String} {v : NodeId}
    (labelled : (clusterView hasher (servingOf partitions serve)).labelled label v) :
    dataset.view.labelled label v := by
  obtain ⟨p, generation, serves, record, found, named⟩ := labelled
  obtain ⟨snapshots, builtAt, rfl⟩ := served.assembled serves
  obtain ⟨-, node, member, id, rfl⟩ := nodeRecords_sound _ _ _ _ _ _ _ found
  exact ⟨node, member, id, named⟩

/-- A node's record in the cluster is that of a row. -/
theorem nodeRecord_sound (served : dataset.ServedBy hasher partitions serve)
    {v : NodeId} {record : NodeRecord}
    (recorded :
      (clusterView hasher (servingOf partitions serve)).nodeRecord v record) :
    dataset.view.nodeRecord v record := by
  obtain ⟨generation, serves, found⟩ := recorded
  obtain ⟨snapshots, builtAt, rfl⟩ := served.assembled serves
  exact (nodeRecords_sound _ _ _ _ _ _ _ found).2

/-- An edge's record in the cluster is that of a row. -/
theorem edgeRecord_sound (served : dataset.ServedBy hasher partitions serve)
    {e : EdgeId} {record : EdgeRecord}
    (recorded :
      (clusterView hasher (servingOf partitions serve)).edgeRecord e record) :
    dataset.view.edgeRecord e record := by
  obtain ⟨p, generation, serves, found⟩ := recorded
  exact edgeRecord_of_built (served p generation serves) found

/-- With unique edge ids all partitions agree on the record of an edge. -/
theorem edgesAgree (served : dataset.ServedBy hasher partitions serve)
    (unique : dataset.UniqueEdgeIds) :
    (clusterView hasher (servingOf partitions serve)).EdgesAgree :=
  edgesAgree_of_built unique fun p generation serves =>
    ⟨hasher, p, served p generation serves⟩

/-! ### Adjacency -/

/-- An adjacency entry shown is an edge row between a scanned node and a node
that was scanned too or is assigned to another partition. -/
theorem adjacent_iff (served : dataset.ServedBy hasher partitions serve)
    {direction : Direction} {u v : NodeId} {t : EdgeType} {e : EdgeId} :
    (clusterView hasher (servingOf partitions serve)).adjacent direction u t e v ↔
      (clusterView hasher (servingOf partitions serve)).owned u ∧ dataset.Scanned u ∧
        (dataset.Scanned v ∨ hasher.partition v ≠ hasher.partition u) ∧
        ∃ edge ∈ dataset.edges, Leads direction edge u v ∧ edge.1 = t ∧
          edge.2.id = e := by
  constructor
  · rintro ⟨generation, serves, entries⟩
    exact ⟨Option.isSome_iff_exists.mpr ⟨_, serves⟩,
      ((neighbors_of_built (served _ _ serves)).mp entries).2⟩
  · rintro ⟨owned, rest⟩
    obtain ⟨generation, serves⟩ := Option.isSome_iff_exists.mp owned
    exact ⟨generation, serves, (neighbors_of_built (served _ _ serves)).mpr ⟨rfl, rest⟩⟩

/-- An outgoing candidate shown is an edge row with its record. -/
theorem candidate_iff (served : dataset.ServedBy hasher partitions serve)
    (unique : dataset.UniqueEdgeIds) {u v : NodeId} {t : EdgeType}
    {record : EdgeRecord} :
    (clusterView hasher (servingOf partitions serve)).candidate .outgoing u t v record ↔
      (clusterView hasher (servingOf partitions serve)).owned u ∧ dataset.Scanned u ∧
        (dataset.Scanned v ∨ hasher.partition v ≠ hasher.partition u) ∧
        ∃ edge ∈ dataset.edges, Leads .outgoing edge u v ∧ edge.1 = t ∧
          record = { edgeType := edge.1, properties := edge.2.properties } := by
  constructor
  · rintro ⟨generation, serves, entry, listed, rfl, lands, found⟩
    have built := served _ generation serves
    obtain ⟨home, scanned, edge, member, source, rfl⟩ :=
      (mem_neighbors_of_built built).mp listed
    obtain ⟨target, known⟩ := landsOn_iff_known.mp lands
    have recorded :=
      record_of_source unique built member (congrArg hasher.partition source)
    have same : some record = some _ := found.symm.trans recorded
    exact ⟨Option.isSome_iff_exists.mpr ⟨_, serves⟩, scanned, known, edge, member,
      Prod.ext source target, rfl,
      Option.some.inj same⟩
  · rintro ⟨owned, scanned, known, edge, member, leads, rfl, rfl⟩
    obtain ⟨generation, serves⟩ := Option.isSome_iff_exists.mp owned
    have built := served _ generation serves
    have source : edge.2.src = u := congrArg Prod.fst leads
    refine ⟨generation, serves, _, (mem_neighbors_of_built built).mpr
      ⟨rfl, scanned, edge, member, source, rfl⟩, rfl, ?_, ?_⟩
    · exact landsOn_iff_known.mpr ⟨congrArg Prod.snd leads, known⟩
    · exact record_of_source unique built member (congrArg hasher.partition source)

/-! ### The cluster and the tables -/

/-- What the cluster shows is in the tables. -/
theorem le_view (served : dataset.ServedBy hasher partitions serve)
    (present : dataset.EndpointsPresent) (uniqueEdges : dataset.UniqueEdgeIds) :
    (clusterView hasher (servingOf partitions serve)).Le dataset.view where
  started _ _ _ _ := served.started_sound
  labelled _ _ := served.labelled_sound
  adjacent direction u t e v adjacent := by
    obtain ⟨-, scanned, -, edge, member, leads, typed, id⟩ :=
      served.adjacent_iff.mp adjacent
    exact ⟨scanned, present.scanned member leads, edge, member, leads, typed, id⟩
  nodeRecord _ _ := served.nodeRecord_sound
  edgeRecord _ _ := served.edgeRecord_sound
  owned _ _ := trivial
  candidate u t v record owned candidate := by
    obtain ⟨scannedU, scannedV, edge, member, leads, typed, same⟩ := candidate
    exact (served.candidate_iff uniqueEdges).mpr
      ⟨owned, scannedU, .inl scannedV, edge, member, leads, typed, same⟩

/-- When every partition answers, every partition shows a generation. -/
theorem serving (serve : GenerationHandle → IndexGeneration)
    (reachable : FullyReachable hasher partitions) (v : NodeId) :
    ∃ generation, servingOf partitions serve (hasher.partition v) = some generation := by
  obtain ⟨replica, picked⟩ := Option.isSome_iff_exists.mp (reachable v)
  exact ⟨_, congrArg (Option.map _) picked⟩

/-- When every partition answers, every scanned node has a record. -/
theorem recorded_of_scanned (served : dataset.ServedBy hasher partitions serve)
    (reachable : FullyReachable hasher partitions) {v : NodeId}
    (scanned : dataset.Scanned v) :
    ∃ record, (clusterView hasher (servingOf partitions serve)).nodeRecord v record := by
  rcases serving serve reachable v with ⟨generation, serves⟩
  rcases served.assembled serves with ⟨snapshots, builtAt, rfl⟩
  rcases scanned with ⟨node, member, rfl⟩
  rcases Option.isSome_iff_exists.mp
    (nodeRecords_isSome dataset.schema hasher _ snapshots builtAt
    dataset.nodes dataset.edges member rfl) with ⟨record, found⟩
  exact ⟨record, _, serves, found⟩

/-- Every row of a node has its record in the cluster, if all partitions are
reached. -/
theorem nodeRecord_complete (served : dataset.ServedBy hasher partitions serve)
    (reachable : FullyReachable hasher partitions) (unique : dataset.UniqueNodeIds)
    {v : NodeId} {record : NodeRecord} (recorded : dataset.view.nodeRecord v record) :
    (clusterView hasher (servingOf partitions serve)).nodeRecord v record := by
  obtain ⟨node, member, rfl, rfl⟩ := recorded
  obtain ⟨generation, serves⟩ := serving serve reachable node.2.id
  obtain ⟨snapshots, builtAt, rfl⟩ := served.assembled serves
  exact ⟨_, serves, nodeRecords_complete _ _ _ _ _ _ _ unique member rfl⟩

/-- Every row of an edge has its record in the cluster, if all partitions are
reached. -/
theorem edgeRecord_complete (served : dataset.ServedBy hasher partitions serve)
    (reachable : FullyReachable hasher partitions) (unique : dataset.UniqueEdgeIds)
    {e : EdgeId} {record : EdgeRecord} (recorded : dataset.view.edgeRecord e record) :
    (clusterView hasher (servingOf partitions serve)).edgeRecord e record := by
  obtain ⟨edge, member, rfl, rfl⟩ := recorded
  obtain ⟨generation, serves⟩ := serving serve reachable edge.2.src
  exact ⟨_, generation, serves,
    record_of_source unique (served _ generation serves) member rfl⟩

/-- When every partition answers, every index entry of the tables is found. -/
theorem started_complete (served : dataset.ServedBy hasher partitions serve)
    (reachable : FullyReachable hasher partitions) {labelOrType property : String}
    {key : PropertyKey} {v : NodeId}
    (started : dataset.view.started labelOrType property key v) :
    (clusterView hasher (servingOf partitions serve)).started labelOrType
      property key v := by
  obtain ⟨node, member, id, indexed⟩ := started
  obtain ⟨generation, serves⟩ := serving serve reachable v
  obtain ⟨snapshots, builtAt, rfl⟩ := served.assembled serves
  exact ⟨_, _, serves,
    (mem_lookupEq_assemble _ _ _ _ _ _ _).mpr ⟨rfl, node, member, id, indexed⟩⟩

/-- When every partition answers, everything in the tables is shown. -/
theorem view_le (served : dataset.ServedBy hasher partitions serve)
    (reachable : FullyReachable hasher partitions) (present : dataset.EndpointsPresent)
    (uniqueNodes : dataset.UniqueNodeIds) (uniqueEdges : dataset.UniqueEdgeIds) :
    dataset.view.Le (clusterView hasher (servingOf partitions serve)) where
  started _ _ _ _ := served.started_complete reachable
  labelled label v := by
    rintro ⟨node, member, rfl, named⟩
    obtain ⟨generation, serves, found⟩ := served.nodeRecord_complete reachable uniqueNodes
      ⟨node, member, rfl, rfl⟩
    exact ⟨_, generation, serves, _, found, named⟩
  adjacent direction u t e v := fun ⟨scannedU, scannedV, rest⟩ => served.adjacent_iff.mpr
    ⟨Option.isSome_iff_exists.mpr (serving serve reachable u), scannedU,
      .inl scannedV, rest⟩
  nodeRecord _ _ := served.nodeRecord_complete reachable uniqueNodes
  edgeRecord _ _ := served.edgeRecord_complete reachable uniqueEdges
  owned v _ := Option.isSome_iff_exists.mpr (serving serve reachable v)
  candidate u t v record _ candidate := by
    obtain ⟨-, scannedU, -, edge, member, leads, rest⟩ :=
      (served.candidate_iff uniqueEdges).mp candidate
    exact ⟨scannedU, present.scanned member leads, edge, member, leads, rest⟩

end Dataset.ServedBy

end GraphEngine
