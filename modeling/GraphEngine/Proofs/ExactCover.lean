/-
Module: GraphEngine.Proofs.ExactCover
Layer: Proofs
Purpose: The generations built for all partitions from the same tables divide
  the graph among them: every node, every edge record and every adjacency entry
  is with the partition that the hash names, and nowhere else.
Trusted boundary: none
Main exports: AdjacencyEntry.Names, ExactCover, edgeIds_perm,
  exactCover_of_built
-/
import GraphEngine.Proofs.Served

namespace GraphEngine

/-- The adjacency entries of all nodes of a generation. -/
def IndexGeneration.entries (generation : IndexGeneration) (direction : Direction) :
    List AdjacencyEntry :=
  match direction with
  | .outgoing => generation.topology.outEntries
  | .incoming => generation.topology.inEntries

/-- An entry held by partition `here` names `v`: as a local node if `v` lives
here, otherwise as a remote one, with the partition that owns it. -/
def AdjacencyEntry.Names (partitioning : Partitioning) (here : PartitionId)
    (entry : AdjacencyEntry) (v : NodeId) : Prop :=
  entry.dstLocal = (if partitioning.partition v = here then some v else none) ∧
    entry.dstRemote =
      if partitioning.partition v = here then none
      else some { partition := partitioning.partition v, node := v }

/-- The end of an edge that holds its entry in a direction. -/
def holder (direction : Direction) (edge : EdgeType × EdgeRow) : NodeId :=
  (orient (decide (direction = .outgoing)) edge.2).1

/-- The end of an edge that its entry in a direction leads to. -/
def otherEnd (direction : Direction) (edge : EdgeType × EdgeRow) : NodeId :=
  (orient (decide (direction = .outgoing)) edge.2).2

section Cover

variable (dataset : Dataset) (partitioning : Partitioning)
variable (generation : PartitionId → IndexGeneration)

/-- The adjacency list of `u`, on the partition that owns `u`, has an entry of
edge `e` that names `v`. -/
def Lists (direction : Direction) (u v : NodeId) (t : EdgeType) (e : EdgeId) : Prop :=
  ∃ entry ∈ (generation (partitioning.partition u)).neighbors direction u,
    entry.edgeId = e ∧
    entry.edgeType = t ∧ entry.Names partitioning (partitioning.partition u) v

/-- The entries of all partitions in one direction. -/
def allEntries (direction : Direction) : List AdjacencyEntry :=
  (List.range partitioning.nPartitions).flatMap fun p =>
    (generation ⟨p⟩).entries direction

/-- The generations of all partitions divide the graph among them.  A node has
its record, its position and its index keys in the partition that owns it and in
no other; an edge has its record in the partition of its source, and one entry
for each of its ends that was scanned, in the partition of that end. -/
structure ExactCover : Prop where
  nodeRecord : ∀ node ∈ dataset.nodes, ∀ p : PartitionId,
    p.val < partitioning.nPartitions →
    (generation p).nodeRecords[node.2.id]? =
      if partitioning.partition node.2.id = p
        then some { label := node.1, properties := node.2.properties }
      else none
  nodePosition : ∀ node ∈ dataset.nodes, ∀ p : PartitionId,
    p.val < partitioning.nPartitions →
    (generation p).topology.nodeIds.count node.2.id =
      (if partitioning.partition node.2.id = p then 1 else 0) ∧
    (node.2.id ∈ (generation p).topology.idToLocal ↔ partitioning.partition node.2.id = p)
  indexed : ∀ node ∈ dataset.nodes, ∀ p : PartitionId, p.val < partitioning.nPartitions →
    ∀ labelOrType property key,
      node.2.id ∈ (generation p).properties.lookupEq labelOrType property key ↔
        partitioning.partition node.2.id = p ∧
          ((labelOrType, property), key) ∈ indexedKeys dataset.schema node
  edgeRecord : ∀ edge ∈ dataset.edges, ∀ p : PartitionId,
    p.val < partitioning.nPartitions →
    (generation p).edgeRecords[edge.2.id]? =
      if partitioning.partition edge.2.src = p
        then some { edgeType := edge.1, properties := edge.2.properties }
      else none
  appearsOnce : ∀ direction, ∀ edge ∈ dataset.edges,
    dataset.Scanned (holder direction edge) →
    (allEntries partitioning generation direction).countP
      (fun entry => entry.edgeId = edge.2.id) = 1
  listed : ∀ direction, ∀ edge ∈ dataset.edges, dataset.Scanned (holder direction edge) →
    dataset.Scanned (otherEnd direction edge) →
    Lists partitioning generation direction (holder direction edge)
      (otherEnd direction edge) edge.1 edge.2.id
  named : ∀ direction, ∀ edge ∈ dataset.edges, dataset.Scanned (holder direction edge) →
    dataset.Scanned (otherEnd direction edge) →
      ∀ entry ∈ allEntries partitioning generation direction,
      entry.edgeId = edge.2.id → entry.edgeType = edge.1 ∧
        entry.Names partitioning (partitioning.partition (holder direction edge))
          (otherEnd direction edge)
  mirrored : ∀ u v t e, dataset.Scanned u → dataset.Scanned v →
    (Lists partitioning generation .outgoing u v t e ↔
      Lists partitioning generation .incoming v u t e)

end Cover

/-! ### Entries -/

section Entries

variable {dataset : Dataset} {partitioning : Partitioning} {partition : PartitionId}
variable {generation : IndexGeneration}

/-- The entries of a built generation: one for each edge whose holder it owns. -/
theorem entries_of_built (built : dataset.Built partitioning partition generation)
    (direction : Direction) :
    (generation.entries direction).Perm
      ((dataset.edges.filter fun edge =>
          holder direction edge ∈ ownedIds partitioning partition dataset.nodes).map
        (adjacencyEntry partition
          (positions (ownedIds partitioning partition dataset.nodes))
          (decide (direction = .outgoing)) partitioning)) := by
  obtain ⟨builtAt, rfl⟩ := built_iff.mp built
  have rows : (dataset.generation partitioning partition builtAt).entries direction =
      (buildCsr partition (ownedIds partitioning partition dataset.nodes)
        (positions (ownedIds partitioning partition dataset.nodes)) dataset.edges
        (decide (direction = .outgoing)) partitioning).2 := by
    cases direction <;> rfl
  rw [rows, buildCsr, csrLayout_eq]
  refine (flatten_fillRows_perm _ _ _ _).trans (List.Perm.of_eq ?_)
  refine congrArg _ (List.filter_congr fun edge _ => ?_)
  rw [Bool.eq_iff_iff, decide_eq_true_eq, ← mem_positions,
    Std.ExtTreeMap.mem_iff_isSome_getElem?]
  change (Option.any _ (Option.map _
    (positions (ownedIds partitioning partition dataset.nodes))[holder direction
      edge]?)) = true ↔ _
  cases found : (positions
    (ownedIds partitioning partition dataset.nodes))[holder direction edge]? with
  | none => simp
  | some i => simpa using positions_lt _ _ found

/-- The entry of an edge between nodes that were scanned names the other end. -/
theorem names_adjacencyEntry {direction : Direction} {edge : EdgeType × EdgeRow}
    (scanned : dataset.Scanned (otherEnd direction edge)) :
    (adjacencyEntry partition (positions (ownedIds partitioning partition dataset.nodes))
      (decide (direction = .outgoing)) partitioning edge).Names partitioning partition
        (otherEnd direction edge) := by
  have here : otherEnd direction edge ∈
      positions (ownedIds partitioning partition dataset.nodes) ↔
      partitioning.partition (otherEnd direction edge) = partition := by
    rw [mem_positions, mem_ownedIds]
    exact and_iff_left scanned
  unfold otherEnd at here ⊢
  constructor
  · simp only [adjacencyEntry, here]
  · simp only [adjacencyEntry, here]
    by_cases owned : partitioning.partition
      (orient (decide (direction = .outgoing)) edge.2).2 = partition <;>
      simp [owned]

/-- The entry that names a node ends there. -/
theorem endpoint_of_names {here : PartitionId} {entry : AdjacencyEntry} {v : NodeId}
    (names : entry.Names partitioning here v) : entry.endpoint = some v := by
  obtain ⟨isLocal, isRemote⟩ := names
  rw [AdjacencyEntry.endpoint, isLocal, isRemote]
  by_cases owned : partitioning.partition v = here <;> simp [owned]

end Entries

/-! ### All partitions together -/

section AllPartitions

variable {dataset : Dataset} {partitioning : Partitioning}
variable {generation : PartitionId → IndexGeneration}

/-- Every node belongs to one of the partitions. -/
theorem owner_lt (v : NodeId) :
    (partitioning.partition v).val < partitioning.nPartitions :=
  partitioning.partitionOf_lt v

/-- In one direction the entries of all partitions are those of the edges whose
holder was scanned, once each. -/
theorem edgeIds_perm
    (built : ∀ p, p.val < partitioning.nPartitions →
      dataset.Built partitioning p (generation p)) (direction : Direction) :
    ((allEntries partitioning generation direction).map AdjacencyEntry.edgeId).Perm
      ((dataset.edges.filter fun edge => dataset.Scanned (holder direction edge)).map
        fun edge => edge.2.id) := by
  let scanned := dataset.edges.filter fun edge => dataset.Scanned (holder direction edge)
  have each : ∀ p ∈ List.range partitioning.nPartitions,
      (((generation ⟨p⟩).entries direction).map AdjacencyEntry.edgeId).Perm
        ((scanned.filter fun edge =>
            partitioning.partitionOf (holder direction edge) = p).map
          fun edge => edge.2.id) := by
    intro p inRange
    refine ((entries_of_built
        (built ⟨p⟩ (List.mem_range.mp inRange)) direction).map _).trans
      (List.Perm.of_eq ?_)
    rw [List.map_map, List.filter_filter]
    refine congrArg _ (List.filter_congr fun edge _ => ?_)
    rw [← Bool.decide_and, decide_eq_decide, mem_ownedIds]
    exact and_congr_left fun _ => PartitionId.mk.injEq _ _ ▸ Iff.rfl
  have covered : (scanned.filter fun edge =>
      partitioning.partitionOf (holder direction edge) ∈
        List.range partitioning.nPartitions) = scanned :=
    List.filter_eq_self.mpr fun edge _ => by simp [partitioning.partitionOf_lt]
  have glued := flatMap_filter_key_perm
    (fun edge => partitioning.partitionOf (holder direction edge)) scanned
    (List.range partitioning.nPartitions) List.nodup_range
  rw [covered] at glued
  rw [allEntries, List.map_flatMap]
  refine (List.Perm.flatMap_left _ each).trans ?_
  rw [← List.map_flatMap]
  exact glued.map _

/-- The entries of an edge are where its holder lives. -/
theorem mem_allEntries
    (built : ∀ p, p.val < partitioning.nPartitions →
      dataset.Built partitioning p (generation p)) {direction : Direction}
    {entry : AdjacencyEntry}
    (member : entry ∈ allEntries partitioning generation direction) :
    ∃ edge ∈ dataset.edges,
      entry = adjacencyEntry (partitioning.partition (holder direction edge))
        (positions (ownedIds partitioning
            (partitioning.partition (holder direction edge)) dataset.nodes))
        (decide (direction = .outgoing)) partitioning edge := by
  obtain ⟨p, inRange, held⟩ := List.mem_flatMap.mp member
  have placed := (entries_of_built
    (built ⟨p⟩ (List.mem_range.mp inRange)) direction).mem_iff.mp held
  obtain ⟨edge, kept, rfl⟩ := List.mem_map.mp placed
  rw [List.mem_filter, decide_eq_true_eq, mem_ownedIds] at kept
  refine ⟨edge, kept.1, ?_⟩
  rw [kept.2.1]

/-- On the owner of a scanned node, its list names a scanned node for exactly
the edges between the two. -/
theorem lists_iff
    (built : ∀ p, p.val < partitioning.nPartitions →
      dataset.Built partitioning p (generation p)) {direction : Direction}
    {u v : NodeId} {t : EdgeType} {e : EdgeId} (scannedU : dataset.Scanned u)
    (scannedV : dataset.Scanned v) : Lists partitioning generation direction u v t e ↔
      ∃ edge ∈ dataset.edges, Dataset.Leads direction edge u v ∧ edge.1 = t ∧
        edge.2.id = e := by
  have here := built (partitioning.partition u) (owner_lt u)
  constructor
  · rintro ⟨entry, member, id, type, names⟩
    exact ((neighbors_of_built here).mp
      ⟨entry, member, type, id, endpoint_of_names names⟩).2.2.2
  · rintro ⟨edge, member, leads, rfl, rfl⟩
    have isHolder : holder direction edge = u := congrArg Prod.fst leads
    have isOther : otherEnd direction edge = v := congrArg Prod.snd leads
    refine ⟨_, (mem_neighbors_of_built here).mpr
      ⟨rfl, scannedU, edge, member, isHolder, rfl⟩, rfl, rfl, ?_⟩
    have names := @names_adjacencyEntry dataset partitioning
      (partitioning.partition u) direction edge
      (isOther ▸ scannedV)
    rwa [isOther] at names

/-- An edge that leaves a node for another reaches the other from it. -/
theorem leads_symm {edge : EdgeType × EdgeRow} {u v : NodeId} :
    Dataset.Leads .outgoing edge u v ↔ Dataset.Leads .incoming edge v u := by
  simp [Dataset.Leads, orient, and_comm]

/-- Without duplicate ids a node has one position, on its owner. -/
theorem position_of_built (uniqueNodes : dataset.UniqueNodeIds)
    {node : Label × NodeRow} (member : node ∈ dataset.nodes) (p : PartitionId) :
    (ownedIds partitioning p dataset.nodes).count node.2.id =
        (if partitioning.partition node.2.id = p then 1 else 0) ∧
      (node.2.id ∈ positions (ownedIds partitioning p dataset.nodes) ↔
        partitioning.partition node.2.id = p) := by
  have owned : node.2.id ∈ ownedIds partitioning p dataset.nodes ↔
      partitioning.partition node.2.id = p := by
    rw [mem_ownedIds]
    exact and_iff_left ⟨node, member, rfl⟩
  have once : (ownedIds partitioning p dataset.nodes).Nodup :=
    uniqueNodes.sublist ((List.filter_sublist).map _)
  constructor
  · rw [once.count]
    exact if_congr owned rfl rfl
  · rw [mem_positions, owned]

/-- Without duplicate ids an edge is in one list of either direction, if its
holder is scanned. -/
theorem appearsOnce_of_built (uniqueEdges : dataset.UniqueEdgeIds)
    (built : ∀ p, p.val < partitioning.nPartitions →
      dataset.Built partitioning p (generation p)) {direction : Direction}
    {edge : EdgeType × EdgeRow} (member : edge ∈ dataset.edges)
    (scanned : dataset.Scanned (holder direction edge)) :
    ((allEntries partitioning generation direction).countP fun entry =>
      entry.edgeId == edge.2.id) = 1 := by
  have distinct :
      ((dataset.edges.filter fun edge => dataset.Scanned (holder direction edge)).map
      fun edge => edge.2.id).Nodup := uniqueEdges.sublist ((List.filter_sublist).map _)
  have counted := (edgeIds_perm built direction).count_eq edge.2.id
  rw [List.count_eq_one_of_mem distinct, List.count, List.countP_map] at counted
  · exact counted
  · exact List.mem_map_of_mem (List.mem_filter.mpr ⟨member, decide_eq_true scanned⟩)

/-- The generations that the builder makes of one dataset, for all partitions,
divide the graph among them.

* `built`: every partition below the number of partitions has a build of the
  dataset, at whatever time each;
* `uniqueNodes`, `uniqueEdges`: every id has one row. -/
theorem exactCover_of_built (uniqueNodes : dataset.UniqueNodeIds)
    (uniqueEdges : dataset.UniqueEdgeIds)
    (built : ∀ p, p.val < partitioning.nPartitions →
      dataset.Built partitioning p (generation p)) :
    ExactCover dataset partitioning generation := by
  constructor
  case nodeRecord =>
    intro node member p inRange
    obtain ⟨builtAt, same⟩ := built_iff.mp (built p inRange)
    rw [same]
    split
    case isTrue owned => exact nodeRecords_complete _ _ _ _ _ _ _ uniqueNodes member owned
    case isFalse other =>
        refine Option.eq_none_iff_forall_ne_some.mpr fun record found => ?_
        exact other (nodeRecords_sound _ _ _ _ _ _ _ found).1
  case nodePosition =>
    intro node member p inRange
    obtain ⟨builtAt, same⟩ := built_iff.mp (built p inRange)
    rw [same]
    exact position_of_built uniqueNodes member p
  case indexed =>
    intro node member p inRange labelOrType property key
    obtain ⟨builtAt, same⟩ := built_iff.mp (built p inRange)
    rw [same]
    refine (mem_lookupEq_assemble _ _ _ _ _ _ _).trans (and_congr_right fun _ => ?_)
    constructor
    · rintro ⟨other, member', id, indexed⟩
      rwa [← List.inj_on_of_nodup_map uniqueNodes member' member id]
    · exact fun indexed => ⟨node, member, rfl, indexed⟩
  case edgeRecord =>
    intro edge member p inRange
    split
    case isTrue owned => exact record_of_source uniqueEdges (built p inRange) member owned
    case isFalse other =>
        obtain ⟨builtAt, same⟩ := built_iff.mp (built p inRange)
        rw [same]
        refine Option.eq_none_iff_forall_ne_some.mpr fun record found => ?_
        obtain ⟨edge', member', id, owned, -⟩ := edgeRecords_sound _ _ _ _ _ _ _ found
        rw [List.inj_on_of_nodup_map uniqueEdges member' member id] at owned
        exact other owned
  case appearsOnce =>
    intro direction edge member scanned
    exact appearsOnce_of_built uniqueEdges built member scanned
  case listed =>
    intro direction edge member here there
    exact (lists_iff built here there).mpr ⟨edge, member, rfl, rfl, rfl⟩
  case named =>
    intro direction edge member here there entry held id
    obtain ⟨edge', member', rfl⟩ := mem_allEntries built held
    rw [List.inj_on_of_nodup_map uniqueEdges member' member id]
    exact ⟨rfl, names_adjacencyEntry there⟩
  case mirrored =>
    intro u v t e scannedU scannedV
    rw [lists_iff built scannedU scannedV, lists_iff built scannedV scannedU]
    simp only [leads_symm]

end AllPartitions

/-- The social graph on two partitions. -/
theorem social_exactCover : ExactCover Social.dataset Social.byParity fun p =>
    Social.dataset.generation Social.byParity p 0 :=
  exactCover_of_built Social.uniqueNodeIds Social.uniqueEdgeIds fun _ _ =>
    built_iff.mpr ⟨0, rfl⟩

end GraphEngine
