/-
Module: GraphEngine.Proofs.Build
Layer: Proofs
Purpose: What the generation built for a partition holds: the adjacency of the
  nodes it owns, their index entries and their records.
Trusted boundary: none
Main exports: built_iff, mem_neighbors_assemble, mem_lookupEq_assemble,
  nodeRecords_assemble, edgeRecords_assemble
-/
import GraphEngine.Spec.Dataset

namespace GraphEngine

open Std (ExtTreeMap)

/-! ### The scans -/

section Scans

variable (dataset : Dataset) (partitioning : Partitioning)

/-- A stream without bad rows is drained into its rows. -/
theorem drain_ok {Row : Type} (rows : List Row) :
    IcebergIndexBuilder.drain (m := Except StorageError) (rows.map .ok) = .ok rows := by
  rw [IcebergIndexBuilder.drain]
  induction rows with
  | nil => rfl
  | cons row rest inductionHypothesis =>
      rw [List.map_cons, List.mapM_cons, inductionHypothesis]
      rfl

/-- Pin the snapshot of one more table. -/
def pin (pinned : ExtTreeMap String SnapshotId compare) (table : String) :
    ExtTreeMap String SnapshotId compare :=
  pinned.insert table (dataset.snapshot table)

/-- The scan of the node tables adds their rows to those there are. -/
theorem scanLabels_ok (labels : List Label)
    (acc : ExtTreeMap String SnapshotId compare × List (Label × NodeRow)) :
    labels.foldlM (IcebergIndexBuilder.scanLabel
      ⟨dataset.reader, dataset.schema, partitioning⟩) acc =
      Except.ok ((labels.map nodeTableName).foldl (pin dataset) acc.1,
        acc.2 ++ labels.flatMap fun label => (dataset.nodeRows label).map fun row =>
          (label, row)) := by
  induction labels generalizing acc with
  | nil => rw [List.flatMap_nil, List.append_nil]; rfl
  | cons label rest inductionHypothesis =>
      have scanned : IcebergIndexBuilder.scanLabel
          ⟨dataset.reader, dataset.schema, partitioning⟩ acc
          label = Except.ok (pin dataset acc.1 (nodeTableName label),
            acc.2 ++ (dataset.nodeRows label).map fun row => (label, row)) := by
        simp only [IcebergIndexBuilder.scanLabel, Dataset.reader, drain_ok, bind,
          Except.bind, pure, Except.pure, pin]
      rw [List.foldlM_cons, scanned]
      refine (inductionHypothesis _).trans ?_
      rw [List.flatMap_cons, List.append_assoc]
      rfl

/-- The scan of the edge tables adds their rows to those there are. -/
theorem scanEdgeTypes_ok (edgeDefs : List EdgeDef)
    (acc : ExtTreeMap String SnapshotId compare × List (EdgeType × EdgeRow)) :
    edgeDefs.foldlM (IcebergIndexBuilder.scanEdgeType
      ⟨dataset.reader, dataset.schema, partitioning⟩)
      acc = Except.ok ((edgeDefs.map fun edgeDef =>
          edgeTableName edgeDef.edgeType).foldl (pin dataset)
        acc.1, acc.2 ++ edgeDefs.flatMap fun edgeDef =>
          (dataset.edgeRows edgeDef.edgeType).map fun row =>
            (edgeDef.edgeType, row)) := by
  induction edgeDefs generalizing acc with
  | nil => rw [List.flatMap_nil, List.append_nil]; rfl
  | cons edgeDef rest inductionHypothesis =>
      have scanned : IcebergIndexBuilder.scanEdgeType
          ⟨dataset.reader, dataset.schema, partitioning⟩ acc
          edgeDef = Except.ok (pin dataset acc.1 (edgeTableName edgeDef.edgeType),
            acc.2 ++ (dataset.edgeRows edgeDef.edgeType).map fun row =>
              (edgeDef.edgeType, row)) := by
        simp only [IcebergIndexBuilder.scanEdgeType, Dataset.reader, drain_ok, bind,
          Except.bind, pure, Except.pure, pin]
      rw [List.foldlM_cons, scanned]
      refine (inductionHypothesis _).trans ?_
      rw [List.flatMap_cons, List.append_assoc]
      rfl

/-- A rebuild over the tables assembles the generation from all their rows. -/
theorem build_ok (partition : PartitionId) (builtAtUnixMs : Int) :
    IcebergIndexBuilder.build
      ⟨dataset.reader, dataset.schema, partitioning⟩ partition dataset.labels
      builtAtUnixMs =
        Except.ok (dataset.generation partitioning partition builtAtUnixMs) := by
  have nodesScanned := scanLabels_ok dataset partitioning dataset.labels (∅, [])
  have edgesScanned :=
    scanEdgeTypes_ok dataset partitioning (dataset.schema.edges.toList.map Prod.snd)
    ((dataset.labels.map nodeTableName).foldl (pin dataset) ∅, [])
  rw [List.flatMap_map, List.map_map] at edgesScanned
  simp only [IcebergIndexBuilder.build, nodesScanned, edgesScanned, bind, Except.bind,
    pure, Except.pure, Dataset.generation, Dataset.snapshotByTable, List.foldl_append]
  rfl

/-- The generations built for a partition differ in their build time only. -/
theorem built_iff {dataset : Dataset} {partitioning : Partitioning}
    {partition : PartitionId} {generation : IndexGeneration} :
    dataset.Built partitioning partition generation ↔
      ∃ builtAtUnixMs,
        generation = dataset.generation partitioning partition builtAtUnixMs := by
  refine exists_congr fun builtAtUnixMs => ?_
  rw [build_ok, Except.ok.injEq, eq_comm]

/-- The deployment of a dataset serves it. -/
theorem served_deployment (hasher : Partitioning) :
    dataset.ServedBy hasher (deployment hasher) (dataset.deployed hasher) := by
  intro p generation serves
  rw [servingOf_deployment] at serves
  split at serves
  · cases serves
    exact built_iff.mpr ⟨0, rfl⟩
  · cases serves

end Scans

section Assemble

variable (schema : Schema) (partitioning : Partitioning) (partition : PartitionId)
variable (snapshots : ExtTreeMap String SnapshotId compare) (builtAt : Int)
variable (nodes : List (Label × NodeRow)) (edges : List (EdgeType × EdgeRow))

/-! ### Records -/

/-- A partition retains records of the nodes it owns only. -/
theorem nodeRecords_sound {v : NodeId} {record : NodeRecord}
    (found : (assemble schema partitioning partition snapshots builtAt nodes
        edges).nodeRecords[v]? = some record) :
    partitioning.partition v = partition ∧ ∃ node ∈ nodes, node.2.id = v ∧
        record = { label := node.1, properties := node.2.properties } := by
  obtain ⟨node, member, same⟩ := List.mem_map.mp (mem_of_getElem?_collectMap found)
  simp only [Prod.mk.injEq] at same
  rw [List.mem_filter, decide_eq_true_eq] at member
  refine ⟨?_, node, member.1, same.1, same.2.symm⟩
  rw [← same.1]
  exact PartitionId.val_injective _ _ member.2

/-- Every node owned has a record: that of the last row with its id. -/
theorem nodeRecords_isSome {node : Label × NodeRow} (member : node ∈ nodes)
    (owned : partitioning.partition node.2.id = partition) :
    ((assemble schema partitioning partition snapshots builtAt nodes
      edges).nodeRecords[node.2.id]?).isSome := by
  apply getElem?_collectMap_isSome.mpr
  rw [List.map_map, List.mem_map]
  refine ⟨node, ?_, rfl⟩
  rw [List.mem_filter, decide_eq_true_eq]
  exact ⟨member, congrArg PartitionId.val owned⟩

/-- With unique ids every node owned has its record. -/
theorem nodeRecords_complete (unique : (nodes.map fun node => node.2.id).Nodup)
    {node : Label × NodeRow} (member : node ∈ nodes)
    (owned : partitioning.partition node.2.id = partition) :
    (assemble schema partitioning partition snapshots builtAt nodes
      edges).nodeRecords[node.2.id]? =
      some { label := node.1, properties := node.2.properties } := by
  have kept : node ∈ nodes.filter fun node =>
      partitioning.partitionOf node.2.id = partition.val := by
    rw [List.mem_filter, decide_eq_true_eq]
    exact ⟨member, congrArg PartitionId.val owned⟩
  refine getElem?_collectMap_of_agree (List.mem_map.mpr ⟨node, kept, rfl⟩)
    fun record other => ?_
  obtain ⟨node', kept', same⟩ := List.mem_map.mp other
  simp only [Prod.mk.injEq] at same
  have equal : node' = node :=
    List.inj_on_of_nodup_map unique (List.mem_filter.mp kept').1 member same.1
  rw [← same.2, equal]

/-- A partition retains records of the edges whose source it owns only. -/
theorem edgeRecords_sound {e : EdgeId} {record : EdgeRecord}
    (found : (assemble schema partitioning partition snapshots builtAt nodes
        edges).edgeRecords[e]? = some record) :
    ∃ edge ∈ edges, edge.2.id = e ∧ partitioning.partition edge.2.src = partition ∧
        record = { edgeType := edge.1, properties := edge.2.properties } := by
  obtain ⟨edge, member, same⟩ := List.mem_map.mp (mem_of_getElem?_collectMap found)
  simp only [Prod.mk.injEq] at same
  rw [List.mem_filter, decide_eq_true_eq] at member
  exact ⟨edge, member.1, same.1, PartitionId.val_injective _ _ member.2, same.2.symm⟩

/-- With unique ids every edge whose source is owned has its record. -/
theorem edgeRecords_complete (unique : (edges.map fun edge => edge.2.id).Nodup)
    {edge : EdgeType × EdgeRow} (member : edge ∈ edges)
    (owned : partitioning.partition edge.2.src = partition) :
    (assemble schema partitioning partition snapshots builtAt nodes
      edges).edgeRecords[edge.2.id]? =
      some { edgeType := edge.1, properties := edge.2.properties } := by
  have kept : edge ∈ edges.filter fun edge =>
      partitioning.partitionOf edge.2.src = partition.val := by
    rw [List.mem_filter, decide_eq_true_eq]
    exact ⟨member, congrArg PartitionId.val owned⟩
  refine getElem?_collectMap_of_agree (List.mem_map.mpr ⟨edge, kept, rfl⟩)
    fun record other => ?_
  obtain ⟨edge', kept', same⟩ := List.mem_map.mp other
  simp only [Prod.mk.injEq] at same
  have equal : edge' = edge :=
    List.inj_on_of_nodup_map unique (List.mem_filter.mp kept').1 member same.1
  rw [← same.2, equal]

/-! ### The property index -/

/-- A row is indexed under the key of each value whose property its label marks
as indexed. -/
theorem mem_indexedKeys {node : Label × NodeRow} {labelOrType property : String}
    {key : PropertyKey} :
    ((labelOrType, property), key) ∈ indexedKeys schema node ↔
      node.1.name = labelOrType ∧ (∃ nodeDef prop, schema.nodeDef node.1 = some nodeDef ∧
        prop ∈ nodeDef.properties ∧ prop.name = property ∧ prop.indexed = true) ∧
      ∃ value, node.2.properties[property]? = some value ∧
        propertyKey value = some key := by
  rw [indexedKeys]
  split
  case h_1 undeclared =>
    constructor
    · intro impossible
      cases impossible
    · intro ⟨_, ⟨_, _, declared, _⟩, _⟩
      rw [undeclared] at declared
      cases declared
  case h_2 nodeDef declared =>
    simp only [List.mem_filterMap, List.mem_filter, Option.map_eq_some_iff,
      Option.bind_eq_some_iff, Prod.mk.injEq]
    constructor
    · intro ⟨prop, ⟨listed, isIndexed⟩, _, ⟨value, stored, keyed⟩,
        ⟨labelled, named⟩, same⟩
      subst named same
      exact ⟨labelled, ⟨nodeDef, prop, declared, listed, rfl, isIndexed⟩, value,
        stored, keyed⟩
    · intro ⟨labelled, ⟨other, prop, declared', listed, named, isIndexed⟩, value,
        stored, keyed⟩
      rw [declared] at declared'
      cases declared'
      subst named
      exact ⟨prop, ⟨listed, isIndexed⟩, key, ⟨value, stored, keyed⟩, ⟨labelled, rfl⟩, rfl⟩

/-- Pushing one node under a slot and key adds it at the end of that lookup and
to no other. -/
theorem lookupEq_indexEntry
    (byKey : ExtTreeMap (String × String)
      (ExtTreeMap PropertyKey (List NodeId) compare) compare)
    (slot : String × String) (key : PropertyKey) (id : NodeId)
    (slot' : String × String) (key' : PropertyKey) :
    PropertyIndex.lookupEq ⟨indexEntry byKey slot key id⟩ slot'.1 slot'.2 key' =
      PropertyIndex.lookupEq ⟨byKey⟩ slot'.1 slot'.2 key' ++ if (slot, key) =
        (slot', key') then [id] else [] := by
  simp only [PropertyIndex.lookupEq, indexEntry, Std.ExtTreeMap.getElem?_alter,
    Prod.mk.eta]
  by_cases sameSlot : slot = slot'
  · subst sameSlot
    simp only [Std.ReflOrd.compare_self, if_true, Option.bind_some, pushGroup,
      Std.ExtTreeMap.getElem?_alter]
    by_cases sameKey : key = key'
    · subst sameKey
      simp only [Std.ReflOrd.compare_self, if_true]
      cases byKey[slot]? with
      | none => simp
      | some tree => simp
    · have different : compare key key' ≠ .eq :=
        fun same => sameKey (Std.LawfulEqOrd.eq_of_compare same)
      simp only [if_neg different, Prod.mk.injEq, sameKey, and_false, if_false,
        List.append_nil]
      cases byKey[slot]? with
      | none => simp
      | some tree => simp
  · have different : compare slot slot' ≠ .eq :=
      fun same => sameSlot (Std.LawfulEqOrd.eq_of_compare same)
    simp only [if_neg different, Prod.mk.injEq, sameSlot, false_and, if_false,
      List.append_nil]

/-- Indexing one node adds it once for each of its keys. -/
theorem lookupEq_indexNode (keys : List ((String × String) × PropertyKey))
    (id : NodeId)
    (byKey : ExtTreeMap (String × String)
      (ExtTreeMap PropertyKey (List NodeId) compare) compare)
    (slot : String × String) (key : PropertyKey) :
    PropertyIndex.lookupEq
        ⟨keys.foldl (fun byKey entry => indexEntry byKey entry.1 entry.2 id) byKey⟩
          slot.1 slot.2 key =
      PropertyIndex.lookupEq ⟨byKey⟩ slot.1 slot.2 key ++
        (keys.filter fun entry => entry = (slot, key)).map fun _ => id := by
  induction keys generalizing byKey with
  | nil => simp
  | cons entry rest inductionHypothesis =>
      rw [List.foldl_cons, inductionHypothesis, lookupEq_indexEntry, List.filter_cons,
        List.append_assoc]
      by_cases same : entry = (slot, key)
      · simp [same]
      · simp [same]

/-- An equality lookup is a scan of the rows, in their order. -/
theorem lookupEq_buildPropertyIndex (labelOrType property : String) (key : PropertyKey) :
    (buildPropertyIndex schema nodes).lookupEq labelOrType property key =
      nodes.flatMap fun node => ((indexedKeys schema node).filter fun entry =>
        entry = ((labelOrType, property), key)).map fun _ => node.2.id := by
  rw [buildPropertyIndex]
  induction nodes using List.reverseRecOn with
  | nil => simp [PropertyIndex.lookupEq]
  | append_singleton nodes node inductionHypothesis =>
      rw [List.foldl_append, List.foldl_cons, List.foldl_nil,
        lookupEq_indexNode _ _ _ (labelOrType, property), inductionHypothesis,
        List.flatMap_append, List.flatMap_singleton]

/-- An equality lookup finds the nodes with that index key. -/
theorem mem_lookupEq_buildPropertyIndex {labelOrType property : String}
    {key : PropertyKey} {v : NodeId} :
    v ∈ (buildPropertyIndex schema nodes).lookupEq labelOrType property key ↔
      ∃ node ∈ nodes, node.2.id = v ∧
        ((labelOrType, property), key) ∈ indexedKeys schema node := by
  simp only [lookupEq_buildPropertyIndex, List.mem_flatMap, List.mem_map,
    List.mem_filter, decide_eq_true_eq]
  refine exists_congr fun node => and_congr_right fun _ => ?_
  constructor
  · intro ⟨entry, ⟨indexed, same⟩, id⟩
    exact ⟨id, same ▸ indexed⟩
  · intro ⟨id, indexed⟩
    exact ⟨_, ⟨indexed, rfl⟩, id⟩

/-- An equality lookup on a partition finds the nodes it owns with that index
key. -/
theorem mem_lookupEq_assemble {labelOrType property : String} {key : PropertyKey}
    {v : NodeId} :
    v ∈ (assemble schema partitioning partition snapshots builtAt nodes
      edges).properties.lookupEq
        labelOrType property key ↔
      partitioning.partition v = partition ∧ ∃ node ∈ nodes, node.2.id = v ∧
        ((labelOrType, property), key) ∈ indexedKeys schema node := by
  refine Iff.trans (mem_lookupEq_buildPropertyIndex schema _) ?_
  constructor
  · rintro ⟨node, member, rfl, indexed⟩
    rw [List.mem_filter, decide_eq_true_eq] at member
    exact ⟨PartitionId.val_injective _ _ member.2, node, member.1, rfl, indexed⟩
  · rintro ⟨owned, node, member, rfl, indexed⟩
    refine ⟨node, ?_, rfl, indexed⟩
    rw [List.mem_filter, decide_eq_true_eq]
    exact ⟨member, congrArg PartitionId.val owned⟩

/-! ### Adjacency -/

/-- The positions are those of the nodes listed. -/
theorem mem_positions {nodeIds : List NodeId} {v : NodeId} :
    v ∈ positions nodeIds ↔ v ∈ nodeIds := by
  rw [Std.ExtTreeMap.mem_iff_isSome_getElem?, positions, getElem?_collectMap_isSome,
    List.map_map]
  have ids : (nodeIds.zipIdx.map
      (Prod.fst ∘ fun entry => (entry.1, LocalIdx.mk entry.2))) = nodeIds := by
    have composed : (Prod.fst ∘ fun entry : NodeId × Nat =>
        (entry.1, LocalIdx.mk entry.2)) = Prod.fst :=
      rfl
    rw [composed, List.zipIdx_map_fst]
  rw [ids]

/-- Two nodes at one position are the same node. -/
theorem positions_injective {nodeIds : List NodeId} {v w : NodeId} {i : LocalIdx}
    (first : (positions nodeIds)[v]? = some i)
    (second : (positions nodeIds)[w]? = some i) : v = w := by
  have atIndex : ∀ {u : NodeId}, (positions nodeIds)[u]? = some i →
      nodeIds[i.val]? = some u := by
    intro u found
    obtain ⟨entry, inZip, same⟩ := List.mem_map.mp (mem_of_getElem?_collectMap found)
    cases same
    have placed := List.mem_zipIdx_iff_getElem?.mp inZip
    exact placed
  exact Option.some.inj ((atIndex first).symm.trans (atIndex second))

/-- One direction of the adjacency, laid out and read back: the entries of a
node's edges, in scan order. -/
theorem csrRow_buildCsr {nodeIds : List NodeId} {outgoing : Bool} {u : NodeId}
    {i : LocalIdx} (found : (positions nodeIds)[u]? = some i) :
    csrRow (buildCsr partition nodeIds (positions nodeIds) edges outgoing partitioning).1
        (buildCsr partition nodeIds
          (positions nodeIds) edges outgoing partitioning).2 i.val =
      (edges.filter fun edge => (orient outgoing edge.2).1 = u).map
        (adjacencyEntry partition (positions nodeIds) outgoing partitioning) := by
  have within := positions_lt u i found
  have row := getElem?_fillRows
    (fun edge : EdgeType × EdgeRow =>
      ((positions nodeIds)[(orient outgoing edge.2).1]?).map LocalIdx.val)
    (adjacencyEntry partition (positions nodeIds) outgoing partitioning) edges within
  have inRows : i.val < (fillRows
      (fun edge : EdgeType × EdgeRow =>
        ((positions nodeIds)[(orient outgoing edge.2).1]?).map LocalIdx.val)
      (adjacencyEntry partition (positions nodeIds) outgoing partitioning)
        nodeIds.length edges).length := by
    rw [length_fillRows]
    exact within
  rw [List.getElem?_eq_getElem inRows] at row
  rw [buildCsr, csrRow_csrLayout _ inRows, Option.some.inj row]
  refine congrArg _ (List.filter_congr fun edge _ => decide_eq_decide.mpr ?_)
  constructor
  · intro placed
    obtain ⟨j, placed, same⟩ := Option.map_eq_some_iff.mp placed
    have position : j = i := by cases i; cases j; cases same; rfl
    rw [position] at placed
    exact positions_injective placed found
  · intro owner
    rw [owner, found]
    rfl

/-- The entries of a row are those of the edges that are placed in it. -/
theorem mem_csrRow_buildCsr {nodeIds : List NodeId} {outgoing : Bool} {u : NodeId}
    {i : LocalIdx} (found : (positions nodeIds)[u]? = some i)
    {entry : AdjacencyEntry} :
    entry ∈ csrRow
      (buildCsr partition nodeIds (positions nodeIds) edges outgoing partitioning).1
        (buildCsr partition nodeIds
          (positions nodeIds) edges outgoing partitioning).2 i.val ↔
      ∃ edge ∈ edges, (orient outgoing edge.2).1 = u ∧
        entry = adjacencyEntry partition
          (positions nodeIds) outgoing partitioning edge := by
  rw [csrRow_buildCsr partitioning partition edges found, List.mem_map]
  refine exists_congr fun edge => ?_
  rw [List.mem_filter, decide_eq_true_eq, and_assoc, eq_comm (b := entry)]

/-- The ids that a partition owns among the rows scanned. -/
def ownedIds : List NodeId :=
  (nodes.filter fun node => partitioning.partitionOf node.2.id = partition.val).map
    fun node => node.2.id

/-- The ids a partition owns: those that hash to it among the nodes scanned. -/
theorem mem_ownedIds {v : NodeId} : v ∈ ownedIds partitioning partition nodes ↔
    partitioning.partition v = partition ∧ ∃ node ∈ nodes, node.2.id = v := by
  rw [ownedIds, List.mem_map]
  constructor
  · rintro ⟨node, kept, rfl⟩
    rw [List.mem_filter, decide_eq_true_eq] at kept
    exact ⟨PartitionId.val_injective _ _ kept.2, node, kept.1, rfl⟩
  · rintro ⟨owned, node, member, rfl⟩
    refine ⟨node, ?_, rfl⟩
    rw [List.mem_filter, decide_eq_true_eq]
    exact ⟨member, congrArg PartitionId.val owned⟩

/-- A node's entries are those of the row at its position. -/
theorem mem_neighbors_iff {topology : TopologicalIndex} {node : NodeId}
    {offsets : List Nat} {entries : List AdjacencyEntry} {entry : AdjacencyEntry} :
    entry ∈ topology.neighbors node offsets entries ↔
      ∃ i, topology.idToLocal[node]? = some i ∧ entry ∈ csrRow offsets entries i.val := by
  rw [TopologicalIndex.neighbors]
  cases topology.idToLocal[node]? <;> simp

/-- The neighbors of a node on the partition that owns it are the entries of its
edges. -/
theorem mem_neighbors_assemble {direction : Direction} {u : NodeId}
    {entry : AdjacencyEntry} :
    entry ∈
      (assemble schema partitioning partition snapshots builtAt nodes edges).neighbors
        direction u ↔
      u ∈ ownedIds partitioning partition nodes ∧
        ∃ edge ∈ edges, (orient (decide (direction = .outgoing)) edge.2).1 = u ∧
          entry = adjacencyEntry partition
            (positions (ownedIds partitioning partition nodes))
            (decide (direction = .outgoing)) partitioning edge := by
  have row : (assemble schema partitioning partition snapshots builtAt nodes
      edges).neighbors direction u =
      (buildTopology partition
        (nodes.filter fun node => partitioning.partitionOf node.2.id = partition.val)
        edges partitioning).neighbors u
          (buildCsr partition (ownedIds partitioning partition nodes)
            (positions (ownedIds partitioning partition nodes)) edges
            (decide (direction = .outgoing)) partitioning).1
          (buildCsr partition (ownedIds partitioning partition nodes)
            (positions (ownedIds partitioning partition nodes)) edges
            (decide (direction = .outgoing)) partitioning).2 := by
    cases direction <;> rfl
  have index : (buildTopology partition
      (nodes.filter fun node => partitioning.partitionOf node.2.id = partition.val) edges
        partitioning).idToLocal = positions (ownedIds partitioning partition nodes) := rfl
  rw [row, mem_neighbors_iff, index, ← mem_positions,
    Std.ExtTreeMap.mem_iff_isSome_getElem?, Option.isSome_iff_exists,
    ← exists_and_right]
  refine exists_congr fun i => and_congr_right fun found => ?_
  exact mem_csrRow_buildCsr partitioning partition edges found

/-- Where the entry of an edge leads: to the other end, unless that node is
assigned to this partition and was not scanned. -/
theorem endpoint_adjacencyEntry {outgoing : Bool} {edge : EdgeType × EdgeRow}
    {v : NodeId} :
    (adjacencyEntry partition
      (positions (ownedIds partitioning partition nodes)) outgoing partitioning
        edge).endpoint = some v ↔
      (orient outgoing edge.2).2 = v ∧
        ((∃ node ∈ nodes, node.2.id = v) ∨ partitioning.partition v ≠ partition) := by
  have here : (orient outgoing edge.2).2 ∈
      positions (ownedIds partitioning partition nodes) ↔
      partitioning.partition (orient outgoing edge.2).2 = partition ∧
        ∃ node ∈ nodes, node.2.id = (orient outgoing edge.2).2 := by
    rw [mem_positions, mem_ownedIds]
  simp only [AdjacencyEntry.endpoint, adjacencyEntry]
  by_cases isLocal : (orient outgoing edge.2).2 ∈
    positions (ownedIds partitioning partition nodes)
  · rw [if_pos isLocal, Option.some_or, Option.some.injEq]
    constructor
    · rintro rfl
      exact ⟨rfl, .inl (here.mp isLocal).2⟩
    · exact fun both => both.1
  · rw [if_neg isLocal, Option.none_or]
    rw [here, not_and_or] at isLocal
    by_cases away : partitioning.partition (orient outgoing edge.2).2 = partition
    · rw [if_neg (by simp [away])]
      simp only [Option.map_none, reduceCtorEq, false_iff, not_and, not_or, not_not]
      rintro rfl
      exact ⟨isLocal.resolve_left (not_not_intro away), away⟩
    · rw [if_pos ⟨rfl, away⟩, Option.map_some, Option.some.injEq]
      constructor
      · rintro rfl
        exact ⟨rfl, .inr away⟩
      · exact fun both => both.1

/-- The anti-join check sees the same endpoint. -/
theorem landsOn_adjacencyEntry {idToLocal : ExtTreeMap NodeId LocalIdx compare}
    {outgoing : Bool} {edge : EdgeType × EdgeRow} {v : NodeId} :
    SimpleLocalExecutor.landsOn
      (adjacencyEntry partition idToLocal outgoing partitioning edge) v = true ↔
      (adjacencyEntry partition idToLocal outgoing partitioning edge).endpoint =
        some v := by
  simp only [SimpleLocalExecutor.landsOn, AdjacencyEntry.endpoint, Bool.or_eq_true,
    adjacencyEntry]
  by_cases isLocal : (orient outgoing edge.2).2 ∈ idToLocal <;> simp [isLocal]

end Assemble

end GraphEngine
