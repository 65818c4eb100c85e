/-
Module: GraphEngine.Spec.ClusterView
Layer: Spec
Purpose: The view that a cluster offers: every partition with a healthy replica
  shows the generation that the replica serves, and a node is looked up on the
  partition it is assigned to.
Trusted boundary: none
Main exports: AdjacencyEntry.endpoint, servingOf, clusterView, searchView,
  clusterView_le
-/
import GraphEngine.Spec.GraphView

namespace GraphEngine

open SimpleLocalExecutor (landsOn)

/-- The node an adjacency entry leads to, local or remote. -/
def AdjacencyEntry.endpoint (entry : AdjacencyEntry) : Option NodeId :=
  entry.dstLocal.or (entry.dstRemote.map RemoteRef.node)

/-- The generation served by the replica that would be asked about a partition. -/
def servingOf (partitions : PartitionMap) (serve : GenerationHandle → IndexGeneration)
    (partition : PartitionId) : Option IndexGeneration :=
  (pickReplica partitions partition).map fun replica => serve replica.handle

/-- The map after all replicas of a partition were lost. -/
def PartitionMap.without (partitions : PartitionMap) (lost : PartitionId) :
    PartitionMap where
  replicasByPartition := partitions.replicasByPartition.erase lost

/-- What a partition serves without the lost one it serves with it. -/
theorem servingOf_without {partitions : PartitionMap} {lost p : PartitionId}
    {serve : GenerationHandle → IndexGeneration} {generation : IndexGeneration}
    (serves : servingOf (partitions.without lost) serve p = some generation) :
    servingOf partitions serve p = some generation := by
  have same : lost ≠ p →
      (partitions.without lost).healthyReplicas p = partitions.healthyReplicas p := by
    intro different
    simp only [PartitionMap.healthyReplicas, PartitionMap.without,
      Std.ExtTreeMap.getElem?_erase, Std.compare_eq_iff_eq, if_neg different]
  by_cases lostHere : lost = p
  · subst lostHere
    simp [servingOf, pickReplica, PartitionMap.healthyReplicas,
      PartitionMap.without] at serves
  · rwa [servingOf, pickReplica, same lostHere] at serves

/-- What a cluster shows of the graph.  `serving` gives the generation of a
partition that is reached, and nothing of one that is not.  A lookup or a scan
shows what any partition has.  Of a node only the partition that owns it is
asked, for its entries as for its record; the record of an edge is shown by
whichever partition has one.  A candidate of an anti-join is an entry together
with the record that the same partition has of its edge. -/
def clusterView (hasher : Partitioning) (serving : PartitionId → Option IndexGeneration) :
    GraphView where
  started labelOrType property key v := ∃ p generation, serving p = some generation ∧
    v ∈ generation.properties.lookupEq labelOrType property key
  labelled label v := ∃ p generation, serving p = some generation ∧
    ∃ record, generation.nodeRecords[v]? = some record ∧ record.label.name = label
  adjacent direction u t e v :=
    ∃ generation, serving (hasher.partition u) = some generation ∧
    ∃ entry ∈ generation.neighbors direction u,
      entry.edgeType = t ∧ entry.edgeId = e ∧ entry.endpoint = some v
  nodeRecord v record := ∃ generation, serving (hasher.partition v) = some generation ∧
    generation.nodeRecords[v]? = some record
  edgeRecord e record := ∃ p generation, serving p = some generation ∧
    generation.edgeRecords[e]? = some record
  owned u := (serving (hasher.partition u)).isSome
  candidate direction u t v record :=
    ∃ generation, serving (hasher.partition u) = some generation ∧
    ∃ entry ∈ generation.neighbors direction u,
      entry.edgeType = t ∧ landsOn entry v = true ∧
        generation.edgeRecords[entry.edgeId]? = some record

/-- The record that is found of an edge when the partitions are asked one after
the other in this order. -/
def foundInOrder (serving : PartitionId → Option IndexGeneration)
    (order : List PartitionId) (e : EdgeId) : Option EdgeRecord :=
  order.findSome? fun p => (serving p).bind fun generation => generation.edgeRecords[e]?

/-- What a cluster shows of the graph when edges are looked for in this order.
Only where two partitions have different records of one edge does the order
matter. -/
def searchView (hasher : Partitioning) (serving : PartitionId → Option IndexGeneration)
    (order : List PartitionId) : GraphView :=
  { clusterView hasher serving with
    edgeRecord := fun e record => foundInOrder serving order e = some record }

/-- In one order one record is found of an edge. -/
theorem searchView_edgesAgree (hasher : Partitioning)
    (serving : PartitionId → Option IndexGeneration) (order : List PartitionId) :
    (searchView hasher serving order).EdgesAgree := by
  intro e record other found found'
  exact Option.some.inj (found.symm.trans found')

/-- A record found in some order is one that a partition has. -/
theorem foundInOrder_sound {hasher : Partitioning}
    {serving : PartitionId → Option IndexGeneration} {order : List PartitionId}
    {e : EdgeId} {record : EdgeRecord}
    (found : foundInOrder serving order e = some record) :
    (clusterView hasher serving).edgeRecord e record := by
  rcases List.exists_of_findSome?_eq_some found with ⟨p, -, here⟩
  rcases Option.bind_eq_some_iff.mp here with ⟨generation, serves, stored⟩
  exact ⟨p, generation, serves, stored⟩

/-- An edge of which some partition asked has a record is found. -/
theorem foundInOrder_complete {serving : PartitionId → Option IndexGeneration}
    {order : List PartitionId} {e : EdgeId} {p : PartitionId}
    {generation : IndexGeneration} {record : EdgeRecord} (asked : p ∈ order)
    (serves : serving p = some generation)
    (stored : generation.edgeRecords[e]? = some record) :
    ∃ other, foundInOrder serving order e = some other := by
  rw [← Option.isSome_iff_exists, foundInOrder, List.findSome?_isSome_iff]
  refine ⟨p, asked, ?_⟩
  rw [serves, Option.bind_some, stored, Option.isSome_some]

/-- A node has one record in a cluster: the one of the partition it is assigned
to. -/
theorem clusterView_nodeRecord_unique {hasher : Partitioning}
    {serving : PartitionId → Option IndexGeneration} {v : NodeId}
    {record record' : NodeRecord}
    (first : (clusterView hasher serving).nodeRecord v record)
    (second : (clusterView hasher serving).nodeRecord v record') :
    record = record' := by
  obtain ⟨generation, serves, found⟩ := first
  obtain ⟨generation', serves', found'⟩ := second
  rw [serves] at serves'
  cases serves'
  rw [found] at found'
  exact Option.some.inj found'

/-- More replicas, serving the same generations, show more of the graph. -/
theorem clusterView_le (hasher : Partitioning)
    {serving serving' : PartitionId → Option IndexGeneration}
    (extends_ : ∀ p generation, serving p = some generation →
      serving' p = some generation) :
    (clusterView hasher serving).Le (clusterView hasher serving') where
  started _ _ _ _ := fun ⟨p, generation, serves, rest⟩ =>
    ⟨p, generation, extends_ _ _ serves, rest⟩
  labelled _ _ := fun ⟨p, generation, serves, rest⟩ =>
    ⟨p, generation, extends_ _ _ serves, rest⟩
  adjacent _ _ _ _ _ := fun ⟨generation, serves, rest⟩ =>
    ⟨generation, extends_ _ _ serves, rest⟩
  nodeRecord _ _ := fun ⟨generation, serves, rest⟩ =>
    ⟨generation, extends_ _ _ serves, rest⟩
  edgeRecord _ _ := fun ⟨p, generation, serves, rest⟩ =>
    ⟨p, generation, extends_ _ _ serves, rest⟩
  owned u owned := by
    obtain ⟨generation, serves⟩ := Option.isSome_iff_exists.mp owned
    exact Option.isSome_iff_exists.mpr ⟨generation, extends_ _ _ serves⟩
  candidate u t v record owned := by
    rintro ⟨generation', serves', rest⟩
    obtain ⟨generation, serves⟩ := Option.isSome_iff_exists.mp owned
    have same : generation = generation' := by
      have lifted := extends_ _ _ serves
      rw [serves'] at lifted
      exact (Option.some.inj lifted).symm
    subst same
    exact ⟨generation, serves, rest⟩

end GraphEngine
