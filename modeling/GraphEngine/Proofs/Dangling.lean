/-
Module: GraphEngine.Proofs.Dangling
Layer: Proofs
Purpose: Edges whose other end is in no node table.  The builder drops such an
  end when it is assigned to the partition being built and turns it into a
  remote reference otherwise, so a traversal can step onto a node that does not
  exist exactly when an edge leads from a scanned node to a missing one of
  another partition.
Trusted boundary: none
Main exports: Dataset.MissingAtHome, NoDangling, noDangling_iff
-/
import GraphEngine.Proofs.ExactCover
import GraphEngine.Proofs.HopExtensions
import GraphEngine.Proofs.ScatterGather

namespace GraphEngine

open SimpleLocalExecutor (landsOn NamesWithin expandHop expandHop_within)

/-- Where an edge leads from a scanned node to a missing one, both are assigned
to one partition. -/
def Dataset.MissingAtHome (dataset : Dataset) (partitioning : Partitioning) : Prop :=
  ∀ direction, ∀ edge ∈ dataset.edges, dataset.Scanned (holder direction edge) →
    ¬ dataset.Scanned (otherEnd direction edge) →
    partitioning.partition (otherEnd direction edge) = partitioning.partition
      (holder direction edge)

section Dangling

variable [Chrono] (dataset : Dataset) (partitioning : Partitioning)

/-- No reference leads out of the tables: no entry of a built partition, nothing
that a call or a hop over partitions binds, and a hop over partitions is one
over the tables, which have no edge that lacks an end. -/
structure NoDangling : Prop where
  entries : ∀ p generation, dataset.Built partitioning p generation → ∀ direction,
    ∀ entry ∈ generation.entries direction, ∀ v,
      entry.dstLocal = some v ∨ entry.dstRemote.map RemoteRef.node = some v →
        dataset.Scanned v
  localHop : ∀ p (serve : GenerationHandle → IndexGeneration) index,
    dataset.Built partitioning p (serve index) →
    ∀ step frontier found,
      (expandHop index (.expandHop step) frontier).Returns serve (.ok found) →
      ∀ b ∈ found.all, ∀ v, b.nodes[step.toAlias]? = some v → dataset.Scanned v
  distributedHop : ∀ partitions serve,
    dataset.ServedBy partitioning partitions serve → ∀ step frontier out,
    ((inProcess partitioning).scatterGatherHop partitions step frontier).Returns
      serve (.ok out) →
      ∀ b ∈ out, ∀ v, b.nodes[step.toAlias]? = some v → dataset.Scanned v
  sameTraversal : ∀ partitions serve, dataset.ServedBy partitioning partitions serve →
    FullyReachable partitioning partitions → ∀ step frontier out,
    ((inProcess partitioning).scatterGatherHop partitions step frontier).Returns
      serve (.ok out) →
      ∀ b', b' ∈ out ↔ ∃ b ∈ frontier, HopReaches dataset.view step b b'

variable {dataset partitioning}

omit [Chrono]

/-- An edge between a scanned node and one that is scanned or assigned elsewhere
leads to a scanned node. -/
theorem Dataset.MissingAtHome.scanned (missing : dataset.MissingAtHome partitioning)
    {direction : Direction} {edge : EdgeType × EdgeRow}
    (member : edge ∈ dataset.edges) {u v : NodeId}
    (leads : Dataset.Leads direction edge u v) (scannedU : dataset.Scanned u)
    (known : dataset.Scanned v ∨
      partitioning.partition v ≠ partitioning.partition u) : dataset.Scanned v := by
  have isHolder : holder direction edge = u := congrArg Prod.fst leads
  have isOther : otherEnd direction edge = v := congrArg Prod.snd leads
  cases known with
  | inl scanned => exact scanned
  | inr away =>
      by_contra unscanned
      have home := missing direction edge member
      rw [isHolder, isOther] at home
      exact away (home scannedU unscanned)

/-- The node that an entry names, in either field, is the one it leads to. -/
theorem named_iff {partition : PartitionId}
    {idToLocal : Std.ExtTreeMap NodeId LocalIdx compare} {outgoing : Bool}
    {edge : EdgeType × EdgeRow} {v : NodeId} {entry : AdjacencyEntry}
    (isEntry : entry =
      adjacencyEntry partition idToLocal outgoing partitioning edge) :
    (entry.dstLocal = some v ∨ entry.dstRemote.map RemoteRef.node = some v) ↔
      entry.endpoint = some v := by
  subst isEntry
  rw [← landsOn_adjacencyEntry partitioning partition, landsOn, Bool.or_eq_true,
    decide_eq_true_eq, decide_eq_true_eq]

/-- The nodes named by a generation's entries. -/
theorem named_of_built {p : PartitionId} {generation : IndexGeneration}
    (built : dataset.Built partitioning p generation) (direction : Direction)
    (v : NodeId) :
    (∃ entry ∈ generation.entries direction,
        entry.dstLocal = some v ∨ entry.dstRemote.map RemoteRef.node = some v) ↔
      ∃ edge ∈ dataset.edges, dataset.Scanned (holder direction edge) ∧
        partitioning.partition (holder direction edge) = p ∧ otherEnd direction edge = v ∧
        (dataset.Scanned v ∨ partitioning.partition v ≠ p) := by
  have held := fun entry => (entries_of_built built direction).mem_iff (a := entry)
  constructor
  · intro ⟨entry, member, named⟩
    obtain ⟨edge, kept, isEntry⟩ := List.mem_map.mp ((held entry).mp member)
    rw [List.mem_filter, decide_eq_true_eq, mem_ownedIds] at kept
    rw [named_iff isEntry.symm, ← isEntry, endpoint_adjacencyEntry] at named
    exact ⟨edge, kept.1, kept.2.2, kept.2.1, named⟩
  · intro ⟨edge, member, scanned, home, named⟩
    refine ⟨_, (held _).mpr (List.mem_map_of_mem (List.mem_filter.mpr ⟨member, ?_⟩)), ?_⟩
    · rw [decide_eq_true_eq, mem_ownedIds]
      exact ⟨home, scanned⟩
    · rw [named_iff rfl, endpoint_adjacencyEntry]
      exact named

/-- Where an end that is missing would belong to the same partition, no entry is
made for it. -/
theorem Dataset.MissingAtHome.namesWithin
    (missing : dataset.MissingAtHome partitioning) {p : PartitionId}
    {generation : IndexGeneration} (built : dataset.Built partitioning p generation)
    {direction : Direction} (u : NodeId) (entry : AdjacencyEntry)
    (member : entry ∈ generation.neighbors direction u) :
    NamesWithin dataset.Scanned entry := by
  intro v leads
  obtain ⟨home, scanned, known, edge, inTables, goes, -, -⟩ :=
    (neighbors_of_built built).mp ⟨entry, member, rfl, rfl, leads⟩
  rw [← home] at known
  exact missing.scanned inTables goes scanned known

/-- When every partition answers, the edges that a hop can take are those
between scanned nodes. -/
theorem Dataset.MissingAtHome.adjacent_iff
    (missing : dataset.MissingAtHome partitioning) {partitions : PartitionMap}
    {serve : GenerationHandle → IndexGeneration}
    (served : dataset.ServedBy partitioning partitions serve)
    (reachable : FullyReachable partitioning partitions) (direction : Direction)
    (u : NodeId) (t : EdgeType) (e : EdgeId) (v : NodeId) :
    (clusterView partitioning (servingOf partitions serve)).adjacent direction u t e v ↔
      dataset.view.adjacent direction u t e v := by
  rw [served.adjacent_iff]
  constructor
  · intro ⟨_, scanned, known, edge, member, leads, rest⟩
    exact ⟨scanned, missing.scanned member leads scanned known, edge, member, leads, rest⟩
  · intro ⟨scannedU, scannedV, rest⟩
    exact ⟨Option.isSome_iff_exists.mpr (Dataset.ServedBy.serving serve reachable u),
      scannedU, .inl scannedV, rest⟩

variable [Chrono]

/-- No reference leads out of the tables if and only if no edge leads from a
scanned node to a missing one of another partition.  It is so for every dataset
and every partitioning, with ids that may repeat and edges that may lack either
end. -/
theorem noDangling_iff (dataset : Dataset) (partitioning : Partitioning) :
    NoDangling dataset partitioning ↔ dataset.MissingAtHome partitioning := by
  constructor
  · intro closed direction edge member scanned unscanned
    by_contra away
    have built : dataset.Built partitioning
        (partitioning.partition (holder direction edge)) _ :=
      built_iff.mpr ⟨0, rfl⟩
    obtain ⟨entry, held, named⟩ :=
      (named_of_built built direction (otherEnd direction edge)).mpr
      ⟨edge, member, scanned, rfl, rfl, .inr away⟩
    exact unscanned (closed.entries _ _ built direction entry held _ named)
  · intro missing
    constructor
    case entries =>
        intro p generation built direction entry held v named
        obtain ⟨edge, member, scanned, home, isOther, known⟩ :=
          (named_of_built built direction v).mp ⟨entry, held, named⟩
        rw [← home] at known
        exact missing.scanned member (Prod.ext rfl isOther) scanned known
    case localHop =>
        intro p serve index built step frontier found returns b member v bound
        obtain ⟨a, -, extended⟩ :=
          (expandHop_within (missing.namesWithin built) frontier).ok returns b member
        exact extended.target bound
    case distributedHop =>
        intro partitions serve served step frontier out returns b member v bound
        obtain ⟨a, -, depth, positive, -, -, walk⟩ :=
          ((scatterGatherHop_meets partitioning partitions serve step frontier).ok
            returns b).mp member
        obtain ⟨depth, rfl⟩ := Nat.exists_eq_add_of_le' positive
        obtain ⟨mid, -, u, t, e, w, -, adjacent, -, rfl⟩ := walk
        obtain ⟨-, scanned, known, edge, inTables, leads, -, -⟩ :=
          served.adjacent_iff.mp adjacent
        have isTarget : (mid.bindNode step.toAlias w).nodes[step.toAlias]? = some v := by
          rw [← bound, Binding.extend_nodes]
          rfl
        rw [Binding.bindNode_nodes, if_pos rfl] at isTarget
        cases isTarget
        exact missing.scanned inTables leads scanned known
    case sameTraversal =>
        intro partitions serve served reachable step frontier out returns b'
        rw [(scatterGatherHop_meets partitioning partitions serve step frontier).ok
          returns b']
        simp only [hopReaches_congr (missing.adjacent_iff served reachable)]

end Dangling

/-! ### A missing acquaintance -/

section

open scoped Social

/-- Person 1 knows person 2, who is in no table. -/
def strayAcquaintance : Dataset :=
  { Social.dataset with
    nodeRows := fun label =>
      if label = Social.person
        then [{ id := ⟨1⟩, properties := Social.textual "name" "Ann" }] else []
    edgeRows := fun edgeType =>
      if edgeType = Social.knows
        then [{ id := ⟨10⟩, src := ⟨1⟩, dst := ⟨2⟩, properties := ∅ }] else [] }

/-- `(a)-[:KNOWS]->(b)`. -/
def knowsHop : ExpandHop :=
  { fromAlias := "a", toAlias := "b", toLabel := none, edgeType := some "KNOWS",
    direction := .outgoing
    hops := { min := 1, max := 1 }, filters := [], edgeAlias := none }

/-- On two partitions the missing node becomes a remote reference and a hop
binds it; on one partition the same hop finds nobody. -/
theorem noDangling_fails :
    (∃ entry ∈ (strayAcquaintance.generation Social.byParity ⟨1⟩ 0).entries .outgoing,
      entry.dstRemote = some ⟨⟨0⟩, ⟨2⟩⟩) ∧ ¬ strayAcquaintance.Scanned ⟨2⟩ ∧
    ((inProcess Social.byParity).scatterGatherHop (deployment Social.byParity) knowsHop
      [Binding.fromNode "a" ⟨1⟩]).run
        (fun _ => strayAcquaintance.deployed Social.byParity) Social.inOrder 0 =
        .ok [Social.pair 1 2] ∧
    ((inProcess Social.single).scatterGatherHop (deployment Social.single) knowsHop
      [Binding.fromNode "a" ⟨1⟩]).run
        (fun _ => strayAcquaintance.deployed Social.single) Social.inOrder 0 =
        .ok [] ∧
    ¬ NoDangling strayAcquaintance Social.byParity := by
  have unscanned : ¬ strayAcquaintance.Scanned ⟨2⟩ := by decide
  have strays : ∃ entry ∈
      (strayAcquaintance.generation Social.byParity ⟨1⟩ 0).entries .outgoing,
      entry.dstRemote = some ⟨⟨0⟩, ⟨2⟩⟩ := by decide +kernel
  refine ⟨strays, unscanned, by decide +kernel, by decide +kernel, ?_⟩
  intro closed
  obtain ⟨entry, held, isRemote⟩ := strays
  apply unscanned
  apply closed.entries ⟨1⟩ _ (built_iff.mpr ⟨0, rfl⟩) .outgoing entry held ⟨2⟩
  rw [isRemote]
  exact .inr rfl

end

end GraphEngine
