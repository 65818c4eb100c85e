/-
Module: GraphEngine.Proofs.RoundDecomposition
Layer: Proofs
Purpose: A variable-length hop run as a sequence of single-hop rounds, the same
  hop run as one breadth-first search on the partition that has everything, and
  the walks of an accepted length give the same bindings.
Trusted boundary: none
Main exports: hopReaches_unaliased_iff, hopReaches_aliased_iff,
  expandDepths_unaliased, expandHop_unaliased, round_decomposition
-/
import GraphEngine.Proofs.Served
import GraphEngine.Proofs.ScatterGather

namespace GraphEngine

open Std (ExtTreeSet)
open SimpleLocalExecutor

/-! ### Breadth-first search on one partition -/

section Search

variable {serve : GenerationHandle → IndexGeneration} {Allowed : Fault → Prop}
variable {generation : IndexGeneration} {step : ExpandHop} {binding : Binding}

/-- No entry of the generation leads to another partition. -/
def AllLocal (generation : IndexGeneration) : Prop :=
  ∀ direction u, ∀ entry ∈ generation.neighbors direction u, entry.dstRemote = none

/-- The adjacency of the generation is that of a view. -/
def ShowsAdjacency (generation : IndexGeneration) (V : GraphView) : Prop :=
  ∀ direction u t e v, V.adjacent direction u t e v ↔
    ∃ entry ∈ generation.neighbors direction u,
    entry.edgeType = t ∧ entry.edgeId = e ∧ entry.endpoint = some v

theorem leadsLocal_iff {V : GraphView} (allLocal : AllLocal generation)
    (shows : ShowsAdjacency generation V) {u v : NodeId} :
    (∃ entry ∈ generation.neighbors step.direction u, LeadsLocal step entry v) ↔
      ∃ t e, V.adjacent step.direction u t e v ∧ TypeAllows step.edgeType t := by
  constructor
  · rintro ⟨entry, member, typed, isLocal⟩
    refine ⟨entry.edgeType, entry.edgeId,
      (shows _ _ _ _ _).mpr ⟨entry, member, rfl, rfl, ?_⟩, typed⟩
    rw [AdjacencyEntry.endpoint, isLocal, Option.some_or]
  · rintro ⟨t, e, adjacent, typed⟩
    obtain ⟨entry, member, rfl, rfl, leads⟩ := (shows _ _ _ _ _).mp adjacent
    refine ⟨entry, member, typed, ?_⟩
    rw [AdjacencyEntry.endpoint, allLocal _ _ entry member, Option.map_none,
      Option.or_none] at leads
    exact leads

theorem not_leadsRemote (allLocal : AllLocal generation) {u v : NodeId}
    {entry : AdjacencyEntry}
    (member : entry ∈ generation.neighbors step.direction u) :
    ¬ LeadsRemote step entry v := by
  rintro ⟨-, -, remote⟩
  rw [allLocal _ _ entry member] at remote
  cases remote

/-- What the search has found after the depths up to `depth`. -/
structure SearchSpec (V : GraphView) (step : ExpandHop) (binding : Binding)
    (start : NodeId) (depth : Nat) (current : ExtTreeSet NodeId compare)
    (state : HopState) : Prop where
  handedOut : HandedOut step binding state
  current : ∀ v, v ∈ current ↔ EdgeWalk V step.direction step.edgeType depth start v
  found : ∀ b', b' ∈ state.found.all ↔ ∃ v l, 1 ≤ l ∧ step.hops.min ≤ l ∧ l ≤ depth ∧
    EdgeWalk V step.direction step.edgeType l start v ∧
      b' = binding.bindNode step.toAlias v

/-- One more depth. -/
theorem exploreDepth_search {V : GraphView} (unaliased : step.edgeAlias = none)
    (allLocal : AllLocal generation) (shows : ShowsAdjacency generation V)
    {start : NodeId} {depth : Nat} {current : ExtTreeSet NodeId compare}
    {state : HopState} (spec : SearchSpec V step binding start depth current state) :
    (exploreDepth generation step binding (depth + 1) current state).Meets serve
      (fun after =>
        SearchSpec V step binding start (depth + 1) after.next after) Allowed := by
  refine (exploreDepth_unaliased unaliased (depth + 1) current spec.handedOut).imp ?_
  rintro after ⟨handedOut, next, found⟩
  have reached : ∀ v, (∃ u ∈ current, ∃ entry ∈ generation.neighbors step.direction u,
      LeadsLocal step entry v) ↔
        EdgeWalk V step.direction step.edgeType (depth + 1) start v := by
    intro v
    simp only [leadsLocal_iff allLocal shows, spec.current]
    rfl
  refine ⟨handedOut, fun v => (next v).trans (reached v), fun b' => ?_⟩
  rw [found, spec.found]
  constructor
  · rintro (⟨v, l, one, lower, upper, walk, same⟩ | ⟨v,
        ⟨u, inCurrent, entry, member, leads⟩, same⟩)
    · exact ⟨v, l, one, lower, by omega, walk, same⟩
    · rcases leads with remote | ⟨lower, isLocal⟩
      · exact absurd remote (not_leadsRemote allLocal member)
      · exact ⟨v, depth + 1, by omega, lower, le_refl _,
          (reached v).mp ⟨u, inCurrent, entry, member, isLocal⟩, same⟩
  · rintro ⟨v, l, one, lower, upper, walk, same⟩
    by_cases earlier : l ≤ depth
    · exact .inl ⟨v, l, one, lower, earlier, walk, same⟩
    · obtain rfl : l = depth + 1 := by omega
      obtain ⟨u, inCurrent, entry, member, isLocal⟩ := (reached v).mpr walk
      exact .inr ⟨v, ⟨u, inCurrent, entry, member, .inr ⟨lower, isLocal⟩⟩, same⟩

/-- All depths together; an empty depth ends the search early without losing
anything. -/
theorem expandDepths_unaliased {V : GraphView} (unaliased : step.edgeAlias = none)
    (allLocal : AllLocal generation) (shows : ShowsAdjacency generation V)
    {start : NodeId} (remaining depth : Nat) {current : ExtTreeSet NodeId compare}
    {state : HopState} (spec : SearchSpec V step binding start depth current state) :
    (expandDepths generation step binding remaining (depth + 1) current state).Meets serve
      (fun after => ∀ b', b' ∈ after.found.all ↔ ∃ v l, 1 ≤ l ∧ step.hops.min ≤ l ∧
        l ≤ depth + remaining ∧ EdgeWalk V step.direction step.edgeType l start v ∧
        b' = binding.bindNode step.toAlias v) Allowed := by
  induction remaining generalizing depth current state with
  | zero => exact Client.Meets.pure spec.found
  | succ remaining inductionHypothesis =>
      rw [expandDepths]
      refine Client.Meets.bind (exploreDepth_search unaliased allLocal shows spec)
        fun explored spec' => ?_
      split
      case isTrue empty =>
        refine Client.Meets.pure fun b' => ?_
        rw [spec'.found]
        refine exists_congr fun v => exists_congr fun l => and_congr_right fun _ =>
          and_congr_right fun _ => ?_
        constructor
        · rintro ⟨upper, rest⟩
          exact ⟨by omega, rest⟩
        · rintro ⟨upper, walk, same⟩
          refine ⟨?_, walk, same⟩
          by_contra beyond
          -- the walk would pass through the empty depth
          obtain ⟨more, rfl⟩ : ∃ more, l = depth + 1 + more := ⟨l - (depth + 1), by omega⟩
          obtain ⟨w, reached⟩ := walk.through more
          rw [ExtTreeSet.isEmpty_iff] at empty
          have member := (spec'.current w).mpr reached
          rw [empty] at member
          simp at member
      case isFalse =>
        refine (inductionHypothesis (depth + 1) spec').imp fun after found b' => ?_
        rw [found, Nat.add_right_comm, Nat.add_assoc]

/-- The search from one binding. -/
theorem expandBinding_unaliased {V : GraphView} (unaliased : step.edgeAlias = none)
    (allLocal : AllLocal generation) (shows : ShowsAdjacency generation V) :
    (expandBinding generation step binding).Meets serve
      (fun found => ∀ b', b' ∈ found.all ↔ HopReaches V step binding b')
      (fun _ => binding.nodes[step.fromAlias]? = none) := by
  rw [expandBinding]
  cases bound : binding.nodes[step.fromAlias]? with
  | none => exact Client.Meets.fail rfl
  | some start =>
      have initial : SearchSpec V step binding start 0
          ((∅ : ExtTreeSet NodeId compare).insert start)
          ⟨∅, ∅, ⟨[], []⟩⟩ := by
        refine ⟨by simp [HandedOut], fun v => ?_, fun b' => ?_⟩
        · rw [ExtTreeSet.mem_insert, Std.compare_eq_iff_eq]
          simp [EdgeWalk, eq_comm]
        · simp only [Frontier.all, List.map_nil, List.append_nil, List.not_mem_nil,
            false_iff]
          rintro ⟨v, l, one, -, upper, -⟩
          omega
      refine Client.Meets.bind
        (expandDepths_unaliased unaliased allLocal shows step.hops.max 0 initial)
          fun after found => ?_
      refine Client.Meets.pure fun b' => ?_
      rw [found, hopReaches_walk_iff unaliased]
      constructor
      · rintro ⟨v, l, one, lower, upper, walk, same⟩
        exact ⟨start, v, l, bound, one, lower, by omega, walk, same⟩
      · rintro ⟨u, v, l, boundU, one, lower, upper, walk, same⟩
        rw [bound] at boundU
        cases boundU
        exact ⟨v, l, one, lower, by omega, walk, same⟩

/-! ### Nothing is handed to another partition -/

theorem exploreDepth_remote (allLocal : AllLocal generation) (depth : Nat)
    (current : ExtTreeSet NodeId compare) {state : HopState}
    (empty : state.found.remote = []) :
    (exploreDepth generation step binding depth current state).Meets serve
      (fun after => after.found.remote = []) Allowed := by
  have visited : ∀ nodes,
      (visitNodes generation step binding state nodes).found.remote = [] := by
    intro nodes
    rw [visitNodes_eq, visitEntries_remote]
    · exact empty
    · intro entry member
      obtain ⟨u, -, inRow⟩ := List.mem_flatMap.mp member
      exact allLocal _ u entry inRow
  rw [exploreDepth]
  refine Client.Meets.bind (Client.Meets.unordered _) fun nodes _ => ?_
  split
  · refine Client.Meets.bind (Client.Meets.unordered _) fun targets _ => ?_
    refine Client.Meets.pure ?_
    rw [acceptNodes_remote]
    exact visited nodes
  · exact Client.Meets.pure (visited nodes)

theorem expandDepths_remote (allLocal : AllLocal generation) (remaining depth : Nat)
    (current : ExtTreeSet NodeId compare) {state : HopState}
    (empty : state.found.remote = []) :
    (expandDepths generation step binding remaining depth current state).Meets serve
      (fun after => after.found.remote = []) Allowed := by
  induction remaining generalizing depth current state with
  | zero => exact Client.Meets.pure empty
  | succ remaining inductionHypothesis =>
      rw [expandDepths]
      refine Client.Meets.bind (exploreDepth_remote allLocal depth current empty)
        fun explored post => ?_
      split
      · exact Client.Meets.pure post
      · exact inductionHypothesis (depth + 1) explored.next post

theorem expandBinding_remote (allLocal : AllLocal generation) :
    (expandBinding generation step binding).Meets serve (fun found => found.remote = [])
      (fun _ => binding.nodes[step.fromAlias]? = none) := by
  rw [expandBinding]
  cases bound : binding.nodes[step.fromAlias]? with
  | none => exact Client.Meets.fail rfl
  | some start =>
      exact Client.Meets.bind (expandDepths_remote allLocal step.hops.max 1 _ rfl)
        fun after post =>
        Client.Meets.pure post

theorem expandFrontier_remote (allLocal : AllLocal generation) (frontier : List Binding) :
    (expandFrontier generation step frontier).Meets serve (fun found => found.remote = [])
      (fun _ => ∃ b ∈ frontier, b.nodes[step.fromAlias]? = none) := by
  refine (expandFrontier_parts frontier fun b member =>
    (expandBinding_remote allLocal).mono (fun _ post => post) fun _ missing =>
      ⟨b, member, missing⟩).imp ?_
  rintro found ⟨parts, related, -, remotes⟩
  rw [remotes, List.flatMap_eq_nil_iff]
  intro part listed
  obtain ⟨b, -, empty⟩ := (forall₂_partner related).1 part listed
  exact empty

end Search

/-! ### One partition that has everything -/

section OnePartition

variable [Chrono] {dataset : Dataset} {hasher : Partitioning} {partitions : PartitionMap}
variable {serve : GenerationHandle → IndexGeneration} {replica : ReplicaEndpoint}

omit [Chrono] in
/-- With a single partition the generation shows the edges between scanned
nodes. -/
theorem showsAdjacency_of_single (single : hasher.nPartitions = 1)
    {generation : IndexGeneration} (built : dataset.Built hasher ⟨0⟩ generation) :
    ShowsAdjacency generation dataset.view := by
  intro direction u t e v
  rw [neighbors_of_built built]
  constructor
  · rintro ⟨scannedU, scannedV, rest⟩
    exact ⟨partition_eq_zero single u, scannedU, .inl scannedV, rest⟩
  · rintro ⟨-, scannedU, known, rest⟩
    exact ⟨scannedU, known.resolve_right fun away =>
      away (partition_eq_zero single v), rest⟩

omit [Chrono] in
/-- With a single partition no entry leads elsewhere. -/
theorem allLocal_of_single (single : hasher.nPartitions = 1)
    {generation : IndexGeneration} (built : dataset.Built hasher ⟨0⟩ generation) :
    AllLocal generation := by
  intro direction u entry member
  obtain ⟨-, -, edge, -, -, rfl⟩ := (mem_neighbors_of_built built).mp member
  simp [adjacencyEntry, partition_eq_zero single]

omit [Chrono] in
/-- The cluster and the tables show the same adjacency. -/
theorem hopReaches_of_single (single : hasher.nPartitions = 1)
    (picked : pickReplica partitions ⟨0⟩ = some replica)
    (built : dataset.Built hasher ⟨0⟩ (serve replica.handle)) {step : ExpandHop}
    {b b' : Binding} :
    HopReaches (clusterView hasher (servingOf partitions serve)) step b b' ↔
      HopReaches dataset.view step b b' := by
  apply hopReaches_congr
  intro direction u t e v
  rw [showsAdjacency_of_single single built direction u t e v]
  constructor
  · rintro ⟨generation, serves, entries⟩
    rw [partition_eq_zero single, servingOf_of_pick serve picked] at serves
    cases serves
    exact entries
  · intro entries
    refine ⟨serve replica.handle, ?_, entries⟩
    rw [partition_eq_zero single, servingOf_of_pick serve picked]

omit [Chrono] in
/-- One breadth-first call and the rounds both hand out what a hop reaches over
the tables. -/
theorem expandHop_of_single (single : hasher.nPartitions = 1)
    (built : dataset.Built hasher ⟨0⟩ (serve replica.handle)) {step : ExpandHop}
    (unfiltered : step.filters = [])
    (aliasedSingle : step.edgeAlias.isSome → step.hops = ⟨1, 1⟩)
    (frontier : List Binding) :
    (expandHop replica.handle (.expandHop step) frontier).Meets serve
      (fun found => ∀ b', b' ∈ found.localBindings ↔
        ∃ b ∈ frontier, HopReaches dataset.view step b b')
      (fun _ => ∃ b ∈ frontier, b.nodes[step.fromAlias]? = none) := by
  have allLocal := allLocal_of_single single built
  have shows := showsAdjacency_of_single single built
  have search : (expandFrontier (serve replica.handle) step frontier).Meets serve
      (fun found => ∀ b', b' ∈ found.all ↔
        ∃ b ∈ frontier, HopReaches dataset.view step b b')
      (fun _ => ∃ b ∈ frontier, b.nodes[step.fromAlias]? = none) := by
    refine expandFrontier_all frontier fun b member => ?_
    cases aliased : step.edgeAlias with
    | none =>
        exact (expandBinding_unaliased aliased allLocal shows).mono (fun _ post => post)
          fun _ missing => ⟨b, member, missing⟩
    | some aliasName =>
        have oneHop := aliasedSingle (by rw [aliased]; rfl)
        refine (expandBinding_single oneHop).mono (fun found post b' => ?_)
          fun _ missing => ⟨b, member, missing⟩
        rw [post, hopReaches_single_iff oneHop]
        constructor
        · rintro ⟨u, v, bound, entry, inRow, typed, leads, same⟩
          exact ⟨u, entry.edgeType, entry.edgeId, v, bound,
            (shows _ _ _ _ _).mpr ⟨entry, inRow, rfl, rfl, leads⟩, typed, same⟩
        · rintro ⟨u, t, e, v, bound, adjacent, typed, same⟩
          obtain ⟨entry, inRow, rfl, rfl, leads⟩ := (shows _ _ _ _ _).mp adjacent
          exact ⟨u, v, bound, entry, inRow, typed, leads, same⟩
  refine Client.Meets.bind (Client.Meets.acquire replica.handle) ?_
  rintro generation rfl
  refine Client.Meets.bind (search.and (expandFrontier_remote allLocal frontier)) ?_
  rintro found ⟨all, remote⟩
  rw [unfiltered, applyFilters_nil]
  refine Client.Meets.pure fun b' => ?_
  rw [← all, Frontier.all, remote]
  simp

/-- The bindings of a hop over the tables: the ends of walks of an accepted
length, or, with an edge alias, one binding for every matching edge. -/
def HopTargets (dataset : Dataset) (step : ExpandHop) (frontier : List Binding)
    (b' : Binding) : Prop :=
  match step.edgeAlias with
  | none =>
      ∃ b ∈ frontier, ∃ u v l, b.nodes[step.fromAlias]? = some u ∧ step.hops.min ≤ l ∧
      l ≤ step.hops.max ∧ EdgeWalk dataset.view step.direction step.edgeType l u v ∧
      b' = b.bindNode step.toAlias v
  | some aliasName =>
      ∃ b ∈ frontier, ∃ u v, b.nodes[step.fromAlias]? = some u ∧ dataset.Scanned u ∧
      dataset.Scanned v ∧ ∃ edge ∈ dataset.edges, Dataset.Leads step.direction edge u v ∧
        TypeAllows step.edgeType edge.1 ∧
          b' = (b.bindNode step.toAlias v).bindEdge aliasName edge.2.id

omit [Chrono] in
theorem hopTargets_iff {step : ExpandHop} (positive : 1 ≤ step.hops.min)
    (aliasedSingle : step.edgeAlias.isSome → step.hops = ⟨1, 1⟩) {frontier : List Binding}
    {b' : Binding} : (∃ b ∈ frontier, HopReaches dataset.view step b b') ↔
      HopTargets dataset step frontier b' := by
  cases aliased : step.edgeAlias with
  | none => simp only [HopTargets, aliased, hopReaches_unaliased_iff aliased positive]
  | some aliasName =>
      have oneHop := aliasedSingle (by rw [aliased]; rfl)
      simp only [HopTargets, aliased, hopReaches_single_iff oneHop]
      refine exists_congr fun b => and_congr_right fun _ => ?_
      constructor
      · rintro ⟨u, t, e, v, bound,
          ⟨scannedU, scannedV, edge, member, leads, rfl, rfl⟩, typed, same⟩
        rw [aliased] at same
        exact ⟨u, v, bound, scannedU, scannedV, edge, member, leads, typed, same⟩
      · rintro ⟨u, v, bound, scannedU, scannedV, edge, member, leads, typed, same⟩
        refine ⟨u, edge.1, edge.2.id, v, bound,
          ⟨scannedU, scannedV, edge, member, leads, rfl, rfl⟩, typed, ?_⟩
        rw [aliased]
        exact same

/-- The rounds of the coordinator, one breadth-first call and the walks of the
tables agree on one partition; neither program fails.

* `single`, `picked`, `built`: there is one partition, its replica is found, and
  it serves what the builder makes of the tables;
* `unfiltered`: the hop has no filters, which the call would check itself and
  the coordinator at the end;
* `positive`: the range does not start at zero;
* `aliasedSingle`: an edge with an alias is one hop, as the validator sees to;
* `bound`: every binding of the frontier has its source.

The range may be empty, with `hops.min` above `hops.max`. -/
theorem round_decomposition (single : hasher.nPartitions = 1)
    (picked : pickReplica partitions ⟨0⟩ = some replica)
    (built : dataset.Built hasher ⟨0⟩ (serve replica.handle)) {step : ExpandHop}
    (unfiltered : step.filters = []) (positive : 1 ≤ step.hops.min)
    (aliasedSingle : step.edgeAlias.isSome → step.hops = ⟨1, 1⟩)
    {frontier : List Binding} (bound : ∀ b ∈ frontier, step.fromAlias ∈ b.nodes)
    {rounds : Except Fault (List Binding)} {call : Except Fault Frontier}
    (returnsRounds : ((inProcess hasher).scatterGatherHop partitions step
        frontier).Returns serve rounds)
    (returnsCall :
      (expandHop replica.handle (.expandHop step) frontier).Returns serve call) :
    ∃ accepted found, rounds = .ok accepted ∧ call = .ok found ∧
      (∀ b', b' ∈ accepted ↔ b' ∈ found.localBindings) ∧
      ∀ b', b' ∈ accepted ↔ HopTargets dataset step frontier b' := by
  have roundsMeet := scatterGatherHop_meets hasher partitions serve step frontier
  have callMeets := expandHop_of_single single built unfiltered aliasedSingle frontier
  cases rounds with
  | error e =>
      obtain ⟨b, member, unbound⟩ := roundsMeet.error returnsRounds
      exact absurd (bound b member) unbound
  | ok accepted =>
      cases call with
      | error e =>
          obtain ⟨b, member, unbound⟩ := callMeets.error returnsCall
          obtain ⟨v, found⟩ := (b.mem_nodes_iff _).mp (bound b member)
          rw [unbound] at found
          cases found
      | ok found =>
          have acceptedSpec : ∀ b', b' ∈ accepted ↔
              HopTargets dataset step frontier b' := by
            intro b'
            rw [roundsMeet.ok returnsRounds b', ← hopTargets_iff positive aliasedSingle]
            simp only [hopReaches_of_single single picked built]
          have foundSpec := callMeets.ok returnsCall
          refine ⟨accepted, found, rfl, rfl, fun b' => ?_, acceptedSpec⟩
          rw [acceptedSpec, foundSpec, hopTargets_iff positive aliasedSingle]

end OnePartition

section

open scoped Social

/-- `(a)-[:KNOWS*1..2]->(b)`. -/
def acquaintancesOfAcquaintances : ExpandHop :=
  { fromAlias := "a", toAlias := "b", toLabel := none, edgeType := some "KNOWS",
    direction := .outgoing
    hops := { min := 1, max := 2 }, filters := [], edgeAlias := none }

/-- A hop of up to two edges from the first person. -/
theorem acquaintances_round_decomposition :
    ∃ accepted found,
      ((inProcess Social.single).scatterGatherHop
        (deployment Social.single) acquaintancesOfAcquaintances
        [Binding.fromNode "a" ⟨1⟩]).run
          (fun _ => Social.dataset.deployed Social.single) Social.inOrder 0 =
          .ok accepted ∧
      (expandHop { address := "" } (.expandHop acquaintancesOfAcquaintances)
        [Binding.fromNode "a" ⟨1⟩]).run
          (fun _ => Social.dataset.deployed Social.single) Social.inOrder 0 =
          .ok found ∧
      (∀ b', b' ∈ accepted ↔ b' ∈ found.localBindings) ∧
      ∀ b', b' ∈ accepted ↔ HopTargets Social.dataset acquaintancesOfAcquaintances
        [Binding.fromNode "a" ⟨1⟩] b' :=
  round_decomposition rfl
    (pickReplica_deployment Social.single ⟨0⟩) (built_iff.mpr ⟨0, rfl⟩) rfl
      (by decide) (by decide) (by decide)
    (Client.returns_run _ _ _ _) (Client.returns_run _ _ _ _)

end

end GraphEngine
