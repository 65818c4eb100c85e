/-
Module: GraphEngine.Proofs.OutgoingRecords
Layer: Proofs
Purpose: The adjacency of a built generation against its edge records.  The
  topology keeps an edge because its source is a node it holds, the records keep
  it because its source is assigned to the partition; the first implies the
  second, so that an anti-join along outgoing edges judges every edge by the
  properties of its row.
Trusted boundary: none
Main exports: Dataset.Joins, missingRecords, OutgoingRecorded,
  outgoingRecorded_of_built
-/
import GraphEngine.Proofs.ExactCover
import GraphEngine.Proofs.Planning

namespace GraphEngine

open SimpleLocalExecutor (candidateExists checkAntiJoin checkBinding landsOn)

/-! ### The records of outgoing entries -/

/-- An entry in the outgoing list of `u`, the row it was made from, and the
row's record. -/
structure RecordedFrom (dataset : Dataset) (generation : IndexGeneration)
    (u : NodeId) (entry : AdjacencyEntry) (edge : EdgeType × EdgeRow) : Prop where
  member : edge ∈ dataset.edges
  id : edge.2.id = entry.edgeId
  source : edge.2.src = u
  type : edge.1 = entry.edgeType
  record : generation.edgeRecords[entry.edgeId]? =
    some { edgeType := entry.edgeType, properties := edge.2.properties }

/-- The entries between two nodes, of the type that the step asks for, whose
record the check would not find. -/
def missingRecords (generation : IndexGeneration) (step : AntiJoinStep)
    (fromNode toNode : NodeId) : List AdjacencyEntry :=
  (generation.neighbors step.direction fromNode).filter fun entry =>
    typeMatches step.edgeType entry && landsOn entry toNode &&
      (generation.edgeRecords[entry.edgeId]?).isNone

/-- A row joins two nodes for an anti-join on partition `p`: it has the type
that the step asks for and leads from a node that the partition holds to one
that it holds too (local) or that is assigned elsewhere (remote). -/
structure Dataset.Joins (dataset : Dataset) (partitioning : Partitioning)
    (p : PartitionId) (step : AntiJoinStep) (u v : NodeId)
    (edge : EdgeType × EdgeRow) : Prop where
  member : edge ∈ dataset.edges
  source : edge.2.src = u
  target : edge.2.dst = v
  type : TypeAllows step.edgeType edge.1
  home : partitioning.partition u = p
  scanned : dataset.Scanned u
  known : dataset.Scanned v ∨ partitioning.partition v ≠ p

section Recorded

variable {dataset : Dataset} {partitioning : Partitioning} {p : PartitionId}
variable {generation : IndexGeneration}

/-- The entry that a partition makes of a row whose source is assigned to it. -/
theorem recordedFrom_adjacencyEntry (unique : dataset.UniqueEdgeIds)
    (built : dataset.Built partitioning p generation) {edge : EdgeType × EdgeRow}
    (member : edge ∈ dataset.edges) {u : NodeId} (source : edge.2.src = u)
    (home : partitioning.partition u = p)
    {idToLocal : Std.ExtTreeMap NodeId LocalIdx compare} {outgoing : Bool} :
    RecordedFrom dataset generation u
      (adjacencyEntry p idToLocal outgoing partitioning edge) edge where
  member := member
  id := rfl
  source := source
  type := rfl
  record := by
    apply record_of_source unique built member
    rw [source]
    exact home

/-- Every outgoing entry has the record of its row. -/
theorem exists_recordedFrom (unique : dataset.UniqueEdgeIds)
    (built : dataset.Built partitioning p generation) {u : NodeId}
    {entry : AdjacencyEntry} (listed : entry ∈ generation.neighbors .outgoing u) :
    ∃ edge, RecordedFrom dataset generation u entry edge := by
  obtain ⟨home, -, edge, member, source, rfl⟩ := (mem_neighbors_of_built built).mp listed
  exact ⟨edge, recordedFrom_adjacencyEntry unique built member source home⟩

/-- The check never misses a record along outgoing edges. -/
theorem missingRecords_eq_nil (unique : dataset.UniqueEdgeIds)
    (built : dataset.Built partitioning p generation) {step : AntiJoinStep}
    (outgoing : step.direction = .outgoing) (u v : NodeId) :
    missingRecords generation step u v = [] := by
  apply List.filter_eq_nil_iff.mpr
  intro entry listed missing
  rw [outgoing] at listed
  obtain ⟨edge, recorded⟩ := exists_recordedFrom unique built listed
  rw [recorded.record] at missing
  simp at missing

variable [Chrono]

/-- Along outgoing edges the check finds an edge exactly when a row of the
tables joins the two nodes with properties that satisfy the conditions. -/
theorem candidateExists_outgoing_iff (unique : dataset.UniqueEdgeIds)
    (built : dataset.Built partitioning p generation) {step : AntiJoinStep}
    (outgoing : step.direction = .outgoing) {conditions : List PropertyFilter}
    {u v : NodeId} :
    candidateExists generation step conditions u v = true ↔
      ∃ edge, dataset.Joins partitioning p step u v edge ∧
        evaluateFilters edge.2.properties conditions = true := by
  rw [candidateExists, List.any_eq_true, outgoing]
  constructor
  · rintro ⟨entry, listed, holds⟩
    obtain ⟨home, scanned, edge, member, source, rfl⟩ :=
      (mem_neighbors_of_built built).mp listed
    rw [Bool.and_eq_true, Bool.and_eq_true, typeMatches_iff, landsOn_iff_known,
      (recordedFrom_adjacencyEntry unique built member source home).record] at holds
    obtain ⟨⟨type, target, known⟩, passes⟩ := holds
    exact ⟨edge, ⟨member, source, target, type, home, scanned, known⟩, passes⟩
  · rintro ⟨edge, joins, passes⟩
    refine ⟨_, (mem_neighbors_of_built built).mpr
      ⟨joins.home, joins.scanned, edge, joins.member, joins.source, rfl⟩, ?_⟩
    rw [Bool.and_eq_true, Bool.and_eq_true, typeMatches_iff, landsOn_iff_known,
      (recordedFrom_adjacencyEntry unique built joins.member joins.source
        joins.home).record]
    exact ⟨⟨joins.type, joins.target, joins.known⟩, passes⟩

end Recorded

/-! ### The check -/

section Check

variable [Chrono]

/-- No row that joins the two nodes of a binding satisfies the conditions. -/
def NothingJoins (dataset : Dataset) (partitioning : Partitioning) (p : PartitionId)
    (step : AntiJoinStep) (conditions : List PropertyFilter) (b : Binding) : Prop :=
  ∀ u v, b.nodes[step.fromAlias]? = some u → b.nodes[step.toAlias]? = some v →
    ∀ edge, dataset.Joins partitioning p step u v edge →
      evaluateFilters edge.2.properties conditions = false

/-- What a generation built from the tables says along outgoing edges is what
the rows say. -/
structure OutgoingRecorded (dataset : Dataset) (partitioning : Partitioning)
    (p : PartitionId) (generation : IndexGeneration) : Prop where
  recorded : ∀ u, ∀ entry ∈ generation.topology.outNeighbors u,
    ∃ edge, RecordedFrom dataset generation u entry edge
  neverMissing : ∀ step : AntiJoinStep, step.direction = .outgoing →
    ∀ u v, missingRecords generation step u v = []
  judged : ∀ step : AntiJoinStep, step.direction = .outgoing → ∀ conditions u v,
    (candidateExists generation step conditions u v = true ↔
      ∃ edge, dataset.Joins partitioning p step u v edge ∧
        evaluateFilters edge.2.properties conditions = true)
  checked : ∀ step : AntiJoinStep, step.direction = .outgoing → ∀ index serve order time,
    serve time index = generation → ∀ conditions frontier,
      (∀ b ∈ frontier, Anchored step b) →
      ∃ keeps : Binding → Bool,
        (checkAntiJoin index step conditions frontier).run serve order time =
          .ok (frontier.filter keeps) ∧
          ∀ b ∈ frontier, keeps b = true ↔
            NothingJoins dataset partitioning p step conditions b

variable {dataset : Dataset} {partitioning : Partitioning} {p : PartitionId}
variable {generation : IndexGeneration}

/-- A binding that is bound at both ends is kept exactly when nothing joins
them. -/
theorem unjoined_outgoing_iff (unique : dataset.UniqueEdgeIds)
    (built : dataset.Built partitioning p generation) {step : AntiJoinStep}
    (outgoing : step.direction = .outgoing) {conditions : List PropertyFilter}
    {b : Binding} (anchored : Anchored step b) :
    unjoined generation step conditions b = true ↔
      NothingJoins dataset partitioning p step conditions b := by
  obtain ⟨u, boundFrom⟩ := (b.mem_nodes_iff _).mp anchored.1
  obtain ⟨v, boundTo⟩ := (b.mem_nodes_iff _).mp anchored.2
  have candidates : candidateExists generation step conditions u v = true ↔ _ :=
    candidateExists_outgoing_iff unique built outgoing
  rw [unjoined, boundFrom, boundTo]
  dsimp only
  rw [Bool.not_eq_true', Bool.eq_false_iff, ne_eq, candidates]
  constructor
  · intro nothing u' v' boundFrom' boundTo' edge joins
    rw [boundFrom] at boundFrom'
    rw [boundTo] at boundTo'
    cases boundFrom'
    cases boundTo'
    exact Bool.eq_false_iff.mpr fun passes => nothing ⟨edge, joins, passes⟩
  · rintro nothing ⟨edge, joins, passes⟩
    rw [nothing u v boundFrom boundTo edge joins] at passes
    cases passes

/-- The check of a frontier keeps the bindings that nothing joins. -/
theorem run_checkAntiJoin (index : GenerationHandle) (step : AntiJoinStep)
    (conditions : List PropertyFilter) {frontier : List Binding}
    (anchored : ∀ b ∈ frontier, Anchored step b)
    (serve : Nat → GenerationHandle → IndexGeneration)
    (order : Nat → (size : Nat) → Equiv.Perm (Fin size)) (time : Nat) :
    (checkAntiJoin index step conditions frontier).run serve order time =
      .ok (frontier.filter (unjoined (serve time index) step conditions)) := by
  change (Client.collect (checkBinding (serve time index) step conditions)
    frontier).run serve order (time + 1) = _
  rw [collect_checkBinding_anchored (serve time index) step conditions anchored]
  rfl

/-- Every partition that is built has the records of the edges that leave its
nodes. -/
theorem outgoingRecorded_of_built (unique : dataset.UniqueEdgeIds)
    (built : dataset.Built partitioning p generation) :
    OutgoingRecorded dataset partitioning p generation where
  recorded _ _ listed := exists_recordedFrom unique built listed
  neverMissing _ outgoing u v := missingRecords_eq_nil unique built outgoing u v
  judged _ outgoing _ _ _ := candidateExists_outgoing_iff unique built outgoing
  checked step outgoing index serve order time serves conditions frontier anchored := by
    have ends := run_checkAntiJoin index step conditions anchored serve order time
    rw [serves] at ends
    exact ⟨_, ends, fun b member =>
      unjoined_outgoing_iff unique built outgoing (anchored b member)⟩

end Check

/-! ### Validated queries -/

/-- The anti-joins of a validated query's plan look along outgoing edges. -/
theorem antiJoins_outgoing {query : Query} {schema : Schema} {queryPlan : QueryPlan}
    (valid : SchemaValidator.validate query schema = .ok ())
    (planned : NaivePlanner.plan query = .ok queryPlan) {step : AntiJoinStep}
    (member : .antiJoin step ∈ queryPlan.steps) : step.direction = .outgoing := by
  obtain ⟨first, segments, start, antiJoins, shape⟩ := planShape_of_plan planned
  have checked := SchemaValidator.validate_eq_ok_iff.mp valid
  rw [shape.planEq] at member
  cases List.mem_cons.mp member with
  | inl isFirst =>
      have isStart := (start_isStart shape.started).1
      rw [← isFirst] at isStart
      exact isStart.elim
  | inr later => exact outgoingAntiJoins_of_plan checked shape step later

/-- In a generation built from tables with unique edge ids, every outgoing entry
has the record of its row; hence the anti-joins that a validated query can have
judge every edge between two nodes by its row.  The branch for an entry without
a record, which takes the edge for one without properties, is therefore never
taken.

Incoming entries are another matter, since the record of an edge is in the
partition of its source; that anti-joins go along outgoing edges is what the
validator sees to (last conjunct). -/
theorem antiJoins_judgeRows [Chrono] {dataset : Dataset}
    {partitioning : Partitioning} {p : PartitionId} {generation : IndexGeneration}
    (unique : dataset.UniqueEdgeIds)
    (built : dataset.Built partitioning p generation) :
    OutgoingRecorded dataset partitioning p generation ∧
      ∀ query queryPlan, SchemaValidator.validate query dataset.schema = .ok () →
        NaivePlanner.plan query = .ok queryPlan →
          ∀ step, .antiJoin step ∈ queryPlan.steps → step.direction = .outgoing := by
  constructor
  · exact outgoingRecorded_of_built unique built
  · exact fun query queryPlan valid planned step member =>
      antiJoins_outgoing valid planned member

section

open scoped Social

/-- On the partition of person 1. -/
theorem social_antiJoins_judgeRows :
    (OutgoingRecorded Social.dataset Social.byParity ⟨1⟩
      (Social.dataset.generation Social.byParity ⟨1⟩ 0) ∧
      ∀ query queryPlan, SchemaValidator.validate query Social.dataset.schema = .ok () →
        NaivePlanner.plan query = .ok queryPlan →
          ∀ step, .antiJoin step ∈ queryPlan.steps → step.direction = .outgoing) :=
  antiJoins_judgeRows Social.uniqueEdgeIds (built_iff.mpr ⟨0, rfl⟩)

-- along incoming edges the record can be with another partition: person 1 knows
-- person 2
example : (Social.dataset.generation Social.byParity ⟨0⟩ 0).topology.inNeighbors ⟨2⟩ =
      [{ edgeId := ⟨10⟩, edgeType := Social.knows, dstLocal := none,
         dstRemote := some ⟨⟨1⟩, ⟨1⟩⟩ }] ∧
    EdgeId.mk 10 ∉ (Social.dataset.generation Social.byParity ⟨0⟩ 0).edgeRecords ∧
    EdgeId.mk 10 ∈ (Social.dataset.generation Social.byParity ⟨1⟩ 0).edgeRecords := by
  decide +kernel

end

end GraphEngine
