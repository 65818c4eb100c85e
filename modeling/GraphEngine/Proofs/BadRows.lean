/-
Module: GraphEngine.Proofs.BadRows
Layer: Proofs
Purpose: Rebuilds over streams with items that are no rows.  The first error of
  any stream ends the rebuild: it yields the generation of the good rows exactly
  when no stream has an error.
Trusted boundary: none
Main exports: RowStreams, RowStreams.okRows, RowsSkipped, rowsSkipped_iff
-/
import GraphEngine.Model.Rebuild
import GraphEngine.Proofs.Build

namespace GraphEngine

open IcebergIndexBuilder

/-! ### Streams -/

/-- The streams of the node and edge tables, each item a row or the reason why
it is none. -/
structure RowStreams where
  schema : Schema
  labels : List Label
  nodeItems : Label → List (Except StorageError NodeRow)
  edgeItems : EdgeType → List (Except StorageError EdgeRow)
  snapshot : String → SnapshotId

namespace RowStreams

variable (streams : RowStreams)

/-- A backend that hands out these streams. -/
def reader : IcebergReader (Except StorageError) where
  latestSnapshot table := .ok (streams.snapshot table)
  scanNodes _ label _ := .ok (streams.nodeItems label)
  scanEdges _ edgeType _ := .ok (streams.edgeItems edgeType)

/-- The rows alone. -/
def okRows : Dataset where
  schema := streams.schema
  labels := streams.labels
  nodeRows label := (streams.nodeItems label).filterMap Except.toOption
  edgeRows edgeType := (streams.edgeItems edgeType).filterMap Except.toOption
  snapshot := streams.snapshot

/-- A rebuild over the streams. -/
def rebuild (partitioning : Partitioning) (partition : PartitionId)
    (builtAtUnixMs : Int) : Except StorageError IndexGeneration :=
  IcebergIndexBuilder.build ⟨streams.reader, streams.schema, partitioning⟩ partition
    streams.labels builtAtUnixMs

/-- No item of a scanned stream is an error. -/
structure AllRows : Prop where
  node : ∀ label ∈ streams.labels, ∀ item ∈ streams.nodeItems label, item.isOk
  edge : ∀ edgeDef ∈ streams.schema.edges.toList.map Prod.snd,
    ∀ item ∈ streams.edgeItems edgeDef.edgeType, item.isOk

end RowStreams

/-- Items that are no rows are skipped: a rebuild makes the generation of the
rows, so that a node starts, and at every tick the generation made then is
served.  What is served without a successful rebuild is the generation before
it, however long ago that was. -/
structure RowsSkipped (streams : RowStreams) : Prop where
  built : ∀ partitioning partition builtAt,
    streams.rebuild partitioning partition builtAt =
      .ok (streams.okRows.generation partitioning partition builtAt)
  starts : ∀ partitioning partition builtAt,
    bootstrap ⟨streams.reader, streams.schema, partitioning⟩ partition
      streams.labels builtAt =
      .ok (streams.okRows.generation partitioning partition builtAt)
  refreshes : ∀ partitioning partition served ticks builtAt,
    periodicRebuildLoop streams.schema partitioning partition streams.labels served
        (ticks ++ [⟨streams.reader, builtAt⟩]) =
          streams.okRows.generation partitioning partition builtAt

/-! ### Draining -/

/-- Draining succeeds when every item is a row. -/
theorem drain_eq_ok_iff {Row : Type} {stream : List (Except StorageError Row)}
    {rows : List Row} :
    drain (m := Except StorageError) stream = .ok rows ↔ stream = rows.map .ok := by
  have items : drain (m := Except StorageError) stream = stream.mapM id := by
    rw [drain]
    congr
    funext item
    cases item <;> rfl
  rw [items, mapM_eq_ok_iff, ← List.forall₂_eq_eq_eq, List.forall₂_map_right_iff]
  rfl

/-- A stream of rows drains to its rows. -/
theorem drain_of_allRows {Row : Type} {stream : List (Except StorageError Row)}
    (allRows : ∀ item ∈ stream, item.isOk) :
    drain (m := Except StorageError) stream = .ok (stream.filterMap Except.toOption) := by
  rw [drain_eq_ok_iff]
  induction stream with
  | nil => rfl
  | cons item rest inductionHypothesis =>
      have later := inductionHypothesis fun other member =>
        allRows other (List.mem_cons_of_mem _ member)
      cases item with
      | error e => cases allRows _ List.mem_cons_self
      | ok row => exact congrArg (.ok row :: ·) later

/-- A stream that is drained had no bad row. -/
theorem allRows_of_drain {Row : Type} {stream : List (Except StorageError Row)}
    {rows : List Row} (drained : drain (m := Except StorageError) stream = .ok rows) :
    ∀ item ∈ stream, item.isOk := by
  rw [drain_eq_ok_iff.mp drained]
  intro item member
  obtain ⟨row, -, rfl⟩ := List.mem_map.mp member
  rfl

/-! ### Scans -/

section Scans

variable {streams : RowStreams} {partitioning : Partitioning}

theorem allRows_of_scanLabel
    {before after : Std.ExtTreeMap String SnapshotId compare × List
      (Label × NodeRow)} {label : Label}
    (scanned : scanLabel
      ⟨streams.reader, streams.schema, partitioning⟩ before label = .ok after) :
    ∀ item ∈ streams.nodeItems label, item.isOk := by
  cases drained : drain (m := Except StorageError) (streams.nodeItems label) with
  | ok rows => exact allRows_of_drain drained
  | error e => simp [scanLabel, RowStreams.reader, bind, Except.bind, drained] at scanned

theorem allRows_of_scanEdgeType
    {before after : Std.ExtTreeMap String SnapshotId compare × List
      (EdgeType × EdgeRow)} {edgeDef : EdgeDef}
    (scanned : scanEdgeType
      ⟨streams.reader, streams.schema, partitioning⟩ before edgeDef = .ok after) :
    ∀ item ∈ streams.edgeItems edgeDef.edgeType, item.isOk := by
  cases drained :
    drain (m := Except StorageError) (streams.edgeItems edgeDef.edgeType) with
  | ok rows => exact allRows_of_drain drained
  | error e =>
      simp [scanEdgeType, RowStreams.reader, bind, Except.bind, drained] at scanned

/-- A rebuild succeeds only when every item of every scanned stream is a row. -/
theorem allRows_of_rebuild {partition : PartitionId} {builtAt : Int}
    {generation : IndexGeneration}
    (built : streams.rebuild partitioning partition builtAt = .ok generation) :
    streams.AllRows := by
  rw [RowStreams.rebuild, build] at built
  cases nodes : streams.labels.foldlM
    (scanLabel ⟨streams.reader, streams.schema, partitioning⟩) (∅, []) with
  | error e =>
      simp only [nodes, bind, Except.bind] at built
      cases built
  | ok scannedNodes =>
      simp only [nodes, bind, Except.bind] at built
      cases edges : (streams.schema.edges.toList.map Prod.snd).foldlM
          (scanEdgeType ⟨streams.reader, streams.schema, partitioning⟩)
          (scannedNodes.1, []) with
      | error e =>
          simp only [edges] at built
          cases built
      | ok scannedEdges =>
          constructor
          · intro label listed
            obtain ⟨before, after, scanned⟩ := step_of_foldlM_ok nodes label listed
            exact allRows_of_scanLabel scanned
          · intro edgeDef listed
            obtain ⟨before, after, scanned⟩ := step_of_foldlM_ok edges edgeDef listed
            exact allRows_of_scanEdgeType scanned

/-- Where every item is a row, a rebuild is that of the rows. -/
theorem rebuild_of_allRows (allRows : streams.AllRows) (partition : PartitionId)
    (builtAt : Int) :
    streams.rebuild partitioning partition builtAt =
      .ok (streams.okRows.generation partitioning partition builtAt) := by
  have labels : streams.labels.foldlM
      (scanLabel ⟨streams.reader, streams.schema, partitioning⟩) (∅, []) =
      streams.labels.foldlM (scanLabel
        ⟨streams.okRows.reader, streams.schema, partitioning⟩) (∅, []) := by
    apply foldlM_congr_mem
    intro label listed acc
    simp only [scanLabel, RowStreams.reader, Dataset.reader, bind, Except.bind, drain_ok,
      drain_of_allRows (allRows.node label listed), RowStreams.okRows]
  have edgeTypes (pinned : Std.ExtTreeMap String SnapshotId compare) :
      (streams.schema.edges.toList.map Prod.snd).foldlM
          (scanEdgeType ⟨streams.reader, streams.schema, partitioning⟩) (pinned, []) =
        (streams.schema.edges.toList.map Prod.snd).foldlM
          (scanEdgeType ⟨streams.okRows.reader, streams.schema, partitioning⟩)
          (pinned, []) := by
    apply foldlM_congr_mem
    intro edgeDef listed acc
    simp only [scanEdgeType, RowStreams.reader, Dataset.reader, bind, Except.bind,
      drain_ok, drain_of_allRows (allRows.edge edgeDef listed), RowStreams.okRows]
  have rows := build_ok streams.okRows partitioning partition builtAt
  rw [← rows, RowStreams.rebuild, build, build, labels]
  simp only [edgeTypes]
  rfl

/-! ### Ticks -/

/-- A rebuild that succeeds is served from then on. -/
theorem periodicRebuildLoop_concat {schema : Schema} {partition : PartitionId}
    {labels : List Label} {served generation : IndexGeneration}
    {ticks : List RebuildTick} {tick : RebuildTick}
    (built : build ⟨tick.reader, schema, partitioning⟩ partition labels
      tick.nowUnixMs = .ok generation) :
    periodicRebuildLoop schema partitioning partition labels served
      (ticks ++ [tick]) = generation := by
  induction ticks generalizing served with
  | nil =>
      rw [List.nil_append, periodicRebuildLoop, built]
      rfl
  | cons first rest inductionHypothesis =>
      rw [List.cons_append, periodicRebuildLoop]
      split
      case h_1 => exact inductionHypothesis
      case h_2 => exact inductionHypothesis

/-- Items that are no rows are skipped exactly when there are none: the first
that the loops meet fails the whole rebuild, in the scan of the label tables
before the loop over the edge types as well as in it. -/
theorem rowsSkipped_iff (streams : RowStreams) :
    RowsSkipped streams ↔ streams.AllRows := by
  constructor
  · intro skipped
    exact allRows_of_rebuild (skipped.built Social.single { val := 0 } 0)
  · intro allRows
    constructor
    case built =>
      exact fun partitioning partition builtAt =>
        rebuild_of_allRows allRows partition builtAt
    case starts =>
      exact fun partitioning partition builtAt =>
        rebuild_of_allRows allRows partition builtAt
    case refreshes =>
      intro partitioning partition served ticks builtAt
      exact periodicRebuildLoop_concat (rebuild_of_allRows allRows partition builtAt)

end Scans

/-! ### A row that does not conform -/

/-- The people of the example, and one whose name is no text. -/
def withBadRow : RowStreams where
  schema := Social.schema
  labels := Social.dataset.labels
  nodeItems label := (Social.dataset.nodeRows label).map .ok ++
    [.error (.nonConformingRow "expected a StringArray")]
  edgeItems edgeType := (Social.dataset.edgeRows edgeType).map .ok
  snapshot := Social.dataset.snapshot

/-- One row that does not conform prevents the rebuild. -/
theorem withBadRow_fatal : ¬ ∀ streams : RowStreams,
    (∀ label, ∀ item ∈ streams.nodeItems label, item.isOk ∨
      ∃ reason, item = .error (.nonConformingRow reason)) →
    (∀ edgeType, ∀ item ∈ streams.edgeItems edgeType,
      item.isOk ∨ ∃ reason, item = .error (.nonConformingRow reason)) →
    RowsSkipped streams := by
  intro skips
  have skipped : RowsSkipped withBadRow := by
    apply skips
    · intro label item member
      cases List.mem_append.mp member with
      | inl inRows =>
          obtain ⟨row, -, rfl⟩ := List.mem_map.mp inRows
          exact .inl rfl
      | inr bad => exact .inr ⟨_, List.mem_singleton.mp bad⟩
    · intro edgeType item member
      obtain ⟨row, -, rfl⟩ := List.mem_map.mp member
      exact .inl rfl
  have allRows := allRows_of_rebuild (skipped.built Social.single { val := 0 } 0)
  have item := allRows.node Social.person (by decide)
    (.error (.nonConformingRow "expected a StringArray"))
    (List.mem_append_right _ List.mem_cons_self)
  cases item

end GraphEngine
