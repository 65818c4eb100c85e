/-
Module: GraphEngine.Proofs.Scans
Layer: Proofs
Purpose: What a rebuild over a live catalog lists: rows that the catalog hands
  out for the labels and edge types of the rebuild, whatever is committed
  meanwhile.
Trusted boundary: none
Main exports: IcebergCatalogReader.builder, scanLabels_from, scanEdgeTypes_from
-/
import GraphEngine.Lib.ClientRules
import GraphEngine.Model.Builder
import GraphEngine.Model.Catalog

namespace GraphEngine

open IcebergIndexBuilder

/-- A rebuild of the schema's generations over the catalog. -/
abbrev IcebergCatalogReader.builder (catalogReader : IcebergCatalogReader)
    (schema : Schema) (partitioning : Partitioning) :
    IcebergIndexBuilder (Client String TableState StorageError) :=
  ⟨catalogReader.reader, schema, partitioning⟩

/-- Draining a stream yields rows of the stream. -/
theorem drain_from {Row : Type} (stream : List (Except StorageError Row)) :
    (drain stream : Client String TableState StorageError (List Row)).Always fun rows =>
      ∀ row ∈ rows, .ok row ∈ stream := by
  induction stream with
  | nil => exact Client.Always.pure (by simp)
  | cons item rest inductionHypothesis =>
      rw [drain, List.mapM_cons]
      cases item with
      | error e => exact trivial
      | ok row =>
          have yielded : (pure row : Client String TableState StorageError Row).Always
              fun a => a = row :=
            Client.Always.pure rfl
          apply Client.Always.bind yielded
          rintro _ rfl
          apply Client.Always.bind inductionHypothesis
          intro rows later
          apply Client.Always.pure
          intro other member
          cases List.mem_cons.mp member with
          | inl same => exact same ▸ List.mem_cons_self
          | inr inRows => exact List.mem_cons_of_mem _ (later other inRows)

section Scans

variable {catalogReader : IcebergCatalogReader} {schema : Schema}
variable {partitioning : Partitioning}

/-- What is scanned under a label has what every row handed out for the label
has. -/
theorem scanLabels_from {P : Label → NodeRow → Prop}
    (handed : ∀ label nodeDef snapshot stream row, schema.nodeDef label =
      some nodeDef → catalogReader.nodeRows (nodeTableName label) snapshot nodeDef =
      .ok stream → .ok row ∈ stream → P label row) (labels : List Label) :
    (labels.foldlM (catalogReader.builder schema partitioning).scanLabel
      (∅, [])).Always fun scanned =>
      ∀ a ∈ scanned.2, a.1 ∈ labels ∧ P a.1 a.2 := by
  apply Client.Always.foldlM labels (by simp)
  intro label listed acc before
  apply Client.Always.bind (Client.Always.trivial _)
  intro snapshot _
  have rowsOfLabel :
      (catalogReader.reader.scanNodes schema label snapshot).Always fun stream =>
      ∀ row, .ok row ∈ stream → P label row := by
    apply Client.Always.ofExcept
    intro stream scanned row member
    rw [IcebergCatalogReader.scanNodes] at scanned
    split at scanned
    case h_1 => cases scanned
    case h_2 nodeDef declared => exact handed _ _ _ _ _ declared scanned member
  apply Client.Always.bind rowsOfLabel
  intro stream fromLabel
  apply Client.Always.bind (drain_from stream)
  intro rows drained
  apply Client.Always.pure
  intro a member
  cases List.mem_append.mp member with
  | inl earlier => exact before a earlier
  | inr here =>
      obtain ⟨row, inRows, rfl⟩ := List.mem_map.mp here
      exact ⟨listed, fromLabel row (drained row inRows)⟩

/-- What is scanned under an edge type has what every row handed out for the
type has. -/
theorem scanEdgeTypes_from {P : EdgeType → EdgeRow → Prop}
    (handed : ∀ edgeType edgeDef snapshot stream row, schema.edgeDef edgeType = some
      edgeDef → catalogReader.edgeRows (edgeTableName edgeType) snapshot edgeDef =
      .ok stream → .ok row ∈ stream → P edgeType row) (edgeDefs : List EdgeDef)
    (pinned : Std.ExtTreeMap String SnapshotId compare) :
    (edgeDefs.foldlM (catalogReader.builder schema partitioning).scanEdgeType
      (pinned, [])).Always fun scanned =>
      ∀ a ∈ scanned.2, a.1 ∈ edgeDefs.map EdgeDef.edgeType ∧ P a.1 a.2 := by
  apply Client.Always.foldlM edgeDefs (by simp)
  intro edgeDef listed acc before
  apply Client.Always.bind (Client.Always.trivial _)
  intro snapshot _
  have rowsOfType : (catalogReader.reader.scanEdges schema edgeDef.edgeType
      snapshot).Always fun stream =>
      ∀ row, .ok row ∈ stream → P edgeDef.edgeType row := by
    apply Client.Always.ofExcept
    intro stream scanned row member
    rw [IcebergCatalogReader.scanEdges] at scanned
    split at scanned
    case h_1 => cases scanned
    case h_2 found declared => exact handed _ _ _ _ _ declared scanned member
  apply Client.Always.bind rowsOfType
  intro stream fromType
  apply Client.Always.bind (drain_from stream)
  intro rows drained
  apply Client.Always.pure
  intro a member
  cases List.mem_append.mp member with
  | inl earlier => exact before a earlier
  | inr here =>
      obtain ⟨row, inRows, rfl⟩ := List.mem_map.mp here
      exact ⟨List.mem_map_of_mem listed, fromType row (drained row inRows)⟩

end Scans

end GraphEngine
