/-
Module: GraphEngine.Proofs.RebuildCut
Layer: Proofs
Purpose: Rebuilds that run while tables are committed to.  A rebuild asks the
  catalog for one table after the other; when no commit falls between the
  question about its table and some instant of the run, the generation is the
  one of that instant.  Commits in between can mix two instants into a
  generation that belongs to neither.
Trusted boundary: none
Main exports: build_determined, build_oneInstant, build_mixes_instants
-/
import GraphEngine.Lib.ClientRules
import GraphEngine.Lib.Interleaving
import GraphEngine.Model.Catalog
import GraphEngine.Spec.Dataset

namespace GraphEngine

open Client (CleanCut Determined Event Run overwritten)

namespace IcebergIndexBuilder

variable {catalogReader : IcebergCatalogReader} {schema : Schema}
variable {partitioning : Partitioning}
variable {catalog : String → TableState}

/-! ### A rebuild at one instant -/

theorem drain_determined {Row : Type} (stream : List (Except StorageError Row)) :
    Determined catalog (drain stream : Client String TableState StorageError
      (List Row)) (drain stream) := by
  refine Determined.mapM stream fun item => ?_
  cases item with
  | ok row => exact .ofExcept (.ok row)
  | error e => exact .ofExcept (.error e)

theorem scanLabel_determined (label : Label)
    (acc : Std.ExtTreeMap String SnapshotId compare × List (Label × NodeRow)) :
    Determined catalog (scanLabel ⟨catalogReader.reader, schema, partitioning⟩ acc label)
      (scanLabel ⟨catalogReader.readerAt catalog, schema, partitioning⟩ acc label) := by
  refine Determined.bind (.acquire_bind _ (.ofExcept _)) fun snapshot => ?_
  refine Determined.bind (.ofExcept _) fun stream => ?_
  exact Determined.bind (drain_determined stream) fun rows => .ofExcept (.ok _)

theorem scanEdgeType_determined (edgeDef : EdgeDef)
    (acc : Std.ExtTreeMap String SnapshotId compare × List (EdgeType × EdgeRow)) :
    Determined catalog
      (scanEdgeType ⟨catalogReader.reader, schema, partitioning⟩ acc edgeDef)
      (scanEdgeType
        ⟨catalogReader.readerAt catalog, schema, partitioning⟩ acc edgeDef) := by
  refine Determined.bind (.acquire_bind _ (.ofExcept _)) fun snapshot => ?_
  refine Determined.bind (.ofExcept _) fun stream => ?_
  exact Determined.bind (drain_determined stream) fun rows => .ofExcept (.ok _)

/-- While no table changes, a rebuild does what it does over a catalog that
never changes. -/
theorem build_determined (partition : PartitionId) (labels : List Label)
    (builtAtUnixMs : Int) :
    Determined catalog (build
      ⟨catalogReader.reader, schema, partitioning⟩ partition labels builtAtUnixMs)
      (build ⟨catalogReader.readerAt catalog, schema, partitioning⟩ partition labels
        builtAtUnixMs) := by
  refine Determined.bind
    (.foldlM labels _ fun acc label => scanLabel_determined label acc) fun nodes => ?_
  refine Determined.bind (.foldlM _ _ fun acc edgeDef =>
    scanEdgeType_determined edgeDef acc) fun edges => ?_
  exact .ofExcept (.ok _)

/-! ### A rebuild among commits -/

/-- A rebuild asks every table for its latest snapshot when it comes to it, so
commits between two of these questions may be seen by the later one alone.  If
some instant of a run has no commit to a table between it and the question about
that table (`cut`), the rebuild ends as it would with all tables read at that
instant.  Commits to other tables and at other times are unrestricted. -/
theorem build_oneInstant {partition : PartitionId} {labels : List Label}
    {builtAtUnixMs : Int} {trace : List (Event String TableState)}
    {last : String → TableState} {outcome : Except StorageError IndexGeneration}
    (run : Run ⟨catalog, build ⟨catalogReader.reader, schema, partitioning⟩
        partition labels builtAtUnixMs⟩ trace ⟨last, .done outcome⟩)
    (cut : ∃ early late, trace = early ++ late ∧ CleanCut early late) :
    ∃ early late, trace = early ++ late ∧
      outcome = build ⟨catalogReader.readerAt (overwritten catalog early), schema,
        partitioning⟩ partition
        labels builtAtUnixMs := by
  rcases cut with ⟨early, late, rfl, clean⟩
  have determined : Determined (overwritten catalog early)
      (build ⟨catalogReader.reader, schema, partitioning⟩ partition labels
        builtAtUnixMs) _ :=
    build_determined partition labels builtAtUnixMs
  exact ⟨early, late, rfl, determined.eq_of_returns (run.returns_atCut clean)⟩

end IcebergIndexBuilder

/-! ### Commits between two tables -/

namespace Commits

open IcebergIndexBuilder

/-- `node Person; edge KNOWS Person -> Person`. -/
def schema : Schema where
  version := "graph_v1"
  nodes := collectMap [(Social.person, { label := Social.person, properties := [] })]
  edges := collectMap
    [(Social.knows,
      { edgeType := Social.knows, source := Social.person, target := Social.person,
        properties := [] })]

/-- The first snapshot of both tables is empty; the second has two people, and
one knows the other. -/
def catalogReader : IcebergCatalogReader where
  namespaceIdent := "social"
  nodeRows _ snapshot _ :=
    if snapshot = { val := 1 } then .ok []
    else .ok [.ok { id := ⟨1⟩, properties := ∅ }, .ok { id := ⟨2⟩, properties := ∅ }]
  edgeRows _ snapshot _ :=
    if snapshot = { val := 1 } then .ok []
    else .ok [.ok { id := ⟨10⟩, src := ⟨1⟩, dst := ⟨2⟩, properties := ∅ }]

def persons : String := nodeTableName Social.person
def acquaintances : String := edgeTableName Social.knows

theorem persons_ne_acquaintances : persons ≠ acquaintances := by decide +kernel

def firstState : TableState := .current { val := 1 }
def secondState : TableState := .current { val := 2 }

/-- The rebuild of the only partition. -/
def rebuild : Client String TableState StorageError IndexGeneration :=
  build ⟨catalogReader.reader, schema, Social.single⟩ { val := 0 } [Social.person] 0

/-- What it would build with all tables read from one catalog. -/
def rebuildAt (catalog : String → TableState) : Except StorageError IndexGeneration :=
  build ⟨catalogReader.readerAt catalog, schema, Social.single⟩ { val := 0 }
    [Social.person] 0

/-- The people are committed to after the rebuild has read them: it ends as if
it had read everything before. -/
theorem rebuild_beforeCommit : ∃ trace last outcome,
    Event.swap persons secondState ∈ trace ∧
    Run ⟨fun _ => firstState, rebuild⟩ trace ⟨last, .done outcome⟩ ∧
    ∃ early late, trace = early ++ late ∧
      outcome = rebuildAt (overwritten (fun _ => firstState) early) := by
  have unchanged : Function.update
      (fun _ => firstState) persons secondState acquaintances = firstState :=
    Function.update_of_ne persons_ne_acquaintances.symm _ _
  have run : ∃ last outcome, Run ⟨fun _ => firstState, rebuild⟩
      [.read persons firstState, .swap persons secondState,
        .read acquaintances firstState]
      ⟨last, .done outcome⟩ :=
    ⟨_, _, Run.read_cons rfl rfl
      (.cons (.swap _ _ _) (Run.read_cons rfl unchanged (.nil _)))⟩
  rcases run with ⟨last, outcome, run⟩
  refine ⟨_, last, outcome, by simp, run, build_oneInstant run ⟨[], _, rfl, ?_, ?_⟩⟩
  · intro before after cell seen split
    simp at split
  · intro before after cell seen split state member
    rcases before with _ | ⟨first, _ | ⟨second, _ | ⟨third, before⟩⟩⟩
    · cases member
    · simp at split
    · simp only [List.cons_append, List.nil_append, List.cons.injEq,
        Event.read.injEq] at split
      rcases split with ⟨rfl, rfl, ⟨rfl, -⟩, -⟩
      simp [persons_ne_acquaintances.symm] at member
    · simp at split

/-- How many nodes and edges a rebuild counts. -/
def counts (outcome : Except StorageError IndexGeneration) : Option (Nat × Nat) :=
  outcome.toOption.map fun generation =>
    (generation.genMeta.nodeCount, generation.genMeta.edgeCount)

/-- People are committed after the rebuild has read them, and then an
acquaintance of theirs before it reads the edges: the generation has the edge
and nobody, as no instant has. -/
theorem build_mixes_instants : ∃ trace last generation,
    Run ⟨fun _ => firstState, rebuild⟩ trace ⟨last, .done (.ok generation)⟩ ∧
    ∀ early late, trace = early ++ late →
      rebuildAt (overwritten (fun _ => firstState) early) ≠ .ok generation := by
  have run : ∃ last generation, Run ⟨fun _ => firstState, rebuild⟩
      [.read persons firstState, .swap persons secondState,
        .swap acquaintances secondState,
        .read acquaintances secondState] ⟨last, .done (.ok generation)⟩ ∧
      counts (.ok generation) = some (0, 1) :=
    ⟨_, _, Run.read_cons rfl rfl (.cons (.swap _ _ _) (.cons (.swap _ _ _)
      (Run.read_cons rfl (Function.update_self _ _ _) (.nil _)))), by decide +kernel⟩
  rcases run with ⟨last, generation, run, mixed⟩
  refine ⟨_, last, generation, run, ?_⟩
  intro early late split same
  have counted : counts (rebuildAt (overwritten (fun _ => firstState) early)) =
      some (0, 1) := by
    rw [same, mixed]
  have short : early.length < 5 := by
    have lengths := congrArg List.length split
    simp only [List.length_cons, List.length_nil, List.length_append] at lengths
    omega
  have nowhere : ∀ n < 5, counts (rebuildAt (overwritten (fun _ => firstState)
      (List.take n [.read persons firstState, .swap persons secondState,
          .swap acquaintances secondState,
        .read acquaintances secondState]))) ≠ some (0, 1) := by
    decide +kernel
  apply nowhere early.length short
  rw [split, List.take_left]
  exact counted

end Commits

end GraphEngine
