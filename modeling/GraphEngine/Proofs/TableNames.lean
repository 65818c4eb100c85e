/-
Module: GraphEngine.Proofs.TableNames
Layer: Proofs
Purpose: Which tables a rebuild reads.  The parser tells types apart by their
  names, the storage by their names in lower case: the types of a schema have
  tables of their own exactly when no two labels and no two edge types differ in
  case only.
Trusted boundary: none
Main exports: SchemaType, tableName, TablesSeparate, DistinctIgnoringCase,
  tablesSeparate_iff
-/
import GraphEngine.Lib.Interleaving
import GraphEngine.Model.Catalog
import GraphEngine.Model.SchemaParser
import GraphEngine.Proofs.Evolution
import GraphEngine.Proofs.Scans

namespace GraphEngine

open Std (ExtTreeMap)
open Client (Event Run cellsRead ReadsInTurn)

/-! ### Accepted schemas -/

/-- Every declaration stands under its own name. -/
structure Keyed (nodes : ExtTreeMap Label NodeDef compare)
    (edges : ExtTreeMap EdgeType EdgeDef compare) : Prop where
  node : ∀ label (nodeDef : NodeDef), nodes[label]? = some nodeDef → nodeDef.label = label
  edge : ∀ edgeType (edgeDef : EdgeDef), edges[edgeType]? = some edgeDef →
    edgeDef.edgeType = edgeType

theorem Keyed.insertNode {nodes : ExtTreeMap Label NodeDef compare}
    {edges : ExtTreeMap EdgeType EdgeDef compare} (keyed : Keyed nodes edges)
    (node : NodeDef) : Keyed (nodes.insert node.label node) edges where
  node label nodeDef found := by
    rw [ExtTreeMap.getElem?_insert] at found
    split at found
    case isTrue same =>
      cases found
      exact Std.LawfulEqOrd.eq_of_compare same
    case isFalse => exact keyed.node label nodeDef found
  edge := keyed.edge

theorem Keyed.insertEdge {nodes : ExtTreeMap Label NodeDef compare}
    {edges : ExtTreeMap EdgeType EdgeDef compare} (keyed : Keyed nodes edges)
    (edge : EdgeDef) : Keyed nodes (edges.insert edge.edgeType edge) where
  node := keyed.node
  edge edgeType edgeDef found := by
    rw [ExtTreeMap.getElem?_insert] at found
    split at found
    case isTrue same =>
      cases found
      exact Std.LawfulEqOrd.eq_of_compare same
    case isFalse => exact keyed.edge edgeType edgeDef found

namespace SchemaParser

/-- The walk over the declarations files each under its name. -/
theorem keyed_of_declareAll {decls : List (Pair SchemaRule)}
    {nodes nodes' : ExtTreeMap Label NodeDef compare}
    {edges edges' : ExtTreeMap EdgeType EdgeDef compare} (keyed : Keyed nodes edges)
    (declared : declareAll decls nodes edges = .ok (.ok (nodes', edges'))) :
    Keyed nodes' edges' := by
  induction decls generalizing nodes edges with
  | nil =>
      cases declared
      exact keyed
  | cons decl rest inductionHypothesis =>
      rw [declareAll] at declared
      split at declared
      case h_1 =>
        cases parsed : parseNodeDecl decl with
        | error message =>
            rw [parsed] at declared
            cases declared
        | ok node =>
            rw [parsed] at declared
            simp only [bind, Except.bind] at declared
            split at declared
            case isTrue => cases declared
            case isFalse => exact inductionHypothesis (keyed.insertNode node) declared
      case h_2 =>
        cases parsed : parseEdgeDecl decl with
        | error message =>
            rw [parsed] at declared
            cases declared
        | ok edge =>
            rw [parsed] at declared
            simp only [bind, Except.bind] at declared
            split at declared
            case isTrue => cases declared
            case isFalse => exact inductionHypothesis (keyed.insertEdge edge) declared
      case h_3 => cases declared

/-- A schema that the parser returns has each declaration under its own name. -/
theorem keyed_of_parse {report : String → String} {source : String}
    {schema : Schema}
    (parsed : PestSchemaParser.parse report source = .ok (.ok schema)) :
    Keyed schema.nodes schema.edges := by
  rw [PestSchemaParser.parse] at parsed
  split at parsed
  case h_1 => cases parsed
  case h_2 pairs rest derived =>
    simp only [bind, Except.bind] at parsed
    split at parsed
    case h_1 => cases parsed
    case h_2 schemaFile first =>
      split at parsed
      case h_1 => cases parsed
      case h_2 schemaDecl second =>
        rw [parseSchemaDecl] at parsed
        simp only [bind, Except.bind] at parsed
        split at parsed
        case h_1 => cases parsed
        case h_2 version third =>
          split at parsed
          case h_1 => cases parsed
          case h_2 outcome declared =>
            split at parsed
            case h_1 => cases parsed
            case h_2 nodes edges =>
              cases checked : checkEndpoints nodes (edges.toList.map Prod.snd) with
              | error error =>
                  rw [checked] at parsed
                  cases parsed
              | ok checked' =>
                  rw [checked] at parsed
                  cases parsed
                  refine keyed_of_declareAll ⟨?_, ?_⟩ declared
                  · simp
                  · simp

end SchemaParser

/-! ### Tables of a schema -/

/-- A type that a schema declares. -/
inductive SchemaType where
  | node (label : Label)
  | edge (edgeType : EdgeType)
deriving DecidableEq, Repr

/-- The table of a label or an edge type. -/
def SchemaType.tableName : SchemaType → String
  | .node label => nodeTableName label
  | .edge edgeType => edgeTableName edgeType

/-- The schema declares the label or edge type. -/
def Schema.Declares (schema : Schema) : SchemaType → Prop
  | .node label => label ∈ schema.nodes
  | .edge edgeType => edgeType ∈ schema.edges

/-- The labels of a rebuild: all those of the schema, in any order. -/
structure Schema.AllLabels (schema : Schema) (labels : List Label) : Prop where
  nodup : labels.Nodup
  mem_iff : ∀ label, label ∈ labels ↔ label ∈ schema.nodes

/-- Every row handed out of a table has an id that is stored in this table
only. -/
structure IcebergCatalogReader.StoredIn (catalogReader : IcebergCatalogReader)
    (homeOfNode : NodeId → String) (homeOfEdge : EdgeId → String) : Prop where
  node : ∀ table snapshot nodeDef stream row,
    catalogReader.nodeRows table snapshot nodeDef = .ok stream →
    .ok row ∈ stream → homeOfNode row.id = table
  edge : ∀ table snapshot edgeDef stream row,
    catalogReader.edgeRows table snapshot edgeDef = .ok stream →
    .ok row ∈ stream → homeOfEdge row.id = table

/-- No row is listed under two types. -/
def UnderOneType {κ ρ ι : Type} (id : ρ → ι) (scanned : List (κ × ρ)) : Prop :=
  ∀ a ∈ scanned, ∀ b ∈ scanned, id a.2 = id b.2 → a.1 = b.1

/-- No two types of the schema share a table.  So a rebuild over all labels,
whatever is committed meanwhile, asks for each table once and pins a snapshot
for each type, and a row stored in one table is scanned under one type.

The statement is about every run: the labels are listed in any order, the
catalog holds anything, and commits come at any time. -/
structure TablesSeparate (schema : Schema) : Prop where
  injective : ∀ a b, schema.Declares a → schema.Declares b →
    a.tableName = b.tableName → a = b
  scansOnce : ∀ labels, schema.AllLabels labels →
    ∀ (catalogReader : IcebergCatalogReader) partitioning partition builtAt catalog
      trace last outcome,
      Run ⟨catalog, (catalogReader.builder schema partitioning).build partition labels
        builtAt⟩ trace
        ⟨last, .done outcome⟩ →
      (cellsRead trace).Nodup ∧
        (outcome.isOk → ∀ a, schema.Declares a → a.tableName ∈ cellsRead trace)
  pinned : ∀ labels, schema.AllLabels labels →
    ∀ (catalogReader : IcebergCatalogReader) partitioning partition builtAt,
      ((catalogReader.builder schema partitioning).build partition labels
        builtAt).Always fun generation =>
        generation.genMeta.snapshotByTable.size = schema.nodes.size + schema.edges.size
  nodeRows : ∀ labels, schema.AllLabels labels →
    ∀ (catalogReader : IcebergCatalogReader) homeOfNode homeOfEdge,
      catalogReader.StoredIn homeOfNode homeOfEdge →
    ∀ partitioning, (labels.foldlM
      (catalogReader.builder schema partitioning).scanLabel (∅, [])).Always
      fun scanned => UnderOneType NodeRow.id scanned.2
  edgeRows : ∀ (catalogReader : IcebergCatalogReader) homeOfNode homeOfEdge,
    catalogReader.StoredIn homeOfNode homeOfEdge → ∀ partitioning pinned,
      ((schema.edges.toList.map Prod.snd).foldlM
        (catalogReader.builder schema partitioning).scanEdgeType
          (pinned, [])).Always
        fun scanned => UnderOneType EdgeRow.id scanned.2

/-- No two labels and no two edge types differ in case only. -/
structure DistinctIgnoringCase (schema : Schema) : Prop where
  labels : ∀ label ∈ schema.nodes, ∀ label' ∈ schema.nodes,
    label.name.toLower = label'.name.toLower → label = label'
  edgeTypes : ∀ edgeType ∈ schema.edges, ∀ edgeType' ∈ schema.edges,
    edgeType.name.toLower = edgeType'.name.toLower → edgeType = edgeType'

/-- Labels share a table exactly where they differ in case alone. -/
theorem nodeTableName_inj {label label' : Label} :
    nodeTableName label = nodeTableName label' ↔
      label.name.toLower = label'.name.toLower := by
  simp [nodeTableName]

/-- Edge types share a table exactly where they differ in case alone. -/
theorem edgeTableName_inj {edgeType edgeType' : EdgeType} :
    edgeTableName edgeType = edgeTableName edgeType' ↔
      edgeType.name.toLower = edgeType'.name.toLower := by
  simp [edgeTableName]

/-- Names are compared character by character. -/
theorem toLower_eq_iff {name name' : String} :
    name.toLower = name'.toLower ↔
      name.toList.map Char.toLower = name'.toList.map Char.toLower := by
  have lowered : name.map Char.toLower = name'.map Char.toLower ↔ _ :=
    String.toList_inj.symm
  rwa [String.toList_map, String.toList_map] at lowered

/-- Node and edge tables are told apart by their first character. -/
theorem nodeTableName_ne_edgeTableName (label : Label) (edgeType : EdgeType) :
    nodeTableName label ≠ edgeTableName edgeType := by
  intro same
  have characters := congrArg String.toList same
  simp [nodeTableName, edgeTableName] at characters

/-! ### What a rebuild reads -/

section Rebuild

variable {catalogReader : IcebergCatalogReader} {schema : Schema}
variable {partitioning : Partitioning}

open IcebergIndexBuilder

theorem drain_reads {Row : Type} (stream : List (Except StorageError Row)) :
    ReadsInTurn [] (drain stream : Client String TableState StorageError (List Row)) := by
  apply ReadsInTurn.mapM
  intro item
  cases item with
  | ok row => exact .ofExcept (.ok row)
  | error e => exact .ofExcept (.error e)

/-- The scan of one table reads it to learn its latest snapshot, and nothing
else. -/
theorem scan_reads {Row Scanned : Type} {table : String}
    {read : TableState → Except StorageError SnapshotId}
    {scan : SnapshotId → Except StorageError (List (Except StorageError Row))}
    {finish : SnapshotId → List Row → Scanned} : ReadsInTurn [table] (do
      let snapshot ← (do
        let state ← Client.acquire table
        Client.ofExcept (read state))
      let stream ← Client.ofExcept (scan snapshot)
      let rows ← drain stream
      pure (finish snapshot rows) : Client String TableState StorageError Scanned) := by
  apply ReadsInTurn.thenSilent
  · exact ReadsInTurn.thenSilent (.acquire _) fun state => .ofExcept _
  · intro snapshot
    apply ReadsInTurn.afterSilent (.ofExcept _)
    intro stream
    exact ReadsInTurn.thenSilent (drain_reads stream) fun rows => .ofExcept (.ok _)

/-- The scan of a label asks for the snapshot of its table once. -/
theorem scanLabel_reads
    (acc : ExtTreeMap String SnapshotId compare × List (Label × NodeRow))
    (label : Label) :
    ReadsInTurn [nodeTableName label]
      ((catalogReader.builder schema partitioning).scanLabel acc label) :=
  scan_reads

/-- The scan of an edge type asks for the snapshot of its table once. -/
theorem scanEdgeType_reads
    (acc : ExtTreeMap String SnapshotId compare × List (EdgeType × EdgeRow))
    (edgeDef : EdgeDef) : ReadsInTurn [edgeTableName edgeDef.edgeType]
      ((catalogReader.builder schema partitioning).scanEdgeType acc edgeDef) :=
  scan_reads

/-- The tables of a rebuild, in the order in which it asks for them. -/
def tablesOf (schema : Schema) (labels : List Label) : List String :=
  labels.map nodeTableName ++ (schema.edges.toList.map Prod.snd).map fun edgeDef =>
    edgeTableName edgeDef.edgeType

/-- A rebuild asks for the tables of the labels and then for those of the edge
types. -/
theorem build_reads (partition : PartitionId) (labels : List Label) (builtAt : Int) :
    ReadsInTurn (tablesOf schema labels)
      ((catalogReader.builder schema partitioning).build partition labels builtAt) := by
  have tables : tablesOf schema labels =
      labels.flatMap (fun label => [nodeTableName label]) ++
      ((schema.edges.toList.map Prod.snd).flatMap
        (fun edgeDef => [edgeTableName edgeDef.edgeType]) ++ []) := by
    rw [tablesOf, List.append_nil, List.map_eq_flatMap,
      List.map_eq_flatMap (l := List.map _ _)]
  rw [tables]
  apply ReadsInTurn.bind (.foldlM labels _ scanLabel_reads)
  intro scannedNodes
  apply ReadsInTurn.bind (.foldlM _ _ scanEdgeType_reads)
  intro scannedEdges
  exact .ofExcept (.ok _)

/-! ### What a rebuild pins -/

/-- The scan of one table pins a snapshot for it. -/
theorem scan_pins {Row Scanned : Type}
    {latest : Client String TableState StorageError SnapshotId}
    {scan : SnapshotId →
      Client String TableState StorageError (List (Except StorageError Row))}
    {pinned : ExtTreeMap String SnapshotId compare} {table : String}
    {append : List Row → List Scanned} :
    (do
      let snapshot ← latest
      let stream ← scan snapshot
      let rows ← drain stream
      pure (pinned.insert table snapshot, append rows) :
        Client String TableState StorageError
          (ExtTreeMap String SnapshotId compare × List Scanned)).Always
      fun scanned => ∀ name, name ∈ scanned.1 ↔ name ∈ pinned ∨ table = name := by
  apply Client.Always.bind (Client.Always.trivial _)
  intro snapshot _
  apply Client.Always.bind (Client.Always.trivial _)
  intro stream _
  apply Client.Always.bind (Client.Always.trivial _)
  intro rows _
  apply Client.Always.pure
  intro name
  rw [ExtTreeMap.mem_insert, Std.compare_eq_iff_eq, or_comm]

/-- Scans that pin a snapshot each pin one for every table that they scan. -/
theorem scans_pin {Table Scanned : Type} {tableName : Table → String}
    {scan : ExtTreeMap String SnapshotId compare × List Scanned → Table →
      Client String TableState StorageError
      (ExtTreeMap String SnapshotId compare × List Scanned)}
    (one : ∀ acc table, (scan acc table).Always fun scanned =>
      ∀ name, name ∈ scanned.1 ↔ name ∈ acc.1 ∨ tableName table = name)
    (tables : List Table)
    (acc : ExtTreeMap String SnapshotId compare × List Scanned) :
    (tables.foldlM scan acc).Always fun scanned =>
      ∀ name, name ∈ scanned.1 ↔ name ∈ acc.1 ∨ name ∈ tables.map tableName := by
  induction tables generalizing acc with
  | nil => exact Client.Always.pure (by simp)
  | cons table rest inductionHypothesis =>
      rw [List.foldlM_cons]
      apply Client.Always.bind (one acc table)
      intro next pinned
      apply (inductionHypothesis next).imp
      intro scanned later name
      rw [later, pinned, List.map_cons, List.mem_cons, or_assoc, eq_comm (a := name)]

/-- The scan of the node tables pins each of them once. -/
theorem scanLabels_pin (labels : List Label)
    (acc : ExtTreeMap String SnapshotId compare × List (Label × NodeRow)) :
    (labels.foldlM (catalogReader.builder schema partitioning).scanLabel acc).Always
      fun scanned =>
      ∀ table, table ∈ scanned.1 ↔ table ∈ acc.1 ∨ table ∈ labels.map nodeTableName :=
  scans_pin (fun _ _ => scan_pins) labels acc

/-- The scan of the edge tables pins each of them once. -/
theorem scanEdgeTypes_pin (edgeDefs : List EdgeDef)
    (acc : ExtTreeMap String SnapshotId compare × List (EdgeType × EdgeRow)) :
    (edgeDefs.foldlM (catalogReader.builder schema partitioning).scanEdgeType
      acc).Always fun scanned =>
      ∀ table, table ∈ scanned.1 ↔
        table ∈ acc.1 ∨ table ∈ edgeDefs.map fun edgeDef =>
          edgeTableName edgeDef.edgeType :=
  scans_pin (fun _ _ => scan_pins) edgeDefs acc

/-- A rebuild pins a snapshot for each of its tables, and for no other. -/
theorem build_pins (partition : PartitionId) (labels : List Label) (builtAt : Int) :
    ((catalogReader.builder schema partitioning).build partition labels
      builtAt).Always fun generation =>
      ∀ table, table ∈ generation.genMeta.snapshotByTable ↔
        table ∈ tablesOf schema labels := by
  apply Client.Always.bind (scanLabels_pin labels (∅, []))
  intro scannedNodes nodePins
  apply Client.Always.bind (scanEdgeTypes_pin _ (scannedNodes.1, []))
  intro scannedEdges edgePins
  apply Client.Always.pure
  intro table
  rw [assemble, edgePins, nodePins, tablesOf, List.mem_append]
  simp

/-! ### What a rebuild lists -/

variable {homeOfNode : NodeId → String} {homeOfEdge : EdgeId → String}

/-- What is scanned under a label comes from its table. -/
theorem scanLabels_home (stored : catalogReader.StoredIn homeOfNode homeOfEdge)
    (labels : List Label) :
    (labels.foldlM (catalogReader.builder schema partitioning).scanLabel
      (∅, [])).Always fun scanned =>
      ∀ a ∈ scanned.2, a.1 ∈ labels ∧ homeOfNode a.2.id = nodeTableName a.1 := by
  apply scanLabels_from (P := fun label row => homeOfNode row.id = nodeTableName label)
  intro label nodeDef snapshot stream row _ scanned member
  exact stored.node _ _ _ _ _ scanned member

theorem scanEdgeTypes_home (stored : catalogReader.StoredIn homeOfNode homeOfEdge)
    (edgeDefs : List EdgeDef) (pinned : ExtTreeMap String SnapshotId compare) :
    (edgeDefs.foldlM (catalogReader.builder schema partitioning).scanEdgeType
      (pinned, [])).Always fun scanned =>
      ∀ a ∈ scanned.2, a.1 ∈ edgeDefs.map EdgeDef.edgeType ∧
        homeOfEdge a.2.id = edgeTableName a.1 := by
  apply scanEdgeTypes_from
    (P := fun edgeType row => homeOfEdge row.id = edgeTableName edgeType)
  intro edgeType edgeDef snapshot stream row _ scanned member
  exact stored.edge _ _ _ _ _ scanned member

end Rebuild

/-! ### Schemas whose names differ by more than case -/

section Accepted

variable {schema : Schema}

/-- The edge types declared are the keys of the map. -/
theorem edgeTypes_eq_keys (keyed : Keyed schema.nodes schema.edges) :
    (schema.edges.toList.map Prod.snd).map EdgeDef.edgeType = schema.edges.keys := by
  rw [← ExtTreeMap.map_fst_toList_eq_keys, List.map_map]
  apply List.map_congr_left
  intro entry listed
  exact keyed.edge entry.1 entry.2 (ExtTreeMap.mem_toList_iff_getElem?_eq_some.mp listed)

theorem tablesOf_eq (keyed : Keyed schema.nodes schema.edges) (labels : List Label) :
    tablesOf schema labels = labels.map nodeTableName ++
      schema.edges.keys.map edgeTableName := by
  rw [tablesOf, ← edgeTypes_eq_keys keyed, List.map_map (g := edgeTableName)]
  rfl

/-- The tables of a rebuild are those of the types declared. -/
theorem mem_tablesOf (keyed : Keyed schema.nodes schema.edges) {labels : List Label}
    (all : schema.AllLabels labels) {a : SchemaType} (declared : schema.Declares a) :
    a.tableName ∈ tablesOf schema labels := by
  rw [tablesOf_eq keyed]
  cases a with
  | node label =>
      exact List.mem_append_left _
        (List.mem_map_of_mem ((all.mem_iff label).mpr declared))
  | edge edgeType =>
      exact List.mem_append_right _
        (List.mem_map_of_mem (ExtTreeMap.mem_keys.mpr declared))

/-- A build reads a table for every label and every edge type. -/
theorem length_tablesOf (keyed : Keyed schema.nodes schema.edges) {labels : List Label}
    (all : schema.AllLabels labels) :
    (tablesOf schema labels).length = schema.nodes.size + schema.edges.size := by
  have sameLabels : labels.Perm schema.nodes.keys :=
    (List.perm_ext_iff_of_nodup all.nodup ExtTreeMap.nodup_keys).mpr fun label =>
      (all.mem_iff label).trans ExtTreeMap.mem_keys.symm
  rw [tablesOf_eq keyed, List.length_append, List.length_map, List.length_map,
    sameLabels.length_eq, ExtTreeMap.length_keys, ExtTreeMap.length_keys]

/-- Where names differ by more than case, types have tables of their own. -/
theorem DistinctIgnoringCase.injective (distinct : DistinctIgnoringCase schema)
    {a b : SchemaType} (declared : schema.Declares a)
    (declared' : schema.Declares b) (same : a.tableName = b.tableName) : a = b := by
  cases a with
  | node label =>
      cases b with
      | node label' =>
          rw [distinct.labels label declared label' declared' (nodeTableName_inj.mp same)]
      | edge edgeType => exact absurd same (nodeTableName_ne_edgeTableName label edgeType)
  | edge edgeType =>
      cases b with
      | node label =>
          exact absurd same.symm (nodeTableName_ne_edgeTableName label edgeType)
      | edge edgeType' =>
          rw [distinct.edgeTypes edgeType declared edgeType' declared'
            (edgeTableName_inj.mp same)]

/-- Where names differ by more than case, a rebuild asks for no table twice. -/
theorem DistinctIgnoringCase.nodup_tablesOf (distinct : DistinctIgnoringCase schema)
    (keyed : Keyed schema.nodes schema.edges) {labels : List Label}
    (all : schema.AllLabels labels) : (tablesOf schema labels).Nodup := by
  rw [tablesOf_eq keyed, List.nodup_append]
  refine ⟨?_, ?_, ?_⟩
  · apply all.nodup.map_on
    intro label listed label' listed' same
    exact distinct.labels label ((all.mem_iff label).mp listed) label'
      ((all.mem_iff label').mp listed')
      (nodeTableName_inj.mp same)
  · apply List.Nodup.map_on ?_ ExtTreeMap.nodup_keys
    intro edgeType listed edgeType' listed' same
    exact distinct.edgeTypes edgeType (ExtTreeMap.mem_keys.mp listed) edgeType'
      (ExtTreeMap.mem_keys.mp listed')
      (edgeTableName_inj.mp same)
  · intro table nodeTable table' edgeTable same
    obtain ⟨label, -, rfl⟩ := List.mem_map.mp nodeTable
    obtain ⟨edgeType, -, rfl⟩ := List.mem_map.mp edgeTable
    exact nodeTableName_ne_edgeTableName label edgeType same

/-- The types of an accepted schema have tables of their own exactly when their
names differ by more than case.  `parsed` makes the names ASCII, on which
lowering the case in Lean and in the source are one. -/
theorem tablesSeparate_iff {report : String → String} {source : String}
    (parsed : PestSchemaParser.parse report source = .ok (.ok schema)) :
    TablesSeparate schema ↔ DistinctIgnoringCase schema := by
  have keyed := SchemaParser.keyed_of_parse parsed
  constructor
  · intro separate
    constructor
    · intro label declared label' declared' same
      have equal := separate.injective (.node label) (.node label') declared declared'
        (nodeTableName_inj.mpr same)
      exact SchemaType.node.inj equal
    · intro edgeType declared edgeType' declared' same
      have equal :=
        separate.injective (.edge edgeType) (.edge edgeType') declared declared'
        (edgeTableName_inj.mpr same)
      exact SchemaType.edge.inj equal
  · intro distinct
    constructor
    case injective =>
      exact fun a b declared declared' same => distinct.injective declared declared' same
    case scansOnce =>
      intro labels all catalogReader partitioning partition builtAt catalog trace
        last outcome run
      obtain ⟨before, whole⟩ := run.reads (build_reads partition labels builtAt)
      constructor
      · exact (distinct.nodup_tablesOf keyed all).sublist before.sublist
      · intro succeeds a declared
        rw [whole succeeds]
        exact mem_tablesOf keyed all declared
    case pinned =>
      intro labels all catalogReader partitioning partition builtAt
      apply (build_pins partition labels builtAt).imp
      intro generation pins
      rw [size_eq_length (distinct.nodup_tablesOf keyed all) pins,
        length_tablesOf keyed all]
    case nodeRows =>
      intro labels all catalogReader homeOfNode homeOfEdge stored partitioning
      apply (scanLabels_home stored labels).imp
      intro scanned home a listed b listed' same
      obtain ⟨known, fromTable⟩ := home a listed
      obtain ⟨known', fromTable'⟩ := home b listed'
      rw [same] at fromTable
      exact distinct.labels a.1 ((all.mem_iff a.1).mp known) b.1
        ((all.mem_iff b.1).mp known')
        (nodeTableName_inj.mp (fromTable.symm.trans fromTable'))
    case edgeRows =>
      intro catalogReader homeOfNode homeOfEdge stored partitioning pinned
      apply (scanEdgeTypes_home stored _ pinned).imp
      intro scanned home a listed b listed' same
      obtain ⟨known, fromTable⟩ := home a listed
      obtain ⟨known', fromTable'⟩ := home b listed'
      rw [edgeTypes_eq_keys keyed, ExtTreeMap.mem_keys] at known known'
      rw [same] at fromTable
      exact distinct.edgeTypes a.1 known b.1 known'
        (edgeTableName_inj.mp (fromTable.symm.trans fromTable'))

end Accepted

/-! ### Two schemas -/

/-- `node Person`, `node Company`. -/
def personsAndCompanies : String :=
  "schema graph_v1 \x7b node Person \x7b id: NodeId \x7d " ++
    "node Company \x7b id: NodeId \x7d \x7d"

/-- Persons and companies have a table each. -/
theorem personsAndCompanies_separate : ∃ schema,
    PestSchemaParser.parse (fun _ => "") personsAndCompanies = .ok (.ok schema) ∧
      TablesSeparate schema := by
  have passed : schemaParsesTo
      (fun schema => decide (schema.nodes.keys = [Social.company, Social.person]) &&
      decide (schema.edges.keys = [])) personsAndCompanies = true := by decide +kernel
  obtain ⟨schema, parsed, tested⟩ := exists_of_schemaParsesTo passed
  rw [Bool.and_eq_true, decide_eq_true_eq, decide_eq_true_eq] at tested
  refine ⟨schema, parsed, (tablesSeparate_iff parsed).mpr ⟨?_, ?_⟩⟩
  · intro label declared label' declared'
    rw [← ExtTreeMap.mem_keys, tested.1] at declared declared'
    have distinct : ∀ a ∈ [Social.company, Social.person],
        ∀ b ∈ [Social.company, Social.person],
        a.name.toList.map Char.toLower = b.name.toList.map Char.toLower → a = b := by
          decide
    rw [toLower_eq_iff]
    exact distinct label declared label' declared'
  · intro edgeType declared
    rw [← ExtTreeMap.mem_keys, tested.2] at declared
    cases declared

/-- `node Person`, `node PERSON`. -/
def personsTwice : String :=
  "schema graph_v1 \x7b node Person \x7b id: NodeId \x7d " ++
    "node PERSON \x7b id: NodeId \x7d \x7d"

/-- The parser accepts two labels that differ in case only, and they share a
table. -/
theorem personsTwice_shared : ∃ schema,
    PestSchemaParser.parse (fun _ => "") personsTwice = .ok (.ok schema) ∧
      ¬ TablesSeparate schema := by
  have passed : schemaParsesTo (fun schema =>
      decide (schema.nodes.keys = [⟨"PERSON"⟩, Social.person])) personsTwice =
      true := by decide +kernel
  obtain ⟨schema, parsed, tested⟩ := exists_of_schemaParsesTo passed
  rw [decide_eq_true_eq] at tested
  refine ⟨schema, parsed, fun separate => ?_⟩
  have declared : ⟨"PERSON"⟩ ∈ schema.nodes := by
    rw [← ExtTreeMap.mem_keys, tested]
    exact List.mem_cons_self
  have declared' : Social.person ∈ schema.nodes := by
    rw [← ExtTreeMap.mem_keys, tested]
    exact List.mem_cons_of_mem _ List.mem_cons_self
  have sameTable : nodeTableName ⟨"PERSON"⟩ = nodeTableName Social.person :=
    nodeTableName_inj.mpr (toLower_eq_iff.mpr (by decide))
  have same := SchemaType.node.inj
    (separate.injective (.node _) (.node _) declared declared' sameTable)
  exact absurd (congrArg Label.name same) (by decide)

end GraphEngine
