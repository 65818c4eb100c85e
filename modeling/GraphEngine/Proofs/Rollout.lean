/-
Module: GraphEngine.Proofs.Rollout
Layer: Proofs
Purpose: A compatible schema change while queries run.  Partitions take up the
  new version one after the other, and so do coordinators; as long as no index
  is added to a property or dropped from it, no query of the old version can
  tell.
Trusted boundary: the tables that the storage backend hands out under the new
  version are the old ones, with nulls for the properties that are new
Main exports: IndexesKept, Dataset.WellScanned, Dataset.readUnder, MidRollout,
  sameService_of_built, executeQuery_rollout
-/
import GraphEngine.Proofs.Answers
import GraphEngine.Proofs.CompatibleQueries
import GraphEngine.Proofs.Evolution

namespace GraphEngine

open Std (ExtTreeMap)
open SpecSchemaEvolution
open GraphServiceImpl

/-! ### Tables under another version -/

/-- How many declarations of a property ask for an index. -/
def indexedTimes (properties : List PropertyDef) (name : String) : Nat :=
  properties.countP fun prop => prop.indexed && decide (prop.name = name)

/-- The new version indexes every property of the old one as the old one did. -/
def IndexesKept (fromSchema toSchema : Schema) : Prop :=
  ∀ label fromNode toNode, fromSchema.nodeDef label = some fromNode →
    toSchema.nodeDef label = some toNode →
    ∀ name, Declared fromNode.properties name →
      indexedTimes fromNode.properties name = indexedTimes toNode.properties name

/-- Every edge type is declared under its own name. -/
def Schema.EdgesNamed (schema : Schema) : Prop :=
  ∀ edgeType edge, schema.edgeDef edgeType = some edge → edge.edgeType = edgeType

namespace Dataset

/-- What the reader hands out to a partition node: the tables of all labels, and
rows with declared properties only. -/
structure WellScanned (dataset : Dataset) : Prop where
  labels : dataset.labels = dataset.schema.nodes.keys
  edgesNamed : dataset.schema.EdgesNamed
  node : ∀ node ∈ dataset.nodes, ∀ name ∈ node.2.properties,
    Declared (dataset.schema.nodeProperties node.1) name
  edge : ∀ edge ∈ dataset.edges, ∀ name ∈ edge.2.properties,
    Declared (dataset.schema.edgeProperties edge.1) name

/-- The same tables under another version: what it adds to a table reads as
null, and the tables that it adds are empty. -/
def readUnder (dataset : Dataset) (toSchema : Schema) : Dataset where
  schema := toSchema
  labels := toSchema.nodes.keys
  nodeRows label :=
    if label ∈ dataset.schema.nodes then
      (dataset.nodeRows label).map fun row =>
        (readNode dataset.schema toSchema (label, row)).2
    else []
  edgeRows edgeType :=
    if edgeType ∈ dataset.schema.edges then
      (dataset.edgeRows edgeType).map fun row =>
        (readEdge dataset.schema toSchema (edgeType, row)).2
    else []
  snapshot := dataset.snapshot

end Dataset

/-- At every moment every replica that would be asked serves a build of the
tables under the old version or under the new one.  Replicas may change over at
different moments, back again as well, and a build may be swapped for another of
the same version at any time. -/
def MidRollout (dataset : Dataset) (toSchema : Schema) (hasher : Partitioning)
    (surroundings : Surroundings) (serve : Nat → GenerationHandle → IndexGeneration) :
    Prop :=
  ∀ partitions, surroundings.currentMap = .ok partitions → ∀ time p generation,
    servingOf partitions (serve time) p = some generation →
      dataset.Built hasher p generation ∨
        (dataset.readUnder toSchema).Built hasher p generation

/-! ### The rows read -/

/-- What is read of the tables that are there is what the tables hold, read. -/
theorem flatMap_readTables {α β : Type} (l : List α) (there : α → Prop)
    [DecidablePred there] (rows : α → List β) (read : α × β → α × β)
    (tagged : ∀ entry, (read entry).1 = entry.1) :
    (l.flatMap fun a => (if there a then (rows a).map fun row => (read (a, row)).2
        else []).map fun row => (a, row)) =
      ((l.filter fun a => decide (there a)).flatMap fun a => (rows a).map fun row =>
        (a, row)).map read := by
  have whole (a : α) (row : β) : (a, (read (a, row)).2) = read (a, row) :=
    Prod.ext (tagged (a, row)).symm rfl
  induction l with
  | nil => rfl
  | cons a rest inductionHypothesis =>
      rw [List.flatMap_cons, inductionHypothesis, List.filter_cons]
      by_cases present : there a
      · rw [if_pos present, if_pos (decide_eq_true present), List.flatMap_cons,
          List.map_append, List.map_map, List.map_map]
        simp only [Function.comp_def, whole]
      · rw [if_neg present, if_neg (by simpa using present), List.map_nil,
          List.nil_append]

/-- The edge rows, table by table. -/
theorem edges_eq_keys {dataset : Dataset} (named : dataset.schema.EdgesNamed) :
    dataset.edges = dataset.schema.edges.keys.flatMap fun edgeType =>
      (dataset.edgeRows edgeType).map fun row => (edgeType, row) := by
  rw [Dataset.edges, ← Std.ExtTreeMap.map_fst_toList_eq_keys, List.flatMap_map]
  apply List.flatMap_congr
  intro entry listed
  rw [named entry.1 entry.2 (Std.ExtTreeMap.mem_toList_iff_getElem?_eq_some.mp listed)]

section Reading

variable {dataset : Dataset} {toSchema : Schema} (scanned : dataset.WellScanned)
variable (compatible : diff dataset.schema toSchema = .compatible)

include scanned compatible

theorem nodes_readUnder :
    (dataset.readUnder toSchema).nodes =
      dataset.nodes.map (readNode dataset.schema toSchema) := by
  have kept (label : Label) (member : label ∈ dataset.schema.nodes) :
      label ∈ toSchema.nodes := by
    rw [Std.ExtTreeMap.mem_iff_isSome_getElem?] at member ⊢
    exact SchemaValidator.nodeDef_isSome_of_compatible compatible member
  rw [Dataset.nodes, Dataset.nodes, scanned.labels, Dataset.readUnder]
  dsimp only
  rw [flatMap_readTables _ _ _ (readNode dataset.schema toSchema) fun _ => rfl,
    filter_keys kept]

theorem edges_readUnder (named : toSchema.EdgesNamed) :
    (dataset.readUnder toSchema).edges =
      dataset.edges.map (readEdge dataset.schema toSchema) := by
  have kept (edgeType : EdgeType) (member : edgeType ∈ dataset.schema.edges) :
      edgeType ∈ toSchema.edges := by
    rw [Std.ExtTreeMap.mem_iff_isSome_getElem?] at member ⊢
    exact SchemaValidator.edgeDef_isSome_of_compatible compatible member
  have named' : (dataset.readUnder toSchema).schema.EdgesNamed := named
  rw [edges_eq_keys named', edges_eq_keys scanned.edgesNamed, Dataset.readUnder]
  dsimp only
  rw [flatMap_readTables _ _ _ (readEdge dataset.schema toSchema) fun _ => rfl,
    filter_keys kept]

end Reading

/-- Nulls for new properties change nothing about the old ones. -/
theorem sameValues_withNulls {fromProperties toProperties : List PropertyDef}
    {properties : Properties}
    (declared : ∀ name ∈ properties, Declared fromProperties name) :
    SameValues properties (withNulls fromProperties toProperties properties) := by
  intro name value concrete
  rw [getElem?_withNulls]
  split
  case isTrue new =>
      constructor
      · intro stored
        have member : name ∈ properties :=
          Std.ExtTreeMap.mem_iff_isSome_getElem?.mpr (Option.isSome_of_eq_some stored)
        exact absurd (declared name member) new.2
      · intro null
        exact absurd (Option.some.inj null).symm concrete
  case isFalse => exact Iff.rfl

/-! ### The property index -/

/-- The entries that a list of declarations makes in one slot of a label: the
key of the property, once for each declaration that asks for an index. -/
theorem filter_entries (label : String) (properties : Properties)
    (declared : List PropertyDef) (slot : String × String) :
    (((declared.filter fun prop => prop.indexed).filterMap fun prop =>
        ((properties[prop.name]?).bind propertyKey).map fun key =>
          ((label, prop.name), key)).filter
          fun entry => decide (entry.1 = slot)) =
      if slot.1 = label then
        ((properties[slot.2]?).bind propertyKey).toList.flatMap fun key =>
          List.replicate (indexedTimes declared slot.2) (slot, key)
      else [] := by
  obtain ⟨owner, name⟩ := slot
  induction declared with
  | nil =>
      split
      · simp [indexedTimes]
      · rfl
  | cons prop rest inductionHypothesis =>
      rw [List.filter_cons]
      by_cases indexed : prop.indexed = true
      · rw [if_pos indexed, List.filterMap_cons]
        have counted : indexedTimes (prop :: rest) name =
            indexedTimes rest name + if prop.name = name then 1 else 0 := by
          rw [indexedTimes, List.countP_cons, indexed, Bool.true_and]
          simp only [decide_eq_true_eq]
          rfl
        cases found : (properties[prop.name]?).bind propertyKey with
        | none =>
            rw [Option.map_none, inductionHypothesis]
            by_cases named : prop.name = name
            · subst named
              simp [found]
            · simp only [counted, if_neg named, Nat.add_zero]
        | some key =>
            rw [Option.map_some, List.filter_cons, inductionHypothesis]
            by_cases here : owner = label
            · subst here
              by_cases named : prop.name = name
              · subst named
                simp [found, counted, List.replicate_succ]
              · simp [named, counted]
            · simp [here, Ne.symm here]
      · rw [if_neg indexed, inductionHypothesis]
        rw [Bool.not_eq_true] at indexed
        have counted : indexedTimes (prop :: rest) name = indexedTimes rest name := by
          rw [indexedTimes, List.countP_cons, indexed]
          rfl
        rw [counted]

/-- An index is filled slot by slot. -/
theorem getElem?_indexNode
    (byKey : ExtTreeMap (String × String)
      (ExtTreeMap PropertyKey (List NodeId) compare) compare)
    (entries : List ((String × String) × PropertyKey)) (id : NodeId)
    (slot : String × String) :
    (entries.foldl
      (fun byKey entry => indexEntry byKey entry.1 entry.2 id) byKey)[slot]? =
      (entries.filter fun entry => decide (entry.1 = slot)).foldl
        (fun tree entry => some (pushGroup (tree.getD ∅) entry.2 id)) byKey[slot]? :=
  getElem?_foldl_alter (fun entry : (String × String) × PropertyKey => entry.1)
    (fun entry tree => some (pushGroup (tree.getD ∅) entry.2 id)) entries byKey slot

/-- Rows with the same ids and the same entries in every slot have the same
index. -/
theorem buildPropertyIndex_congr {schema schema' : Schema}
    {nodes : List (Label × NodeRow)} {read : Label × NodeRow → Label × NodeRow}
    (ids : ∀ node, (read node).2.id = node.2.id)
    (entries : ∀ node ∈ nodes, ∀ slot,
      ((indexedKeys schema node).filter fun entry => decide (entry.1 = slot)) =
      (indexedKeys schema' (read node)).filter fun entry => decide (entry.1 = slot)) :
    buildPropertyIndex schema nodes = buildPropertyIndex schema' (nodes.map read) := by
  rw [buildPropertyIndex, buildPropertyIndex, PropertyIndex.mk.injEq]
  induction nodes using List.reverseRecOn with
  | nil => rfl
  | append_singleton nodes node inductionHypothesis =>
      have earlier := inductionHypothesis fun other member =>
        entries other (List.mem_append_left _ member)
      rw [List.map_append, List.foldl_append, List.foldl_append, ← earlier,
        List.map_singleton, List.foldl_cons, List.foldl_nil, List.foldl_cons,
        List.foldl_nil, ids]
      apply Std.ExtTreeMap.ext_getElem?
      intro slot
      rw [getElem?_indexNode, getElem?_indexNode,
        entries node (List.mem_append_right _ List.mem_cons_self)]

/-! ### Generations of the two versions -/

section Versions

variable (fromSchema toSchema : Schema)

theorem ids_read (nodes : List (Label × NodeRow)) :
    (nodes.map (readNode fromSchema toSchema)).map (fun node => node.2.id) = nodes.map
      fun node => node.2.id := by
  rw [List.map_map]
  rfl

theorem buildCsr_read (partition : PartitionId) (nodeIds : List NodeId)
    (idToLocal : ExtTreeMap NodeId LocalIdx compare)
    (edges : List (EdgeType × EdgeRow)) (outgoing : Bool)
    (partitioning : Partitioning) :
    buildCsr partition nodeIds idToLocal
      (edges.map (readEdge fromSchema toSchema)) outgoing partitioning =
      buildCsr partition nodeIds idToLocal edges outgoing partitioning := by
  rw [buildCsr, buildCsr, fillRows, fillRows, List.foldl_map]
  rfl

/-- The adjacency has no properties in it. -/
theorem buildTopology_read (partition : PartitionId)
    (nodes : List (Label × NodeRow)) (edges : List (EdgeType × EdgeRow))
    (partitioning : Partitioning) :
    buildTopology partition (nodes.map (readNode fromSchema toSchema))
      (edges.map (readEdge fromSchema toSchema))
      partitioning = buildTopology partition nodes edges partitioning := by
  simp only [buildTopology, ids_read, buildCsr_read]

end Versions

section Generations

variable {dataset : Dataset} {toSchema : Schema} (scanned : dataset.WellScanned)
variable (compatible : diff dataset.schema toSchema = .compatible)
variable (kept : IndexesKept dataset.schema toSchema)

include scanned in
theorem sameValues_readNode {node : Label × NodeRow} (member : node ∈ dataset.nodes) :
    SameValues node.2.properties (readNode dataset.schema toSchema node).2.properties :=
  sameValues_withNulls (scanned.node node member)

include scanned in
theorem sameValues_readEdge {edge : EdgeType × EdgeRow} (member : edge ∈ dataset.edges) :
    SameValues edge.2.properties (readEdge dataset.schema toSchema edge).2.properties :=
  sameValues_withNulls (scanned.edge edge member)

/-- The label of a node row is declared. -/
theorem Dataset.WellScanned.nodeDef {dataset : Dataset}
    (scanned : dataset.WellScanned) {node : Label × NodeRow}
    (member : node ∈ dataset.nodes) :
    ∃ nodeDef, dataset.schema.nodeDef node.1 = some nodeDef := by
  rw [Dataset.nodes, List.mem_flatMap] at member
  obtain ⟨label, listed, row⟩ := member
  obtain ⟨_, -, rfl⟩ := List.mem_map.mp row
  rw [scanned.labels, Std.ExtTreeMap.mem_keys] at listed
  exact Option.isSome_iff_exists.mp (Std.ExtTreeMap.mem_iff_isSome_getElem?.mp listed)

include scanned compatible kept

/-- A row is indexed under both versions alike: a property that is new reads as
null, and null has no key. -/
theorem filter_indexedKeys_read {node : Label × NodeRow}
    (member : node ∈ dataset.nodes) (slot : String × String) :
    ((indexedKeys dataset.schema node).filter fun entry => decide (entry.1 = slot)) =
      (indexedKeys toSchema (readNode dataset.schema toSchema node)).filter
        fun entry => decide (entry.1 = slot) := by
  obtain ⟨fromNode, declared⟩ := scanned.nodeDef member
  obtain ⟨toNode, found, -⟩ := node_of_compatible compatible declared
  have sameLabel : (readNode dataset.schema toSchema node).1 = node.1 := rfl
  have values : (node.2.properties[slot.2]?).bind propertyKey =
      ((readNode dataset.schema toSchema node).2.properties[slot.2]?).bind propertyKey :=
    (sameValues_readNode scanned member).bind_eq rfl slot.2
  rw [indexedKeys, indexedKeys, sameLabel, declared, found]
  dsimp only
  rw [filter_entries, filter_entries, ← values]
  cases keyed : (node.2.properties[slot.2]?).bind propertyKey with
  | none => rfl
  | some key =>
      have stored : slot.2 ∈ node.2.properties := by
        apply Std.ExtTreeMap.mem_iff_isSome_getElem?.mpr
        obtain ⟨value, found, -⟩ := Option.bind_eq_some_iff.mp keyed
        exact Option.isSome_of_eq_some found
      have inOld := scanned.node node member slot.2 stored
      rw [Schema.nodeProperties, declared] at inOld
      rw [kept node.1 fromNode toNode declared found slot.2 inOld]

/-- No call can tell a generation of the new version from one of the old. -/
theorem sameService_readUnder (named : toSchema.EdgesNamed)
    (partitioning : Partitioning) (partition : PartitionId) (builtAt builtAt' : Int) :
    SameService (dataset.generation partitioning partition builtAt)
      ((dataset.readUnder toSchema).generation partitioning partition builtAt') := by
  have owned : (dataset.readUnder toSchema).nodes.filter
      (fun node => partitioning.partitionOf node.2.id = partition.val) =
        (dataset.nodes.filter fun node =>
          partitioning.partitionOf node.2.id = partition.val).map
          (readNode dataset.schema toSchema) := by
    rw [nodes_readUnder scanned compatible, List.filter_map]
    rfl
  have edges := edges_readUnder scanned compatible named
  constructor
  case topology =>
      rw [Dataset.generation, Dataset.generation, assemble, assemble]
      dsimp only
      rw [owned, edges, buildTopology_read]
  case properties =>
      rw [Dataset.generation, Dataset.generation, assemble, assemble]
      dsimp only
      rw [owned]
      apply buildPropertyIndex_congr
      · exact fun _ => rfl
      · intro node member slot
        exact filter_indexedKeys_read scanned compatible kept
          (List.mem_of_mem_filter member) slot
  case nodeRecord =>
      intro v
      rw [Dataset.generation, Dataset.generation, assemble, assemble]
      dsimp only
      rw [owned, List.map_map]
      apply collectMap_rel
      intro node member
      exact ⟨rfl, sameValues_readNode scanned (List.mem_of_mem_filter member)⟩
  case edgeRecord =>
      intro e
      rw [Dataset.generation, Dataset.generation, assemble, assemble]
      dsimp only
      rw [edges, List.filter_map, List.map_map]
      apply collectMap_rel
      intro edge member
      exact ⟨rfl, sameValues_readEdge scanned (List.mem_of_mem_filter member)⟩

/-- Whichever of the two versions two generations of a partition were built
under, no call can tell them apart. -/
theorem sameService_of_built (named : toSchema.EdgesNamed)
    {partitioning : Partitioning} {partition : PartitionId}
    {generation generation' : IndexGeneration}
    (built : dataset.Built partitioning partition generation ∨
      (dataset.readUnder toSchema).Built partitioning partition generation)
    (built' : dataset.Built partitioning partition generation' ∨
      (dataset.readUnder toSchema).Built partitioning partition generation') :
    SameService generation generation' := by
  have toOld {other : IndexGeneration}
      (isBuilt : dataset.Built partitioning partition other ∨
      (dataset.readUnder toSchema).Built partitioning partition other) :
      SameService (dataset.generation partitioning partition 0) other := by
    rcases isBuilt with old | new
    · obtain ⟨builtAt, rfl⟩ := built_iff.mp old
      exact .ofMeta _ _
    · obtain ⟨builtAt, rfl⟩ := built_iff.mp new
      exact sameService_readUnder scanned compatible kept named partitioning
        partition 0 builtAt
  exact (toOld built).symm.trans (toOld built')

end Generations

/-! ### Queries while the change rolls out -/

/-- A coordinator looks into its schema to validate a query, and for nothing
else. -/
theorem executeQuery_schema_congr [Chrono] {schema schema' : Schema}
    {executor : ScatterGatherExecutor} {surroundings : Surroundings} {dsl : String}
    (accepted : ∀ query, PestParser.parse surroundings.report dsl =
      .ok (.ok query) → SchemaValidator.validate query schema = .ok () ∧
      SchemaValidator.validate query schema' = .ok ()) :
    executeQuery ⟨schema, executor⟩ surroundings dsl =
      executeQuery ⟨schema', executor⟩ surroundings dsl := by
  simp only [executeQuery]
  cases parsed : PestParser.parse surroundings.report dsl with
  | error message => rfl
  | ok outcome =>
      cases outcome with
      | error e => rfl
      | ok query =>
          obtain ⟨old, new⟩ := accepted query parsed
          -- what is parsed is handed on; the validation comes next
          change (Client.ofExcept
            (Except.mapError _ (SchemaValidator.validate query schema)) >>= _) =
            (Client.ofExcept
              (Except.mapError _ (SchemaValidator.validate query schema')) >>= _)
          rw [old, new]
          rfl

/-- A compatible change that keeps the indexes can be rolled out while queries
run: whichever replicas have taken up the new version at which moments, and
whichever of the two a coordinator has, a query that is accepted under the old
version ends in the same way, with the same rows in the same order or with the
same fault.

* `scanned`: the tables hand out the rows of all declared labels and edge types,
  with declared properties only;
* `named`: in the new schema edge types are declared under their own names, as
  the parser sees to;
* `compatible`, `kept`: the change is classified as compatible, and a property
  that the old schema has keeps its index.

At the new version the tables of new labels and edge types are empty, and new
properties of old ones are null. -/
theorem executeQuery_rollout [Chrono] {dataset : Dataset} {toSchema : Schema}
    (scanned : dataset.WellScanned) (named : toSchema.EdgesNamed)
    (compatible : diff dataset.schema toSchema = .compatible)
    (kept : IndexesKept dataset.schema toSchema) {hasher : Partitioning}
    {surroundings : Surroundings}
    {serve serve' : Nat → GenerationHandle → IndexGeneration}
    (rolling : MidRollout dataset toSchema hasher surroundings serve)
    (rolling' : MidRollout dataset toSchema hasher surroundings serve')
    {dsl : String}
    (accepted : ∀ query, PestParser.parse surroundings.report dsl =
      .ok (.ok query) → SchemaValidator.validate query dataset.schema = .ok ())
    (transport : Transport) (order : Nat → (size : Nat) → Equiv.Perm (Fin size))
    (time : Nat) :
    (executeQuery ⟨dataset.schema, overGrpc transport hasher⟩ surroundings dsl).run
      serve order time =
      (executeQuery ⟨toSchema, overGrpc transport hasher⟩ surroundings dsl).run serve'
        order time := by
  have alike : executeQuery ⟨dataset.schema, overGrpc transport hasher⟩ surroundings dsl =
      executeQuery ⟨toSchema, overGrpc transport hasher⟩ surroundings dsl := by
    apply executeQuery_schema_congr
    intro query parsed
    have old := SchemaValidator.validate_eq_ok_iff.mp (accepted query parsed)
    exact ⟨accepted query parsed, SchemaValidator.validate_eq_ok_iff.mpr
      (SchemaValidator.violations_of_compatible compatible old)⟩
  rw [alike]
  apply executeQuery_run_congr
  rintro partitions isMap time _ ⟨partition, replica, picked, rfl⟩
  exact sameService_of_built scanned compatible kept named
    (rolling partitions isMap time partition _ (congrArg (Option.map _) picked))
    (rolling' partitions isMap time partition _ (congrArg (Option.map _) picked))

/-! ### A second version of the social graph -/

/-- Tables that conform are well scanned. -/
theorem Dataset.Conforms.wellScanned {dataset : Dataset}
    (conforms : dataset.Conforms)
    (labels : dataset.labels = dataset.schema.nodes.keys)
    (named : dataset.schema.EdgesNamed) : dataset.WellScanned where
  labels := labels
  edgesNamed := named
  node := by
    intro node member name stored
    obtain ⟨nodeDef, declared, conform⟩ := conforms.node node member
    obtain ⟨value, found⟩ :=
      Option.isSome_iff_exists.mp (Std.ExtTreeMap.mem_iff_isSome_getElem?.mp stored)
    rw [Schema.nodeProperties, declared]
    exact declared_of_storable (conform.typed name value found)
  edge := by
    intro edge member name stored
    obtain ⟨edgeDef, declared, conform, -⟩ := conforms.edge edge member
    obtain ⟨value, found⟩ :=
      Option.isSome_iff_exists.mp (Std.ExtTreeMap.mem_iff_isSome_getElem?.mp stored)
    rw [Schema.edgeProperties, declared]
    exact declared_of_storable (conform.typed name value found)

/-- A table of edge declarations that files each under its own name. -/
theorem edgesNamed_of_collectMap {schema : Schema}
    {entries : List (EdgeType × EdgeDef)}
    (table : schema.edges = collectMap entries)
    (named : ∀ entry ∈ entries, entry.2.edgeType = entry.1) : schema.EdgesNamed := by
  intro edgeType edge declared
  rw [Schema.edgeDef, table] at declared
  exact named _ (mem_of_getElem?_collectMap declared)

namespace Social

def city : Label := { name := "City" }
def livesIn : EdgeType := { name := "LIVES_IN" }

/-- People get nicknames, and cities to live in: an optional property that is
new, a new label and a new edge type. -/
def nextSchema : Schema where
  version := "2"
  nodes := collectMap
    [(city, { label := city, properties := [] }),
     (company, { label := company, properties := [] }),
     (person,
      { label := person
        properties := [{ name := "name", ty := .string, optional := false,
                         indexed := true }, Persons.nickname] })]
  edges := collectMap
    [(knows,
      { edgeType := knows, source := person, target := person
        properties :=
          [{ name := "via", ty := .string, optional := true, indexed := false }] }),
     (livesIn,
       { edgeType := livesIn, source := person, target := city, properties := [] }),
     (worksAt, { edgeType := worksAt, source := person, target := company,
                 properties := [] })]

theorem edgesNamed : schema.EdgesNamed :=
  edgesNamed_of_collectMap rfl (by decide)

theorem nextSchema_edgesNamed : nextSchema.EdgesNamed :=
  edgesNamed_of_collectMap rfl (by decide)

theorem indexesKept : IndexesKept schema nextSchema := by
  intro label fromNode toNode declared found name inOld
  have member := mem_of_getElem?_collectMap declared
  simp only [List.mem_cons, Prod.mk.injEq, List.not_mem_nil, or_false] at member
  rcases member with ⟨rfl, rfl⟩ | ⟨rfl, rfl⟩
  · obtain ⟨prop, ⟨⟩, -⟩ := inOld
  · obtain ⟨prop, isName, rfl⟩ := inOld
    rw [List.mem_singleton.mp isName]
    have next : nextSchema.nodeDef person = some
        { label := person
          properties :=
            [{ name := "name", ty := .string, optional := false, indexed := true },
            Persons.nickname] } :=
      rfl
    rw [next] at found
    cases found
    rfl

/-- Both replicas take up the new version before the third read. -/
def rolling (time : Nat) : GenerationHandle → IndexGeneration :=
  if time < 2 then dataset.deployed byParity
    else (dataset.readUnder nextSchema).deployed byParity

theorem midRollout_rolling :
    MidRollout dataset nextSchema byParity surroundings rolling := by
  intro partitions isMap time p generation serving
  cases isMap
  rw [rolling] at serving
  split at serving
  · exact .inl (served_deployment dataset byParity p generation serving)
  · exact .inr
      (served_deployment (dataset.readUnder nextSchema) byParity p generation serving)

theorem midRollout_old :
    MidRollout dataset nextSchema byParity surroundings fun _ =>
      dataset.deployed byParity := by
  intro partitions isMap time p generation serving
  cases isMap
  exact .inl (served_deployment dataset byParity p generation serving)

end Social

section

open scoped Social

/-- The acquaintances stay the same while nicknames and cities come in. -/
theorem acquaintances_rollout :
    (executeQuery
      ⟨Social.schema, overGrpc lanTransport Social.byParity⟩ Social.surroundings
      Social.acquaintancesText).run
        (fun _ => Social.dataset.deployed Social.byParity) Social.inOrder 0 =
    (executeQuery
      ⟨Social.nextSchema, overGrpc lanTransport Social.byParity⟩ Social.surroundings
      Social.acquaintancesText).run Social.rolling Social.inOrder 0 := by
  have passed : parsesTo
      (fun query => decide (SchemaValidator.validate query Social.schema = .ok ()))
      Social.acquaintancesText = true := by
    decide +kernel
  obtain ⟨query, parsed, tested⟩ := exists_of_parsesTo passed
  apply executeQuery_rollout
    (Social.conforms.wellScanned rfl Social.edgesNamed) Social.nextSchema_edgesNamed
    (by decide +kernel) Social.indexesKept Social.midRollout_old Social.midRollout_rolling
  intro other otherParsed
  have same := parsed.symm.trans otherParsed
  cases same
  exact of_decide_eq_true tested

end

end GraphEngine
