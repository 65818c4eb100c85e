/-
Module: GraphEngine.Proofs.Answers
Layer: Proofs
Purpose: The query service over the network computes what the tables answer:
  every result set is one row for each binding that the plan denotes, whatever
  the partitioning, the enumeration orders and the generations built, and every
  failure has one of the reasons listed.
Trusted boundary: the framework loses a call or delivers it, and the length
  prefix of a message limits a frontier
Main exports: QueryFault.Explained, executeQuery_answers,
  executeQuery_explained, executeQuery_portable
-/
import GraphEngine.Proofs.AliasSafety
import GraphEngine.Proofs.ConcreteSyntax
import GraphEngine.Proofs.Homogeneity
import GraphEngine.Proofs.OrderBy
import GraphEngine.Proofs.Placement
import GraphEngine.Proofs.QueryReads
import GraphEngine.Proofs.Respelling
import GraphEngine.Proofs.Merging
import GraphEngine.Spec.Answers

namespace GraphEngine

open Std (ExtTreeMap ExtTreeSet)
open Client (ReadsWithin)
open GraphServiceImpl
open GrpcPartitionRpc (receivedNode receivedEdge)
open ScatterGatherExecutor (isEdge)

/-! ### Records on the wire -/

/-- What the coordinator sends on is what it would have sent of the stored
value. -/
theorem propertyValueToProto_onWire (value : PropertyValue) :
    (onWire value).bind GraphServiceImpl.propertyValueToProto =
      GraphServiceImpl.propertyValueToProto value := by
  cases value <;> rfl

/-- What is left on the wire are the values that have a variant there. -/
theorem bind_onWire (stored : Option PropertyValue) :
    stored.bind onWire = stored.filter fun value =>
      (GraphServiceImpl.propertyValueToProto value).isSome := by
  cases stored with
  | none => rfl
  | some value => cases value <;> rfl

/-- The values that arrive are those that can be sent, unchanged. -/
theorem fields_received (properties : Properties) :
    ((properties.filterMap fun _ value =>
        PartitionServiceImpl.propertyValueToProto value).filterMap
      fun _ value => GrpcPartitionRpc.protoValueToPropertyValue value).filterMap
        (fun _ value => GraphServiceImpl.propertyValueToProto value) =
      properties.filterMap fun _ value =>
        GraphServiceImpl.propertyValueToProto value := by
  apply Std.ExtTreeMap.ext_getElem?
  intro name
  rw [Std.ExtTreeMap.getElem?_filterMap', getElem?_decodedFields,
    Std.ExtTreeMap.getElem?_filterMap', Option.bind_assoc]
  congr 1
  funext value
  exact propertyValueToProto_onWire value

/-- A node's record is sent on to the client as the partition would have sent
it. -/
theorem nodeRecordToProto_received (record : NodeRecord) :
    GraphServiceImpl.nodeRecordToProto (receivedNode record) =
      GraphServiceImpl.nodeRecordToProto record :=
  congrArg (NodeProperties.mk record.label.name) (fields_received record.properties)

/-- An edge's record is sent on to the client as the partition would have sent
it. -/
theorem edgeRecordToProto_received (record : EdgeRecord) :
    GraphServiceImpl.edgeRecordToProto (receivedEdge record) =
      GraphServiceImpl.edgeRecordToProto record :=
  congrArg (EdgeProperties.mk record.edgeType.name) (fields_received record.properties)

/-! ### Records in the tables -/

/-- Where ids are unique the first row of a node is its only one. -/
theorem findNode_iff {dataset : Dataset} (unique : dataset.UniqueNodeIds)
    {v : NodeId} {record : NodeRecord} :
    dataset.findNode v = some record ↔ dataset.view.nodeRecord v record := by
  rw [Dataset.findNode, Option.map_eq_some_iff]
  refine exists_congr fun node => ?_
  rw [find?_key_iff unique, and_assoc, eq_comm (b := record)]

/-- Where ids are unique the first row of an edge is its only one. -/
theorem findEdge_iff {dataset : Dataset} (unique : dataset.UniqueEdgeIds)
    {e : EdgeId} {record : EdgeRecord} :
    dataset.findEdge e = some record ↔ dataset.view.edgeRecord e record := by
  rw [Dataset.findEdge, Option.map_eq_some_iff]
  refine exists_congr fun edge => ?_
  rw [find?_key_iff unique, and_assoc, eq_comm (b := record)]

/-! ### Hydrated aliases -/

/-- The aliases that are projected or sorted by. -/
def askedAliases (project : List ReturnItem) (orderBy : Option OrderBy) : List String :=
  project.map ReturnItem.aliasName ++ (orderBy.map OrderBy.aliasName).toList

/-- For one binding: every alias asked for is classified as the binding has it,
and what it is bound to has been fetched over the wire. -/
structure Fetched (dataset : Dataset) (asked : List String) (hydration : Hydration)
    (b : Binding) : Prop where
  kind : ∀ x ∈ asked, isEdge hydration.aliasIsEdge x = decide (x ∈ b.edges)
  node : ∀ x ∈ asked, x ∉ b.edges → ∀ v, b.nodes[x]? = some v →
    hydration.nodeProperties[v]? = (dataset.findNode v).map receivedNode
  edge : ∀ x ∈ asked, x ∈ b.edges → ∀ e, b.edges[x]? = some e →
    hydration.edgeProperties[e]? = (dataset.findEdge e).map receivedEdge

namespace Fetched

variable {dataset : Dataset} {asked : List String} {hydration : Hydration} {b : Binding}
variable (fetched : Fetched dataset asked hydration b) {x : String} (member : x ∈ asked)

include fetched member

/-- The value of an alias's property is the stored one after the wire. -/
theorem value (property : String) :
    hydration.value x property b = (dataset.valueAt b x property).bind onWire := by
  rw [Hydration.value, fetched.kind x member, Dataset.valueAt, Dataset.edgeAt,
    Dataset.nodeAt]
  by_cases isEdge : x ∈ b.edges
  · rw [decide_eq_true isEdge, if_pos rfl, if_pos isEdge]
    obtain ⟨e, bound⟩ := (b.mem_edges_iff x).mp isEdge
    rw [bound]
    simp only [Option.bind_eq_bind, Option.bind_some,
      fetched.edge x member isEdge e bound, Option.map_none, Option.or_none]
    cases dataset.findEdge e with
    | none => rfl
    | some record => exact getElem?_decodedFields record.properties property
  · rw [decide_eq_false isEdge, if_neg Bool.false_ne_true, if_neg isEdge]
    rw [Std.ExtTreeMap.getElem?_eq_none isEdge]
    cases bound : b.nodes[x]? with
    | none => rfl
    | some v =>
        simp only [Option.bind_eq_bind, Option.bind_some, Option.bind_none,
          fetched.node x member isEdge v bound, Option.map_none, Option.none_or]
        cases dataset.findNode v with
        | none => rfl
        | some record => exact getElem?_decodedFields record.properties property

end Fetched

/-! ### Projection -/

section Projection

variable {dataset : Dataset} {asked : List String} {hydration : Hydration}
variable {b : Binding} {project : List ReturnItem}

/-- The column that an item fills. -/
def filled (dataset : Dataset) (b : Binding) (item : ReturnItem) :
    Option (String × ProtoValue) :=
  (dataset.cell b item).map fun value => (item.column, value)

/-- The record that a bare alias sends as a whole. -/
def whole {ν : Type} (recordOf : String → Option ν) (item : ReturnItem) :
    Option (String × ν) :=
  if item.property = none then (recordOf item.aliasName).map fun record =>
    (item.aliasName, record) else none

/-- The node record that is sent for an alias. -/
def nodeSent (dataset : Dataset) (b : Binding) (x : String) : Option NodeProperties :=
  (dataset.nodeAt b x).map GraphServiceImpl.nodeRecordToProto

/-- The edge record that is sent for an alias. -/
def edgeSent (dataset : Dataset) (b : Binding) (x : String) : Option EdgeProperties :=
  (dataset.edgeAt b x).map GraphServiceImpl.edgeRecordToProto

/-- An item adds what it fills and what it sends as a whole. -/
theorem projectItem_eq (fetched : Fetched dataset asked hydration b)
    {item : ReturnItem} (listed : item.aliasName ∈ asked) (row : QueryResult) :
    projectItem hydration b row item =
      { projection := insertSome row.projection (filled dataset b item)
        properties := insertSome row.properties (whole (nodeSent dataset b) item)
        edgeProperties :=
          insertSome row.edgeProperties (whole (edgeSent dataset b) item) } := by
  obtain ⟨x, property⟩ := item
  cases property with
  | some property =>
      have sent :
          (hydration.value x property b).bind GraphServiceImpl.propertyValueToProto =
          (dataset.valueAt b x property).bind GraphServiceImpl.propertyValueToProto := by
        rw [fetched.value listed, Option.bind_assoc]
        congr 1
        funext value
        exact propertyValueToProto_onWire value
      simp only [projectItem, sent, filled, whole, Dataset.cell, ReturnItem.column,
        reduceCtorEq, if_false]
      cases (dataset.valueAt b x property).bind GraphServiceImpl.propertyValueToProto with
      | none => rfl
      | some value => rfl
  | none =>
      simp only [projectItem, projectAlias, fetched.kind x listed, filled, whole,
        nodeSent, edgeSent, Dataset.cell, Dataset.nodeAt, Dataset.edgeAt,
        ReturnItem.column, if_true]
      by_cases edge : x ∈ b.edges
      · obtain ⟨e, bound⟩ := (b.mem_edges_iff x).mp edge
        simp only [edge, decide_true, if_true, bound, Option.bind_some,
          Option.map_some, Option.map_none, fetched.edge x listed edge e bound]
        cases dataset.findEdge e with
        | none => rfl
        | some record =>
            simp only [Option.map_some, edgeRecordToProto_received]
            rfl
      · simp only [edge, decide_false, if_false, Bool.false_eq_true,
          Std.ExtTreeMap.getElem?_eq_none edge, Option.bind_none, Option.map_none]
        cases bound : b.nodes[x]? with
        | none => rfl
        | some v =>
            simp only [Option.bind_some, Option.map_some,
              fetched.node x listed edge v bound]
            cases dataset.findNode v with
            | none => rfl
            | some record =>
                simp only [Option.map_some, nodeRecordToProto_received]
                rfl

/-- A row is filled item by item. -/
theorem projectBinding_eq (fetched : Fetched dataset asked hydration b)
    (listed : ∀ item ∈ project, item.aliasName ∈ asked) :
    projectBinding hydration project b =
      { projection := collectMap (project.filterMap (filled dataset b))
        properties := collectMap (project.filterMap (whole (nodeSent dataset b)))
        edgeProperties :=
          collectMap (project.filterMap (whole (edgeSent dataset b))) } := by
  rw [projectBinding]
  induction project using List.reverseRecOn with
  | nil => rfl
  | append_singleton project item inductionHypothesis =>
      have earlier := inductionHypothesis fun other member =>
        listed other (List.mem_append_left _ member)
      rw [List.foldl_append, earlier, List.foldl_cons, List.foldl_nil,
        projectItem_eq fetched
          (listed item (List.mem_append_right _ List.mem_cons_self)),
        collectMap_filterMap_append, collectMap_filterMap_append,
        collectMap_filterMap_append]

end Projection

/-! ### Columns -/

/-- A name has no dot, so a column's name tells its alias and its property
apart. -/
theorem noDot_of_isIdent {name : String} (ident : isIdent name = true) :
    '.' ∉ name.toList := by
  intro dot
  have part := isIdentPart_of_mem ident '.' dot
  exact absurd part (by decide)

/-- An item of identifiers. -/
def ReturnItem.Spelled (item : ReturnItem) : Prop :=
  isIdent item.aliasName ∧ ∀ property ∈ item.property, isIdent property

/-- Two items of identifiers share a column only if they are one item. -/
theorem column_injective {item item' : ReturnItem} (spelled : item.Spelled)
    (spelled' : item'.Spelled) (same : item.column = item'.column) :
    item = item' := by
  obtain ⟨x, property⟩ := item
  obtain ⟨x', property'⟩ := item'
  have noDot : '.' ∉ x.toList := noDot_of_isIdent spelled.1
  have noDot' : '.' ∉ x'.toList := noDot_of_isIdent spelled'.1
  have characters := congrArg String.toList same
  cases property with
  | none =>
      cases property' with
      | none => rw [show x = x' from same]
      | some property' =>
          simp only [ReturnItem.column, String.toList_append] at characters
          rw [characters] at noDot
          exact absurd (List.mem_append_left _
            (List.mem_append_right _ (by decide))) noDot
  | some property =>
      cases property' with
      | none =>
          simp only [ReturnItem.column, String.toList_append] at characters
          rw [← characters] at noDot'
          exact absurd (List.mem_append_left _
            (List.mem_append_right _ (by decide))) noDot'
      | some property' =>
          simp only [ReturnItem.column, String.toList_append,
            List.append_assoc] at characters
          have dot : ".".toList = ['.'] := by decide
          rw [dot, List.singleton_append, List.singleton_append] at characters
          have after : '.' ∉ property.toList := noDot_of_isIdent (spelled.2 property rfl)
          obtain ⟨before, -, later⟩ :=
            (List.append_cons_inj_of_notMem noDot after).mp characters
          rw [String.toList_injective before, String.toList_injective later]

/-- A record is sent for an alias exactly when the alias is projected bare. -/
theorem getElem?_whole {ν : Type} {recordOf : String → Option ν}
    {project : List ReturnItem} {x : String} {sent : ν} :
    (collectMap (project.filterMap (whole recordOf)))[x]? = some sent ↔
      ⟨x, none⟩ ∈ project ∧ recordOf x = some sent := by
  have entry (record : ν) : (x, record) ∈ project.filterMap (whole recordOf) ↔
      ⟨x, none⟩ ∈ project ∧ recordOf x = some record := by
    simp only [List.mem_filterMap, whole, Option.ite_none_right_eq_some,
      Option.map_eq_some_iff, Prod.mk.injEq]
    constructor
    · rintro ⟨⟨_, _⟩, member, rfl, _, found, rfl, rfl⟩
      exact ⟨member, found⟩
    · rintro ⟨member, found⟩
      exact ⟨_, member, rfl, record, found, rfl, rfl⟩
  rw [← entry]
  refine ⟨mem_of_getElem?_collectMap, fun member =>
    getElem?_collectMap_of_agree member fun other twin => ?_⟩
  have found := ((entry sent).mp member).2
  rw [((entry other).mp twin).2] at found
  exact Option.some.inj found

section Rows

variable {dataset : Dataset} {asked : List String} {hydration : Hydration}
variable {b : Binding} {project : List ReturnItem}

/-- Every binding is projected to its row. -/
theorem row_of_projectBinding (fetched : Fetched dataset asked hydration b)
    (listed : ∀ item ∈ project, item.aliasName ∈ asked)
    (spelled : ∀ item ∈ project, item.Spelled) :
    dataset.Row project b (projectBinding hydration project b) := by
  rw [projectBinding_eq fetched listed]
  constructor
  · intro column value
    have entry (value : ProtoValue) :
        (column, value) ∈ project.filterMap (filled dataset b) ↔
        ∃ item ∈ project, item.column = column ∧ dataset.cell b item = some value := by
      simp only [List.mem_filterMap, filled, Option.map_eq_some_iff, Prod.mk.injEq]
      refine exists_congr fun item => and_congr_right fun _ => ?_
      constructor
      · rintro ⟨other, found, rfl, rfl⟩
        exact ⟨rfl, found⟩
      · rintro ⟨rfl, found⟩
        exact ⟨value, found, rfl, rfl⟩
    rw [← entry]
    refine ⟨mem_of_getElem?_collectMap, fun member =>
      getElem?_collectMap_of_agree member fun other twin => ?_⟩
    obtain ⟨item, inProject, rfl, found⟩ := (entry value).mp member
    obtain ⟨item', inProject', same, found'⟩ := (entry other).mp twin
    rw [column_injective (spelled item' inProject') (spelled item inProject) same,
      found] at found'
    exact (Option.some.inj found').symm
  · exact fun x sent => getElem?_whole
  · exact fun x sent => getElem?_whole

end Rows

/-! ### Sorting -/

section Sorting

variable {α : Type} {cmp : α → α → Ordering} {l : List α}
variable {serve : GenerationHandle → IndexGeneration}

/-- What a sort may return and why it may panic. -/
theorem sortBy_meets : (sortBy cmp l).Meets serve
    (fun out => out.Perm l ∧
      (TotalPreorderOn cmp l → out.Pairwise fun a b => (cmp a b).isLE = true))
    (fun fault => ¬ TotalPreorderOn cmp l ∧ fault = .panic
      "user-provided comparison function does not correctly implement a total order") := by
  rw [sortBy]
  split
  case isTrue order =>
      have sorted := stableSorted_stableSort order
      exact ⟨sorted.perm, fun _ => sorted.sorted⟩
  case isFalse disorder =>
      refine .bind (.unordered _) fun outcomes _ => ?_
      split
      case isTrue => exact ⟨disorder, rfl⟩
      case isFalse =>
        exact (Client.Meets.unordered l).imp fun out perm =>
          ⟨perm, fun order => absurd order disorder⟩

end Sorting

section Rows

variable {dataset : Dataset} {asked : List String} {hydration : Hydration}
variable {orderBy : OrderBy} {a b : Binding}

/-- Rows are compared as the tables have their values. -/
theorem compareBindings_eq (fetchedA : Fetched dataset asked hydration a)
    (fetchedB : Fetched dataset asked hydration b)
    (member : orderBy.aliasName ∈ asked) :
    compareBindings hydration orderBy a b = dataset.compareAt orderBy a b := by
  cases direction : orderBy.direction with
  | asc =>
      simp only [compareBindings, sortKey, Dataset.compareAt, Dataset.sentValue,
        fetchedA.value member, fetchedB.value member, bind_onWire, direction]
  | desc =>
      simp only [compareBindings, sortKey, Dataset.compareAt, Dataset.sentValue,
        fetchedA.value member, fetchedB.value member, bind_onWire, direction]

end Rows

/-! ### Responses -/

section Responses

variable [Chrono] {dataset : Dataset} {hasher : Partitioning} {partitions : PartitionMap}
variable {serve : GenerationHandle → IndexGeneration} {transport : Transport}

/-- Node records are fetched as the tables have them, or a call is lost. -/
theorem hydrateNodes_received (served : dataset.ServedBy hasher partitions serve)
    (reachable : FullyReachable hasher partitions) (unique : dataset.UniqueNodeIds)
    (ids : ExtTreeSet NodeId compare) :
    ((overGrpc transport hasher).hydrateNodes partitions ids).Meets serve
      (fun records => ∀ v ∈ ids, records[v]? = (dataset.findNode v).map receivedNode)
        transport.Lost := by
  have alike : Client.Similar transport.Lost
      (MapsAgree fun record record' => record = receivedNode record')
      ((overGrpc transport hasher).hydrateNodes partitions ids)
      ((inProcess hasher).hydrateNodes partitions ids) :=
    hydrateNodes_agree hasher partitions
      (fun replica ids =>
        GrpcPartitionRpc.getNodeProperties_similar replica (fun _ => rfl) ids) ids
  have met := @hydrateNodes_meets _ hasher partitions serve ids fun _ => False
  refine (alike.meets met).mono ?_ ?_
  · rintro records ⟨stored, agree, exact_⟩ v member
    have found : stored[v]? = dataset.findNode v := by
      apply Option.ext
      intro record
      rw [exact_, findNode_iff unique]
      exact ⟨fun both => served.nodeRecord_sound both.2,
        fun recorded => ⟨member, served.nodeRecord_complete reachable unique recorded⟩⟩
    rw [← found]
    rcases agree.lookup v with ⟨absent, absent'⟩ | ⟨r, r', present, present', rfl⟩
    · rw [absent, absent', Option.map_none]
    · rw [present, present', Option.map_some]
  · rintro fault (lost | ⟨_, impossible⟩)
    · exact lost
    · exact impossible.elim

/-- Edge records are fetched as the tables have them, or a call is lost. -/
theorem hydrateEdges_received (served : dataset.ServedBy hasher partitions serve)
    (reachable : FullyReachable hasher partitions) (unique : dataset.UniqueEdgeIds)
    (ids : ExtTreeSet EdgeId compare) :
    ((overGrpc transport hasher).hydrateEdges partitions ids).Meets serve
      (fun records => ∀ e ∈ ids, records[e]? = (dataset.findEdge e).map receivedEdge)
        transport.Lost := by
  have alike : Client.Similar transport.Lost
      (MapsAgree fun record record' => record = receivedEdge record')
      ((overGrpc transport hasher).hydrateEdges partitions ids)
      ((inProcess hasher).hydrateEdges partitions ids) :=
    hydrateEdges_agree hasher partitions
      (fun replica ids =>
        GrpcPartitionRpc.getEdgeProperties_similar replica (fun _ => rfl) ids) ids
  have met := @hydrateEdges_meets _ hasher partitions serve ids fun _ => False
  refine (alike.meets met).mono ?_ ?_
  · rintro records ⟨stored, agree, sound, complete⟩ e member
    have found : stored[e]? = dataset.findEdge e := by
      apply Option.ext
      intro record
      rw [findEdge_iff unique]
      constructor
      · exact fun present => served.edgeRecord_sound (sound e record present)
      · intro recorded
        obtain ⟨other, present⟩ := complete e member record
          (served.edgeRecord_complete reachable unique recorded)
        rw [present]
        have recorded' := served.edgeRecord_sound (sound e other present)
        rw [← findEdge_iff unique] at recorded recorded'
        rw [recorded] at recorded'
        exact recorded'.symm
    rw [← found]
    rcases agree.lookup e with ⟨absent, absent'⟩ | ⟨r, r', present, present', rfl⟩
    · rw [absent, absent', Option.map_none]
    · rw [present, present', Option.map_some]
  · rintro fault (lost | ⟨_, impossible⟩)
    · exact lost
    · exact impossible.elim

omit [Chrono] in
/-- What an alias asked for is bound to is among what is needed, whether it is
projected or sorted by. -/
theorem mem_asked {κ : Type} {project : List ReturnItem} {orderBy : Option OrderBy}
    {bindings : List Binding} {b : Binding} (member : b ∈ bindings) {x : String}
    (asked : x ∈ askedAliases project orderBy)
    {resolve : ReturnItem → Binding → Option κ} {sortedBy : OrderBy → List κ}
    {k : κ}
    (projected : ∀ item : ReturnItem, item.aliasName = x → resolve item b = some k)
    (sorted : ∀ orderBy : OrderBy, orderBy.aliasName = x → k ∈ sortedBy orderBy) :
    k ∈ bindings.flatMap
      (fun binding => project.filterMap fun item => resolve item binding) ++
      orderBy.toList.flatMap sortedBy := by
  rw [List.mem_append, List.mem_flatMap, List.mem_flatMap]
  rcases List.mem_append.mp asked with inItems | inOrder
  · obtain ⟨item, inProject, named⟩ := List.mem_map.mp inItems
    exact .inl ⟨b, member, List.mem_filterMap.mpr ⟨item, inProject, projected item named⟩⟩
  · cases orderBy with
    | none => cases inOrder
    | some orderBy =>
        exact .inr ⟨orderBy, List.mem_singleton_self _,
          sorted orderBy (List.mem_singleton.mp inOrder).symm⟩

omit [Chrono] in
/-- A node that an alias asked for is bound to is hydrated. -/
theorem mem_neededNodeIds {kinds : ExtTreeMap String Bool compare}
    {project : List ReturnItem} {orderBy : Option OrderBy} {bindings : List Binding}
    {b : Binding} (member : b ∈ bindings) {x : String}
    (asked : x ∈ askedAliases project orderBy) (isNode : isEdge kinds x = false)
    {v : NodeId} (bound : b.nodes[x]? = some v) :
    v ∈ neededNodeIds kinds project orderBy bindings := by
  rw [neededNodeIds, mem_setOfList]
  apply mem_asked member asked
  · rintro item rfl
    rw [resolveNodeId, isNode]
    exact bound
  · rintro orderBy rfl
    rw [isNode]
    exact List.mem_filterMap.mpr ⟨b, member, bound⟩

omit [Chrono] in
/-- An edge that an alias asked for is bound to is hydrated. -/
theorem mem_neededEdgeIds {kinds : ExtTreeMap String Bool compare}
    {project : List ReturnItem} {orderBy : Option OrderBy} {bindings : List Binding}
    {b : Binding} (member : b ∈ bindings) {x : String}
    (asked : x ∈ askedAliases project orderBy) (isEdge_ : isEdge kinds x = true)
    {e : EdgeId} (bound : b.edges[x]? = some e) :
    e ∈ neededEdgeIds kinds project orderBy bindings := by
  rw [neededEdgeIds, mem_setOfList]
  apply mem_asked member asked
  · rintro item rfl
    rw [resolveEdgeId, isEdge_]
    exact bound
  · rintro orderBy rfl
    rw [isEdge_]
    exact List.mem_filterMap.mpr ⟨b, member, bound⟩

/-- Sorted and cut, the bindings become rows of the tables. -/
def RowsOf (dataset : Dataset) (query : Query) (bindings : List Binding)
    (rows : List QueryResult) : Prop :=
  ∃ sorted : List Binding, sorted.Perm bindings ∧
    (∀ orderBy ∈ query.orderBy, TotalPreorderOn (dataset.compareAt orderBy) sorted →
      sorted.Pairwise fun a b => (dataset.compareAt orderBy a b).isLE = true) ∧
    List.Forall₂ (dataset.Row query.returns) (applyLimit query.limit sorted) rows

/-- The sort values of the bindings have no order, and the sort panics. -/
def Disordered (dataset : Dataset) (query : Query) (bindings : List Binding)
    (fault : Fault) : Prop :=
  ∃ orderBy, query.orderBy = some orderBy ∧
    ¬ TotalPreorderOn (dataset.compareAt orderBy) bindings ∧
    fault = .panic
      "user-provided comparison function does not correctly implement a total order"

omit [Chrono] in
/-- A limit keeps rows of those there are. -/
theorem mem_of_mem_applyLimit {limit : Option Nat} {bindings : List Binding} {b : Binding}
    (member : b ∈ applyLimit limit bindings) : b ∈ bindings := by
  cases limit with
  | none => exact member
  | some n => exact List.mem_of_mem_take member

omit [Chrono] in
/-- Once everything is fetched, the bindings are sorted, cut and projected. -/
theorem applyOrderBy_meets {query : Query} {hydration : Hydration}
    {bindings : List Binding}
    (fetched : ∀ b ∈ bindings,
      Fetched dataset (askedAliases query.returns query.orderBy) hydration b)
    (spelled : ∀ item ∈ query.returns, item.Spelled) :
    (applyOrderBy hydration query.orderBy bindings).Meets serve
      (fun sorted => RowsOf dataset query bindings
        ((applyLimit query.limit sorted).map (projectBinding hydration query.returns)))
      (Disordered dataset query bindings) := by
  have rows (sorted : List Binding) (perm : sorted.Perm bindings) :
      List.Forall₂ (dataset.Row query.returns) (applyLimit query.limit sorted)
        ((applyLimit query.limit sorted).map
          (projectBinding hydration query.returns)) := by
    rw [List.forall₂_map_right_iff, List.forall₂_same]
    intro b member
    apply row_of_projectBinding
      (fetched b (perm.mem_iff.mp (mem_of_mem_applyLimit member))) _ spelled
    exact fun item inProject => List.mem_append_left _ (List.mem_map_of_mem inProject)
  cases ordered : query.orderBy with
  | none =>
      refine Client.Meets.pure ⟨bindings, .refl _, ?_, rows bindings (.refl _)⟩
      rw [ordered]
      nofun
  | some orderBy =>
      rw [ordered] at fetched
      have agree (a : Binding) (memberA : a ∈ bindings) (b : Binding)
          (memberB : b ∈ bindings) :
          compareBindings hydration orderBy a b = dataset.compareAt orderBy a b :=
        compareBindings_eq (fetched a memberA) (fetched b memberB)
          (List.mem_append_right _ (List.mem_singleton_self _))
      refine sortBy_meets.mono ?_ ?_
      · rintro sorted ⟨perm, ascending⟩
        refine ⟨sorted, perm, ?_, rows sorted perm⟩
        rw [ordered]
        rintro _ ⟨⟩ order
        have order' : TotalPreorderOn (compareBindings hydration orderBy) bindings :=
          order.of_agree (fun a memberA b memberB => (agree a memberA b memberB).symm)
            fun b member => perm.mem_iff.mpr member
        refine (ascending order').imp_of_mem fun {a b} memberA memberB atMost => ?_
        rw [← agree a (perm.mem_iff.mp memberA) b (perm.mem_iff.mp memberB)]
        exact atMost
      · rintro fault ⟨disorder, rfl⟩
        refine ⟨orderBy, ordered, fun order => disorder ?_, rfl⟩
        exact order.of_agree (fun a memberA b memberB =>
          (agree a memberA b memberB).symm) fun _ member => member

/-- From the bindings to the rows. -/
theorem respond_meets (served : dataset.ServedBy hasher partitions serve)
    (reachable : FullyReachable hasher partitions)
    (uniqueNodes : dataset.UniqueNodeIds) (uniqueEdges : dataset.UniqueEdgeIds)
    {query : Query} {bindings : List Binding} {nodes edges : List String}
    (binds : ∀ b ∈ bindings, b.Binds nodes edges)
    (spelled : ∀ item ∈ query.returns, item.Spelled) (schema : Schema) :
    (respond ⟨schema, overGrpc transport hasher⟩ partitions query query.returns
      bindings).Meets serve
      (RowsOf dataset query bindings)
      (fun fault => transport.Lost fault ∨ Disordered dataset query bindings fault) := by
  rw [respond]
  have nodesMet := @hydrateNodes_received _ _ _ _ _ transport served reachable uniqueNodes
    (neededNodeIds (aliasIsEdge query.returns query.orderBy bindings) query.returns
      query.orderBy bindings)
  have edgesMet := @hydrateEdges_received _ _ _ _ _ transport served reachable uniqueEdges
    (neededEdgeIds (aliasIsEdge query.returns query.orderBy bindings) query.returns
      query.orderBy bindings)
  refine .bind (nodesMet.mono (fun _ post => post) fun _ => .inl)
    fun nodeProperties nodesFetched => ?_
  refine .bind (edgesMet.mono (fun _ post => post) fun _ => .inl)
    fun edgeProperties edgesFetched => ?_
  have fetched (b : Binding) (member : b ∈ bindings) :
      Fetched dataset (askedAliases query.returns query.orderBy)
      ⟨aliasIsEdge query.returns query.orderBy bindings, nodeProperties,
        edgeProperties⟩ b := by
    have kind (x : String) (asked : x ∈ askedAliases query.returns query.orderBy) :=
      isEdge_aliasIsEdge binds member asked
    constructor
    · exact kind
    · intro x asked isNode v bound
      apply nodesFetched
      exact mem_neededNodeIds member asked
        ((kind x asked).trans (decide_eq_false isNode)) bound
    · intro x asked isEdge e bound
      apply edgesFetched
      exact mem_neededEdgeIds member asked
        ((kind x asked).trans (decide_eq_true isEdge)) bound
  exact .bind ((applyOrderBy_meets fetched spelled).mono (fun _ post => post) fun _ =>
    .inr) fun _ rows => rows

end Responses

/-! ### Plans of queries that were read -/

theorem ne_empty_of_isIdent {name : String} (ident : isIdent name = true) :
    name ≠ "" := by
  rintro rfl
  exact absurd ident (by decide)

theorem some_ne_empty {text : Option String}
    (each : ∀ name ∈ text, isIdent name = true) : text ≠ some "" := by
  intro empty
  exact ne_empty_of_isIdent (each "" empty) rfl

theorem EdgePattern.Writable.typePresent {edge : EdgePattern} (writable : edge.Writable) :
    edge.edgeType.map EdgeType.name ≠ some "" := by
  apply some_ne_empty
  intro name member
  obtain ⟨edgeType, typed, rfl⟩ := Option.map_eq_some_iff.mp member
  exact writable.edgeType edgeType typed

section Planned

variable {L : Literal → Prop} {query : Query} {queryPlan : QueryPlan}

theorem AllSpelled.of_mem {conditions : List WhereCondition}
    (spelled : AllSpelled L conditions) {condition : WhereCondition}
    (member : condition ∈ conditions) : condition.Spelled L := by
  induction conditions with
  | nil => cases member
  | cons first rest inductionHypothesis =>
      rw [AllSpelled] at spelled
      rcases List.mem_cons.mp member with rfl | later
      · exact spelled.1
      · exact inductionHypothesis spelled.2 later

/-- Names are not empty, so that no optional text of a plan is present and
empty. -/
theorem textsPresent_of_spelled (spelled : query.Spelled L)
    (planned : NaivePlanner.plan query = .ok queryPlan) : queryPlan.TextsPresent := by
  obtain ⟨first, segments, start, antiJoins, shape⟩ := planShape_of_plan planned
  rw [shape.planEq]
  intro step member
  rcases List.mem_cons.mp member with rfl | later
  · have isStart := (start_isStart shape.started).1
    cases step with
    | resolveStart step => trivial
    | resolveAll step => trivial
    | expandHop step => exact isStart.elim
    | antiJoin step => exact isStart.elim
  rcases List.mem_append.mp later with inHops | inAntiJoins
  · obtain ⟨done, rest, split⟩ := List.append_of_mem inHops
    obtain ⟨before, edge, toNode, after, rfl, -, rfl, -⟩ := hopsOf_split split
    have patternSteps := shape.patternEq
    have edgeThere : PatternStep.edge edge ∈ query.pattern.steps := by
      rw [patternSteps, segmentSteps]
      simp
    have nodeThere : PatternStep.node toNode ∈ query.pattern.steps := by
      rw [patternSteps, segmentSteps]
      simp
    have edgeSpelled := spelled.pattern.edges edge edgeThere
    refine ⟨some_ne_empty ?_, edgeSpelled.typePresent,
      some_ne_empty edgeSpelled.aliasName⟩
    intro name named
    obtain ⟨label, labelled, rfl⟩ := Option.map_eq_some_iff.mp named
    exact (spelled.pattern.nodes toNode nodeThere).label label labelled
  · obtain ⟨subquery, antiJoin, listed, compiled, rfl⟩ :=
      mem_planAntiJoins shape.joined inAntiJoins
    obtain ⟨fromNode, edge, toNode, steps, rfl⟩ := compileAntiJoin_ok compiled
    have inner := spelled.conditions.of_mem listed
    obtain ⟨pattern, conditions⟩ := subquery
    rw [WhereCondition.Spelled, ExistsSubquery.Spelled] at inner
    have patternSteps : pattern.steps = [.node fromNode, .edge edge, .node toNode] :=
      steps
    have edgeSpelled := inner.1.edges edge (by rw [patternSteps]; simp)
    exact ⟨some_ne_empty edgeSpelled.aliasName, edgeSpelled.typePresent⟩

end Planned

/-! ### Faults -/

/-- Why a query ends without an answer, and the status it ends with: its text
makes the parser panic or is rejected, the schema rejects it, the planner panics
on it, nothing is known of the cluster, the network lost a call, the tables lead
a binding to a `NOT EXISTS` that compares its edge with itself, or the values to
sort by have no order.

Each constructor fixes the message; the conditions are on the text, the schema,
the surroundings and the tables. -/
inductive QueryFault.Explained [Chrono] (service : GraphServiceImpl)
    (surroundings : Surroundings) (transport : Transport) (dataset : Dataset)
    (dsl : String) : QueryFault → Prop where
  | parser {message : String}
      (panics : PestParser.parse surroundings.report dsl = .error message) :
      Explained service surroundings transport dataset dsl (.panic message)
  | syntax_ {e : DslError}
      (rejected : PestParser.parse surroundings.report dsl = .ok (.error e)) :
      Explained service surroundings transport dataset dsl
        (.invalidArgument ("syntax error: " ++ e.display))
  | invalid {query : Query} {errors : List ValidationError}
      (parsed : PestParser.parse surroundings.report dsl = .ok (.ok query))
      (rejected : SchemaValidator.validate query service.schema = .error errors) :
      Explained service surroundings transport dataset dsl
        (.invalidArgument
          ("query failed validation: " ++ surroundings.validationText errors))
  | planner {query : Query} {message : String}
      (parsed : PestParser.parse surroundings.report dsl = .ok (.ok query))
      (valid : SchemaValidator.validate query service.schema = .ok ())
      (panics : NaivePlanner.plan query = .error message) :
      Explained service surroundings transport dataset dsl (.panic message)
  | discovery {reason : String} (unknown : surroundings.currentMap = .error reason) :
      Explained service surroundings transport dataset dsl
        (.unavailable ("cluster discovery failed: " ++ reason))
  | lost {fault : Fault} (call : transport.Lost fault) :
      Explained service surroundings transport dataset dsl (.ofFault fault)
  -- the coordinator finds the alias missing before it calls anyone, so the
  -- status names it
  | outer {query : Query} {start : PlanStep} {done later : List PlanStep}
      {subquery : ExistsSubquery}
      {antiJoin : AntiJoinStep} {x : String} {b : Binding}
      (parsed : PestParser.parse surroundings.report dsl = .ok (.ok query))
      (planned : NaivePlanner.plan query =
        .ok ⟨start :: (done ++ .antiJoin antiJoin :: later), query.returns⟩)
      (listed : .notExists subquery ∈ query.whereConditions)
      (compiled : NaivePlanner.compileAntiJoin subquery = .ok antiJoin)
      (itself : SelfCompares query.pattern subquery x)
      (reached : Reached dataset.view (Keep dataset.view) start done b) :
      Explained service surroundings transport dataset dsl
        (.internal (ExecutionError.unknownAlias x).display)
  | disorder {query : Query} {orderBy : OrderBy} {start : PlanStep}
      {steps : List PlanStep} {bindings : List Binding}
      (parsed : PestParser.parse surroundings.report dsl = .ok (.ok query))
      (planned : NaivePlanner.plan query = .ok ⟨start :: steps, query.returns⟩)
      (asked : query.orderBy = some orderBy)
      (reached : ∀ b ∈ bindings, Reached dataset.view (Keep dataset.view) start steps b)
      (mixed : ¬ TotalPreorderOn (dataset.compareAt orderBy) bindings) :
      Explained service surroundings transport dataset dsl
        (.panic
          "user-provided comparison function does not correctly implement a total order")

/-! ### Whole queries -/

section Queries

variable [Chrono] {dataset : Dataset} {hasher : Partitioning} {partitions : PartitionMap}
variable {serve : GenerationHandle → IndexGeneration} {transport : Transport}

/-- Why a plan fails over the network: a call is lost, or an anti-join reached
refers to an alias that is not bound. -/
def Interrupted (transport : Transport) (V : GraphView) (start : PlanStep)
    (steps : List PlanStep) (fault : Fault) : Prop :=
  transport.Lost fault ∨ ∃ x, fault = .error (.unknownAlias x) ∧ FailsOn V start steps x

/-- Over the network a step leads from the bindings reached to those reached
next. -/
theorem runStep_received (framed : transport.Framed) {start : PlanStep}
    {done : List PlanStep} {frontier : List Binding} {step : PlanStep}
    (texts : step.TextsPresent)
    (agree : (clusterView hasher (servingOf partitions serve)).EdgesAgree)
    (inScope : StepScoped ((start :: done).flatMap PlanStep.nodeAliases) step)
    (spec : FrontierSpec
      (clusterView hasher (servingOf partitions serve)) start done frontier) :
    ((overGrpc transport hasher).runStep partitions frontier step).Meets serve
      (FrontierSpec (clusterView hasher (servingOf partitions serve)) start
        (done ++ [step]))
      (Interrupted transport (clusterView hasher (servingOf partitions serve)) start
        (done ++ [step])) := by
  by_cases fails : Fails (clusterView hasher (servingOf partitions serve)) start
    (done ++ [step])
  · rcases fails_append_iff.mp fails with earlier | ⟨antiJoin, b, rfl, reached, lacking⟩
    · exact absurd earlier spec.2
    · -- the coordinator looks for the aliases in its first binding, which binds
      -- the same as this one
      cases frontier with
      | nil => exact absurd ((spec.1 b).mpr reached) List.not_mem_nil
      | cons sample rest =>
          have sampled := (spec.1 sample).mp List.mem_cons_self
          rcases executeAntiJoin_lacking (overGrpc transport hasher) partitions rest
            (lacking_of_reached reached sampled lacking) with ⟨x, raised, lacks⟩
          rw [ScatterGatherExecutor.runStep, raised]
          exact Client.Meets.fail
            (.inr ⟨x, rfl, done, antiJoin, [], sample, rfl, sampled, lacks⟩)
  · have alike :=
      (grpcPartitionRpc_follows framed).runStep hasher partitions texts frontier
    refine (alike.meets
      (runStep_meets hasher partitions serve agree inScope spec)).mono ?_ ?_
    · rintro out ⟨_, rfl, post⟩
      exact post
    · rintro fault (lost | ⟨_, failed⟩)
      · exact .inl lost
      · exact absurd failed fails

/-- Over the network the executor gathers each binding that the plan denotes
over the tables once. -/
theorem execute_received (framed : transport.Framed)
    (served : dataset.ServedBy hasher partitions serve)
    (reachable : FullyReachable hasher partitions)
    (present : dataset.EndpointsPresent) (uniqueNodes : dataset.UniqueNodeIds)
    (uniqueEdges : dataset.UniqueEdgeIds) {start : PlanStep} {steps : List PlanStep}
    (wellScoped : WellScoped start steps) (outgoing : OutgoingAntiJoins steps)
    {project : List ReturnItem}
    (texts : QueryPlan.TextsPresent ⟨start :: steps, project⟩) :
    ((overGrpc transport hasher).execute partitions ⟨start :: steps, project⟩).Meets serve
      (fun bindings => bindings.Nodup ∧ ∀ b, b ∈ bindings ↔
        Reached dataset.view (Keep dataset.view) start steps b)
      (Interrupted transport dataset.view start steps) := by
  have le := served.le_view present uniqueEdges
  have ge := served.view_le reachable present uniqueNodes uniqueEdges
  have gathered : ((overGrpc transport hasher).execute partitions
      ⟨start :: steps, project⟩).Meets serve
      (fun bindings => ∀ b, b ∈ bindings ↔
        Reached dataset.view (Keep dataset.view) start steps b)
      (Interrupted transport dataset.view start steps) := by
    rw [execute_eq partitions _ wellScoped.isStart]
    have resolved : ((inProcess hasher).broadcastResolve partitions start).Meets serve
        (fun out => ∀ b, b ∈ out ↔
          Started (clusterView hasher (servingOf partitions serve)) start b)
        (fun _ => False) :=
      broadcastResolve_meets hasher partitions serve wellScoped.isStart
    have resolved := ((grpcPartitionRpc_follows framed).broadcastResolve hasher
      partitions start).meets resolved
    refine .bind (resolved.mono (fun _ post => post) ?_) ?_
    · rintro fault (lost | ⟨_, impossible⟩)
      · exact .inl lost
      · exact impossible.elim
    rintro first ⟨_, rfl, started⟩
    refine .bind (Client.Meets.foldlM
      (I := FrontierSpec (clusterView hasher (servingOf partitions serve)) start) steps
      ⟨started, not_fails_nil _ start⟩ ?_) ?_
    · rintro visited step later frontier rfl spec
      have stepTexts := texts step (List.mem_cons_of_mem _ (by simp))
      refine (runStep_received framed stepTexts (served.edgesAgree uniqueEdges)
        (wellScoped.stepScoped visited step later rfl) spec).mono (fun _ post => post) ?_
      rintro fault (lost | ⟨x, rfl, fails⟩)
      · exact .inl lost
      · refine .inr ⟨x, rfl, FailsOn.mono le outgoing ?_⟩
        rw [List.append_cons]
        exact fails.append
    · rintro frontier ⟨reached, -⟩
      refine Client.Meets.pure fun b => ?_
      rw [mem_dedup, reached]
      exact reached_iff le ge outgoing
  have once := (execute_nodup (overGrpc transport hasher) partitions
    ⟨start :: steps, project⟩).meets serve
  refine (gathered.and once).mono ?_ fun _ interrupted => interrupted
  exact fun bindings both => ⟨both.2, both.1⟩

/-- The rows are the answer to the query that the text denotes. -/
def Answered (schema : Schema) (surroundings : Surroundings) (dataset : Dataset)
    (dsl : String) (rows : List QueryResult) : Prop :=
  ∃ query start steps, PestParser.parse surroundings.report dsl = .ok (.ok query) ∧
    SchemaValidator.validate query schema = .ok () ∧
    NaivePlanner.plan query = .ok ⟨start :: steps, query.returns⟩ ∧
      dataset.Answers query start steps rows

/-- Where an anti-join of a validated query refers to an alias that is not
bound, a subquery compares its edge with itself. -/
theorem explained_of_failsOn {service : GraphServiceImpl}
    {surroundings : Surroundings} {dsl : String} {query : Query}
    {first : NodePattern} {segments : List (EdgePattern × NodePattern)}
    {start : PlanStep} {antiJoins : List PlanStep} {queryPlan : QueryPlan}
    (parsed : PestParser.parse surroundings.report dsl = .ok (.ok query))
    (checked : SchemaValidator.violations query service.schema = [])
    (planned : NaivePlanner.plan query = .ok queryPlan)
    (shape : PlanShape query queryPlan first segments start antiJoins) {x : String}
    (fails : FailsOn dataset.view start
      (hopsOf query first.aliasName segments ++ antiJoins) x) :
    QueryFault.Explained service surroundings transport dataset dsl
      (.ofFault (.error (.unknownAlias x))) := by
  obtain ⟨done, antiJoin, later, b, split, reached, lacks⟩ := fails
  obtain ⟨earlier, -, joined⟩ := before_antiJoin split
  have member : .antiJoin antiJoin ∈ antiJoins := by
    rw [joined]
    simp
  obtain ⟨subquery, _, listed, compiled, ⟨⟩⟩ := mem_planAntiJoins shape.joined member
  have unbound := (lacks_iff reached antiJoin x).mp lacks
  rw [shape.planEq, split] at planned
  exact .outer parsed planned listed compiled
    ((readsUnbound_iff checked shape split listed compiled).mp unbound) reached

/-- A query ends with its answer, or with a fault that has one of the reasons. -/
theorem executeQuery_meets {schema : Schema} {surroundings : Surroundings}
    (framed : transport.Framed) (present : dataset.EndpointsPresent)
    (uniqueNodes : dataset.UniqueNodeIds) (uniqueEdges : dataset.UniqueEdgeIds)
    (cluster : ∀ partitions, surroundings.currentMap = .ok partitions →
      dataset.ServedBy hasher partitions serve ∧ FullyReachable hasher partitions)
    (dsl : String) :
    (executeQuery ⟨schema, overGrpc transport hasher⟩ surroundings dsl).Meets serve
      (Answered schema surroundings dataset dsl)
      (QueryFault.Explained
        ⟨schema, overGrpc transport hasher⟩ surroundings transport dataset dsl) := by
  rw [executeQuery]
  refine .bind (.ofExcept_mapError (fun _ => id) fun message panics => .parser panics)
    fun outcome parsed => ?_
  refine .bind (.ofExcept_mapError (fun _ => id) fun e rejected =>
    .syntax_ (rejected ▸ parsed)) fun query isQuery => ?_
  rw [isQuery] at parsed
  refine .bind (.ofExcept_mapError (fun _ => id) fun errors rejected =>
    .invalid parsed rejected) fun _ valid => ?_
  refine .bind (.ofExcept_mapError (fun _ => id) fun message panics =>
    .planner parsed valid panics)
    fun queryPlan planned => ?_
  refine .bind (.ofExcept_mapError (fun _ => id) fun reason unknown => .discovery unknown)
    fun partitions isMap => ?_
  obtain ⟨served, reachable⟩ := cluster partitions isMap
  have checked := SchemaValidator.validate_eq_ok_iff.mp valid
  obtain ⟨first, segments, start, antiJoins, shape⟩ := planShape_of_plan planned
  have wellScoped := wellScoped_of_plan checked shape
  have outgoing := outgoingAntiJoins_of_plan checked shape
  have spelled := parse_spelled parsed
  have texts := textsPresent_of_spelled spelled planned
  have planEq := shape.planEq
  subst planEq
  have gathered := execute_received framed served reachable present uniqueNodes
    uniqueEdges wellScoped outgoing texts
  refine .bind (gathered.mono (fun _ post => post) ?_).mapError ?_
  · rintro fault (lost | ⟨x, rfl, fails⟩)
    · exact .lost lost
    · exact explained_of_failsOn parsed checked planned shape fails
  rintro bindings ⟨nodup, reached⟩
  have binds (b : Binding) (member : b ∈ bindings) : b.Binds _ _ :=
    { nodes_iff := fun x => (((reached b).mp member).aliases x).1
      edges_iff := fun x => (((reached b).mp member).aliases x).2 }
  have responded := @respond_meets _ _ _ _ _ transport served reachable uniqueNodes
    uniqueEdges _ _ _ _ binds
    spelled.returns schema
  refine (responded.mono ?_ ?_).mapError
  · rintro rows ⟨sorted, perm, ascending, projected⟩
    refine ⟨query, _, _, parsed, valid, planned, sorted, perm.nodup_iff.mpr nodup, ?_,
      ascending, projected⟩
    exact fun b => perm.mem_iff.trans (reached b)
  · rintro fault (lost | ⟨orderBy, asked, mixed, rfl⟩)
    · exact .lost lost
    · exact .disorder parsed planned asked (fun b member => (reached b).mp member) mixed

end Queries

/-! ### Two answers to one query -/

section Agreement

variable {dataset : Dataset} {query : Query} {rows rows' : List QueryResult}

/-- A binding has one row. -/
theorem Dataset.Row.unique {project : List ReturnItem} {b : Binding}
    {row row' : QueryResult} (first : dataset.Row project b row)
    (second : dataset.Row project b row') : row = row' := by
  obtain ⟨projection, properties, edgeProperties⟩ := row
  obtain ⟨projection', properties', edgeProperties'⟩ := row'
  congr 1
  · apply Std.ExtTreeMap.ext_getElem?
    intro column
    apply Option.ext
    intro value
    exact (first.projection column value).trans (second.projection column value).symm
  · apply Std.ExtTreeMap.ext_getElem?
    intro x
    apply Option.ext
    intro sent
    exact (first.properties x sent).trans (second.properties x sent).symm
  · apply Std.ExtTreeMap.ext_getElem?
    intro x
    apply Option.ext
    intro sent
    exact (first.edgeProperties x sent).trans (second.edgeProperties x sent).symm

/-- Bindings have one list of rows. -/
theorem rows_unique {bindings : List Binding}
    (first : List.Forall₂ (dataset.Row query.returns) bindings rows)
    (second : List.Forall₂ (dataset.Row query.returns) bindings rows') :
    rows = rows' :=
  List.right_unique_forall₂' (fun _ _ _ row row' => row.unique row') first second

/-- Bindings in another order have their rows in another order. -/
theorem rows_perm {bindings bindings' : List Binding}
    (same : bindings.Perm bindings')
    (first : List.Forall₂ (dataset.Row query.returns) bindings rows)
    (second : List.Forall₂ (dataset.Row query.returns) bindings' rows') :
    rows.Perm rows' :=
  List.rel_perm_imp (fun _ _ _ row row' => row.unique row') first second same

/-- A limit keeps as many of equally many. -/
theorem length_applyLimit {limit : Option Nat} {bindings bindings' : List Binding}
    (same : bindings.length = bindings'.length) :
    (applyLimit limit bindings).length = (applyLimit limit bindings').length := by
  cases limit with
  | none => exact same
  | some n => rw [applyLimit, applyLimit, List.length_take, List.length_take, same]

/-- Two answers differ at most in what the query leaves open. -/
theorem Dataset.Answers.same [Chrono] {start : PlanStep} {steps : List PlanStep}
    (first : dataset.Answers query start steps rows)
    (second : dataset.Answers query start steps rows') :
    dataset.SameAnswer query start steps rows rows' := by
  obtain ⟨bindings, nodup, reached, ascending, projected⟩ := first
  obtain ⟨bindings', nodup', reached', ascending', projected'⟩ := second
  have same : bindings.Perm bindings' :=
    (List.perm_ext_iff_of_nodup nodup nodup').mpr fun b =>
      (reached b).trans (reached' b).symm
  constructor
  · rw [← projected.length_eq, ← projected'.length_eq]
    exact length_applyLimit same.length_eq
  · intro whole
    rw [whole] at projected projected'
    exact rows_perm same projected projected'
  · rintro orderBy asked ⟨order, apart⟩
    have sorted := ascending orderBy asked (order bindings fun b => (reached b).mp)
    have sorted' := ascending' orderBy asked (order bindings' fun b => (reached' b).mp)
    have antisymmetric (a b : Binding) (memberA : a ∈ bindings) (memberB : b ∈ bindings')
        (below : (dataset.compareAt orderBy a b).isLE = true)
        (above : (dataset.compareAt orderBy b a).isLE = true) :
        a = b := by
      apply apart a b ((reached a).mp memberA) ((reached' b).mp memberB)
      rw [(order bindings fun b => (reached b).mp).swap a memberA b
        (same.mem_iff.mpr memberB)] at above
      cases compared : dataset.compareAt orderBy a b with
      | eq => rfl
      | lt =>
          rw [compared] at above
          cases above
      | gt =>
          rw [compared] at below
          cases below
    have one : bindings = bindings' :=
      List.Perm.eq_of_pairwise antisymmetric sorted sorted' same
    subst one
    exact rows_unique projected projected'

end Agreement

/-! ### Rebuilds while a query runs -/

/-- What is built of the same tables for the same partition has the same graph. -/
theorem sameGraph_of_built {dataset : Dataset} {hasher : Partitioning}
    {partition : PartitionId} {generation generation' : IndexGeneration}
    (built : dataset.Built hasher partition generation)
    (built' : dataset.Built hasher partition generation') :
    SameGraph generation generation' := by
  obtain ⟨_, rfl⟩ := built_iff.mp built
  obtain ⟨_, rfl⟩ := built_iff.mp built'
  exact ⟨_, rfl⟩

/-- Without a partition map a query reads nothing. -/
theorem executeQuery_reads_nothing [Chrono] {service : GraphServiceImpl}
    {surroundings : Surroundings} {reason : String}
    (unknown : surroundings.currentMap = .error reason) (dsl : String) :
    ReadsWithin (fun _ => False) SameService
      (executeQuery service surroundings dsl) 0 := by
  rw [executeQuery]
  apply ReadsWithin.afterPure
  intro outcome _
  apply ReadsWithin.afterPure
  intro query _
  apply ReadsWithin.afterPure
  intro _ _
  apply ReadsWithin.afterPure
  intro queryPlan _
  apply ReadsWithin.afterPure
  intro partitions found
  rw [unknown] at found
  cases found

/-- It makes no difference to a query which of two generations it meets if no
call can tell them apart. -/
theorem executeQuery_run_congr [Chrono] {surroundings : Surroundings}
    {serve serve' : Nat → GenerationHandle → IndexGeneration}
    (same : ∀ partitions, surroundings.currentMap = .ok partitions →
      ∀ time handle, Picked partitions handle →
      SameService (serve time handle) (serve' time handle)) (schema : Schema)
    (hasher : Partitioning) (transport : Transport)
    (order : Nat → (size : Nat) → Equiv.Perm (Fin size)) (dsl : String) (time : Nat) :
    (executeQuery ⟨schema, overGrpc transport hasher⟩ surroundings dsl).run
      serve order time =
      (executeQuery ⟨schema, overGrpc transport hasher⟩ surroundings dsl).run serve'
        order time := by
  cases isMap : surroundings.currentMap with
  | error reason =>
      exact (executeQuery_reads_nothing isMap dsl).run_eq
        (fun _ _ => False.elim) order time
  | ok partitions =>
      exact (executeQuery_reads (grpc_oneRead transport) hasher isMap schema
        dsl).run_eq (same partitions isMap) order time

/-- At every moment every replica that would be asked serves some build of the
tables for its partition. -/
def AlwaysServed (dataset : Dataset) (hasher : Partitioning) (surroundings : Surroundings)
    (serve : Nat → GenerationHandle → IndexGeneration) : Prop :=
  ∀ partitions, surroundings.currentMap = .ok partitions →
    ∀ time, dataset.ServedBy hasher partitions (serve time)

section Histories

variable [Chrono] {dataset : Dataset} {hasher : Partitioning}
variable {surroundings : Surroundings}
variable {serve serve' : Nat → GenerationHandle → IndexGeneration}
variable {transport : Transport} {schema : Schema}
variable {order : Nat → (size : Nat) → Equiv.Perm (Fin size)} {dsl : String}

/-- It makes no difference to a query which builds of the tables it meets, nor
when they are swapped. -/
theorem executeQuery_run_eq
    (served : AlwaysServed dataset hasher surroundings serve)
    (served' : AlwaysServed dataset hasher surroundings serve') (schema : Schema)
    (transport : Transport) (order : Nat → (size : Nat) → Equiv.Perm (Fin size))
    (dsl : String) (time : Nat) :
    (executeQuery ⟨schema, overGrpc transport hasher⟩ surroundings dsl).run
      serve order time =
      (executeQuery ⟨schema, overGrpc transport hasher⟩ surroundings dsl).run serve'
        order time := by
  apply executeQuery_run_congr
  rintro partitions isMap time _ ⟨partition, replica, picked, rfl⟩
  have built := served partitions isMap time partition _ (congrArg (Option.map _) picked)
  have built' :=
    served' partitions isMap time partition _ (congrArg (Option.map _) picked)
  exact sameService_of_sameGraph _ _ (sameGraph_of_built built built')

/-- Whatever is rebuilt meanwhile, a query ends as it does while nothing is.
The hypotheses are those of `executeQuery_answers`. -/
theorem executeQuery_frozen
    (served : AlwaysServed dataset hasher surroundings serve)
    (framed : transport.Framed) (present : dataset.EndpointsPresent)
    (uniqueNodes : dataset.UniqueNodeIds) (uniqueEdges : dataset.UniqueEdgeIds)
    (reachable : ∀ partitions, surroundings.currentMap = .ok partitions →
      FullyReachable hasher partitions)
    {outcome : Except QueryFault (List QueryResult)}
    (ran : (executeQuery ⟨schema, overGrpc transport hasher⟩ surroundings dsl).run
      serve order 0 = outcome) :
    Client.Returns (serve 0)
      (executeQuery ⟨schema, overGrpc transport hasher⟩ surroundings dsl) outcome ∧
      (executeQuery ⟨schema, overGrpc transport hasher⟩ surroundings dsl).Meets (serve 0)
        (Answered schema surroundings dataset dsl)
        (QueryFault.Explained ⟨schema, overGrpc transport hasher⟩ surroundings
          transport dataset dsl) := by
  have still : AlwaysServed dataset hasher surroundings fun _ => serve 0 :=
    fun partitions isMap _ =>
    served partitions isMap 0
  constructor
  · rw [← ran, executeQuery_run_eq served still]
    exact Client.returns_run _ _ _ _
  · exact executeQuery_meets framed present uniqueNodes uniqueEdges
      (fun partitions isMap =>
        ⟨served partitions isMap 0, reachable partitions isMap⟩) dsl

/-- Every result set is the answer to the query: a row for each binding that its
plan denotes over the tables.

* `served`: at every moment each replica asked serves some build of these
  tables, which may be swapped for another between any two calls;
* `reachable`: every partition that the hasher names has a healthy replica,
  since the rows of one that has none are left out without a fault;
* `present`: every edge row has both its end points among the node rows, since a
  missing one is found in some placements and not in others;
* `uniqueNodes`, `uniqueEdges`: no two rows share an id, since a record is kept
  under its id;
* `framed`: the length prefix of a message bounds the frontier that it carries. -/
theorem executeQuery_answers
    (served : AlwaysServed dataset hasher surroundings serve)
    (reachable : ∀ partitions, surroundings.currentMap = .ok partitions →
      FullyReachable hasher partitions) (present : dataset.EndpointsPresent)
    (uniqueNodes : dataset.UniqueNodeIds) (uniqueEdges : dataset.UniqueEdgeIds)
    (framed : transport.Framed) {rows : List QueryResult}
    (ran : (executeQuery ⟨schema, overGrpc transport hasher⟩ surroundings dsl).run
      serve order 0 = .ok rows) : Answered schema surroundings dataset dsl rows := by
  obtain ⟨returns, meets⟩ :=
    executeQuery_frozen served framed present uniqueNodes uniqueEdges reachable ran
  exact meets.ok returns

/-- Every fault has one of the reasons, under the hypotheses of
`executeQuery_answers`. -/
theorem executeQuery_explained
    (served : AlwaysServed dataset hasher surroundings serve)
    (reachable : ∀ partitions, surroundings.currentMap = .ok partitions →
      FullyReachable hasher partitions) (present : dataset.EndpointsPresent)
    (uniqueNodes : dataset.UniqueNodeIds) (uniqueEdges : dataset.UniqueEdgeIds)
    (framed : transport.Framed) {fault : QueryFault}
    (ran : (executeQuery ⟨schema, overGrpc transport hasher⟩ surroundings dsl).run
      serve order 0 = .error fault) :
    fault.Explained
      ⟨schema, overGrpc transport hasher⟩ surroundings transport dataset dsl := by
  obtain ⟨returns, meets⟩ :=
    executeQuery_frozen served framed present uniqueNodes uniqueEdges reachable ran
  exact meets.error returns

end Histories

section

open scoped Social

/-- Who knows whom, without the acquaintances that the first person introduced. -/
def Social.strangersText : String :=
  "MATCH (a:Person)-[e:KNOWS]->(b:Person) " ++
  "WHERE NOT EXISTS \x7b MATCH (a)-[k:KNOWS]->(b) WHERE k.via = a.name \x7d " ++
  "RETURN b, e.via, a.name ORDER BY b.name DESC LIMIT 1"

/-- A coordinator of the example whose partitions are placed by `hasher`. -/
def Social.surroundingsOf (hasher : Partitioning) : Surroundings :=
  { Social.surroundings with currentMap := .ok (deployment hasher) }

/-- The example's deployment serves the dataset at all times. -/
theorem Social.alwaysServed (hasher : Partitioning) :
    AlwaysServed Social.dataset hasher (Social.surroundingsOf hasher) fun _ =>
      Social.dataset.deployed hasher := by
  rintro _ ⟨⟩ _
  exact served_deployment Social.dataset hasher

/-- The map of the example's surroundings reaches every partition. -/
theorem Social.reachable (hasher : Partitioning) (partitions : PartitionMap)
    (isMap : (Social.surroundingsOf hasher).currentMap = .ok partitions) :
    FullyReachable hasher partitions := by
  cases isMap
  exact fullyReachable_deployment hasher

/-- What the example query over a transport ends as. -/
def Social.strangersOver (transport : Transport) (hasher : Partitioning) :
    Except QueryFault (List QueryResult) :=
  (executeQuery ⟨Social.schema, overGrpc transport hasher⟩
    (Social.surroundingsOf hasher) Social.strangersText).run
    (fun _ => Social.dataset.deployed hasher) Social.inOrder 0

theorem exists_ok_of_isOk {α ε : Type} {outcome : Except ε α}
    (ok : outcome.isOk = true) : ∃ a, outcome = .ok a := by
  cases outcome with
  | ok a => exact ⟨a, rfl⟩
  | error e => cases ok

/-- The example query has an answer over two partitions. -/
theorem strangers_answered :
    ∃ rows, Social.strangersOver lanTransport Social.byParity = .ok rows ∧
    Answered Social.schema (Social.surroundingsOf Social.byParity) Social.dataset
      Social.strangersText rows := by
  have ok : (Social.strangersOver lanTransport Social.byParity).isOk = true := by
    decide +kernel
  obtain ⟨rows, ran⟩ := exists_ok_of_isOk ok
  refine ⟨rows, ran, ?_⟩
  rw [Social.strangersOver] at ran
  exact executeQuery_answers (Social.alwaysServed _)
    (Social.reachable _) Social.endpointsPresent
    Social.uniqueNodeIds Social.uniqueEdgeIds framed_lanTransport ran

/-- A network on which nothing can be reached. -/
def cutTransport : Transport :=
  { lanTransport with connect := fun _ => .error "unreachable" }

theorem framed_cutTransport : cutTransport.Framed := framed_lanTransport

/-- Over a network that is cut the example query fails, and the fault says so. -/
theorem strangers_explained :
    ∃ fault, Social.strangersOver cutTransport Social.byParity = .error fault ∧
    fault.Explained ⟨Social.schema, overGrpc cutTransport Social.byParity⟩
      (Social.surroundingsOf Social.byParity)
      cutTransport Social.dataset Social.strangersText := by
  have fails :
      (Social.strangersOver cutTransport Social.byParity).toOption.isNone = true := by
    decide +kernel
  cases ran : Social.strangersOver cutTransport Social.byParity with
  | ok rows =>
      rw [ran] at fails
      cases fails
  | error fault =>
      refine ⟨fault, rfl, ?_⟩
      rw [Social.strangersOver] at ran
      exact executeQuery_explained (Social.alwaysServed _)
        (Social.reachable _) Social.endpointsPresent
        Social.uniqueNodeIds Social.uniqueEdgeIds framed_cutTransport ran

end

/-! ### Two clusters -/

/-- What is reported of texts that cannot be read has no influence on those that
can. -/
theorem parse_unique {report report' : String → Nat × String} {dsl : String}
    {query query' : Query} (first : PestParser.parse report dsl = .ok (.ok query))
    (second : PestParser.parse report' dsl = .ok (.ok query')) : query = query' := by
  rw [PestParser.parse] at first second
  cases read : dslParse .query dsl.toList with
  | none =>
      rw [read] at first
      cases first
  | some found =>
      rw [read] at first second
      rw [first] at second
      cases second
      rfl

/-- Two coordinators give the same answer to one query text, whatever the number
of partitions and the placement of nodes, the replicas and the network between
them, the builds of the tables served and the enumeration orders.

The tables are the same and the hypotheses those of `executeQuery_answers`, for
each of the two: both clusters always serve builds of the tables, every
partition has a healthy replica in both, ids are unique, and edges have their
ends.  Both queries are answered (`ran`, `ran'`); what either reports instead is
the subject of `executeQuery_explained`. -/
theorem executeQuery_portable [Chrono] {dataset : Dataset}
    (present : dataset.EndpointsPresent) (uniqueNodes : dataset.UniqueNodeIds)
    (uniqueEdges : dataset.UniqueEdgeIds) {hasher hasher' : Partitioning}
    {surroundings surroundings' : Surroundings} {transport transport' : Transport}
    {serve serve' : Nat → GenerationHandle → IndexGeneration}
    {order order' : Nat → (size : Nat) → Equiv.Perm (Fin size)}
    (framed : transport.Framed)
    (served : AlwaysServed dataset hasher surroundings serve)
    (reachable : ∀ partitions, surroundings.currentMap = .ok partitions →
      FullyReachable hasher partitions) (framed' : transport'.Framed)
    (served' : AlwaysServed dataset hasher' surroundings' serve')
    (reachable' : ∀ partitions, surroundings'.currentMap = .ok partitions →
      FullyReachable hasher' partitions) {schema : Schema} {dsl : String}
    {rows rows' : List QueryResult}
    (ran : (executeQuery ⟨schema, overGrpc transport hasher⟩ surroundings dsl).run
      serve order 0 = .ok rows)
    (ran' : (executeQuery ⟨schema, overGrpc transport' hasher'⟩ surroundings'
        dsl).run serve' order' 0 = .ok rows') :
    ∃ query start steps, PestParser.parse surroundings.report dsl = .ok (.ok query) ∧
      NaivePlanner.plan query = .ok ⟨start :: steps, query.returns⟩ ∧
      dataset.SameAnswer query start steps rows rows' := by
  obtain ⟨returns, meets⟩ :=
    executeQuery_frozen served framed present uniqueNodes uniqueEdges reachable ran
  obtain ⟨returns', meets'⟩ := executeQuery_frozen served' framed' present uniqueNodes
    uniqueEdges reachable' ran'
  obtain ⟨query, start, steps, parsed, -, planned, answers⟩ := meets.ok returns
  obtain ⟨query', start', steps', parsed', -, planned', answers'⟩ := meets'.ok returns'
  have sameQuery : query' = query := parse_unique parsed' parsed
  subst sameQuery
  rw [planned] at planned'
  cases planned'
  exact ⟨query', start, steps, parsed, planned, answers.same answers'⟩

section

open scoped Social

/-- The example query has one answer over one partition and over two. -/
theorem strangers_portable :
    ∃ rows rows', Social.strangersOver lanTransport Social.single = .ok rows ∧
    Social.strangersOver lanTransport Social.byParity = .ok rows' ∧
    ∃ query start steps,
      PestParser.parse (Social.surroundingsOf Social.single).report
        Social.strangersText = .ok (.ok query) ∧
      NaivePlanner.plan query = .ok ⟨start :: steps, query.returns⟩ ∧
      Social.dataset.SameAnswer query start steps rows rows' := by
  have ok : (Social.strangersOver lanTransport Social.single).isOk = true := by
    decide +kernel
  have ok' : (Social.strangersOver lanTransport Social.byParity).isOk = true := by
    decide +kernel
  obtain ⟨rows, ran⟩ := exists_ok_of_isOk ok
  obtain ⟨rows', ran'⟩ := exists_ok_of_isOk ok'
  refine ⟨rows, rows', ran, ran', ?_⟩
  rw [Social.strangersOver] at ran ran'
  exact executeQuery_portable Social.endpointsPresent Social.uniqueNodeIds
    Social.uniqueEdgeIds framed_lanTransport (Social.alwaysServed _)
      (Social.reachable _) framed_lanTransport
    (Social.alwaysServed _) (Social.reachable _) ran ran'

end

end GraphEngine
