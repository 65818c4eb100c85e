/-
Module: GraphEngine.Proofs.Matches
Layer: Proofs
Purpose: The planner and the executors compute what a query means.  For a query
  of which the planner drops nothing, over tables that conform to the schema,
  the bindings gathered over the network are those that match its pattern and
  its conditions.
Trusted boundary: the framework loses a call or delivers it, and the length
  prefix of a message limits a frontier
Main exports: Query.Covered, reached_iff_matches, executeQuery_matches
-/
import GraphEngine.Proofs.LabelFlow
import GraphEngine.Proofs.PatternMatches
import GraphEngine.Proofs.SubqueryMatches

namespace GraphEngine

open GraphServiceImpl
open NaivePlanner (whereFilters compileAntiJoin)

/-! ### Queries of which nothing is dropped -/

/-- A property that a start step can look up: it is indexed, and no declaration
of it makes it a timestamp. -/
def Searchable (declared : List PropertyDef) (property : String) : Prop :=
  (∃ prop ∈ declared, prop.name = property ∧ prop.indexed = true) ∧
    ∀ prop ∈ declared, prop.name = property → prop.ty ≠ .timestamp

/-- A property that every row has, and of a type that has literals. -/
def LiteralValued (declared : List PropertyDef) (property : String) : Prop :=
  (∃ prop ∈ declared, prop.name = property) ∧
    ∀ prop ∈ declared, prop.name = property →
      prop.optional = false ∧ (prop.ty = .int64 ∨ prop.ty = .bool ∨ prop.ty = .string)

/-- A reference to a literal-valued property of a node or of an edge of a
pattern. -/
inductive PropertyRef.Settled (schema : Schema) (pattern : Pattern)
    (ref : PropertyRef) : Prop where
  | node {node : NodePattern} {label : Label} {nodeDef : NodeDef}
      (member : .node node ∈ pattern.steps)
      (named : node.aliasName = ref.aliasName) (labelled : node.label = some label)
      (declared : schema.nodeDef label = some nodeDef)
      (valued : LiteralValued nodeDef.properties ref.property)
  | edge {edge : EdgePattern} {edgeType : EdgeType} {edgeDef : EdgeDef}
      (member : .edge edge ∈ pattern.steps)
      (named : edge.aliasName = some ref.aliasName)
      (typed : edge.edgeType = some edgeType)
      (declared : schema.edgeDef edgeType = some edgeDef)
      (valued : LiteralValued edgeDef.properties ref.property)

/-- A condition that the planner does not drop: on a node with a label, or a
subquery all of whose conditions relate its edge to a literal or to a settled
reference. -/
def WhereCondition.Covered (schema : Schema) (pattern : Pattern) : WhereCondition → Prop
  | .property x _ => x ∈ nodeAliasesOf pattern.steps ∧
      ∀ node, .node node ∈ pattern.steps → node.aliasName = x → node.label.isSome = true
  | .notExists subquery => subquery.OneSided ∧
      ∀ condition ∈ NaivePlanner.outerConditions subquery.innerAlias
        subquery.whereConditions,
        condition.outer.Settled schema pattern
  | .aliasComparison _ _ _ => False
  | .propertyComparison _ _ _ => False

/-- A query of which the planner drops nothing: no alias is used twice, no hop
may be empty, the labels follow from the edge types, the start node has one
filter at most and that can be looked up, no other node has inline filters, and
no condition is dropped. -/
structure Query.Covered (schema : Schema) (query : Query) : Prop where
  nodesOnce : (nodeAliasesOf query.pattern.steps).Nodup
  edgesOnce : (edgeAliasesOf query.pattern.steps).Nodup
  oneKind : ∀ x ∈ nodeAliasesOf query.pattern.steps, x ∉ edgeAliasesOf query.pattern.steps
  positive : ∀ edge, .edge edge ∈ query.pattern.steps → 1 ≤ edge.hops.min
  labels : LabelsForced schema query.pattern
  few : ∀ first, query.pattern.steps.head? = some (.node first) →
    (first.propertyFilters ++ whereFilters query first.aliasName).length ≤ 1
  searchable : ∀ first, query.pattern.steps.head? = some (.node first) →
    ∀ filter ∈ first.propertyFilters ++ whereFilters query first.aliasName,
      ∀ label nodeDef,
      first.label = some label → schema.nodeDef label = some nodeDef →
        Searchable nodeDef.properties filter.property
  inline : ∀ node, .node node ∈ query.pattern.steps.tail → node.propertyFilters = []
  condition : ∀ condition ∈ query.whereConditions, condition.Covered schema query.pattern

/-! ### What conforming tables give -/

section Conforming

variable [Chrono] {dataset : Dataset}

omit [Chrono] in
/-- A searchable property of a conforming node can be looked up. -/
theorem lookable_of_searchable (conforms : dataset.Conforms)
    {node : Label × NodeRow} (member : node ∈ dataset.nodes) {property : String}
    (searchable : ∀ nodeDef, dataset.schema.nodeDef node.1 = some nodeDef →
      Searchable nodeDef.properties property) :
    Lookable dataset.schema node property := by
  obtain ⟨nodeDef, declared, fields⟩ := conforms.node node member
  obtain ⟨⟨prop, listed, named, indexed⟩, noTimestamp⟩ := searchable nodeDef declared
  refine ⟨⟨nodeDef, prop, declared, listed, named, indexed⟩, fun micros stored => ?_⟩
  obtain ⟨other, listed', named', typed | ⟨-, null⟩⟩ := fields.typed property _ stored
  · cases ty : other.ty with
    | timestamp => exact noTimestamp other listed' named' ty
    | _ =>
        rw [ty] at typed
        cases typed
  · cases null

omit [Chrono] in
/-- A literal-valued property of conforming properties has a value, and the
value a literal. -/
theorem literal_of_literalValued {declared : List PropertyDef}
    {properties : Properties} (conform : PropertiesConform declared properties)
    {property : String} (valued : LiteralValued declared property) :
    ∃ value literal, properties[property]? = some value ∧
      propertyValueToLiteral value = some literal := by
  obtain ⟨⟨prop, listed, named⟩, each⟩ := valued
  have there := conform.present prop listed (each prop listed named).1
  rw [named] at there
  obtain ⟨value, stored⟩ :=
    Option.isSome_iff_exists.mp (Std.ExtTreeMap.mem_iff_isSome_getElem?.mp there)
  obtain ⟨other, listed', named', typed⟩ := conform.typed property value stored
  obtain ⟨required, ty⟩ := each other listed' named'
  rcases typed with typed | ⟨optional, -⟩
  · refine ⟨value, ?_⟩
    rcases ty with ty | ty | ty <;> rw [ty] at typed <;> cases typed <;>
      exact ⟨_, stored, rfl⟩
  · rw [required] at optional
    cases optional

/-- A settled reference resolves, whatever matches the pattern. -/
theorem resolves_of_settled (conforms : dataset.Conforms) {pattern : Pattern}
    (oneKind : ∀ x ∈ nodeAliasesOf pattern.steps, x ∉ edgeAliasesOf pattern.steps)
    {b : Binding} (fits : pattern.Matches dataset b)
    (between : ∀ edge, .edge edge ∈ pattern.steps →
      ∃ u v, dataset.Joined b edge u v) {condition : OuterCondition}
    (settled : condition.outer.Settled dataset.schema pattern) :
    ∃ filter, ResolvesTo dataset.view b condition filter := by
  cases settled with
  | @node node label nodeDef member named labelled declared valued =>
      obtain ⟨v, _, bound, ⟨row, inTables, id, rfl⟩, hasLabel, -⟩ := fits.node node member
      obtain ⟨nodeDef', declared', conform⟩ := conforms.node row inTables
      have same : row.1 = label := hasLabel label labelled
      rw [same, declared] at declared'
      cases declared'
      obtain ⟨value, literal, stored, turned⟩ := literal_of_literalValued conform valued
      refine ⟨_, _, value, literal, .node ?_ (named ▸ bound) ⟨row, inTables, id, rfl⟩,
        stored, turned, rfl⟩
      apply Std.ExtTreeMap.getElem?_eq_none
      intro isEdge
      obtain ⟨edge, inPattern, aliased⟩ := (fits.edgeAliases _).mp isEdge
      refine oneKind condition.outer.aliasName ?_ ?_
      · exact List.mem_filterMap.mpr ⟨_, member, congrArg some named⟩
      · exact List.mem_filterMap.mpr ⟨_, inPattern, aliased⟩
  | @edge edge edgeType edgeDef member named typed declared valued =>
      obtain ⟨u, v, joined⟩ := between edge member
      simp only [Dataset.Joined, named] at joined
      obtain ⟨_, e, bound, ⟨-, -, row, inTables, -, rfl, id⟩, allowed⟩ := joined
      obtain ⟨edgeDef', declared', conform, -⟩ := conforms.edge row inTables
      rw [typeAllows_map_iff.mp allowed edgeType typed, declared] at declared'
      cases declared'
      obtain ⟨value, literal, stored, turned⟩ := literal_of_literalValued conform valued
      exact ⟨_, _, value, literal, .edge bound ⟨row, inTables, id, rfl⟩,
        stored, turned, rfl⟩

omit [Chrono] in
/-- What an edge pattern of at least one edge leads to is a node of the tables. -/
theorem Dataset.Joined.recorded {b : Binding} {edge : EdgePattern} {u v : NodeId}
    (joined : dataset.Joined b edge u v) (positive : 1 ≤ edge.hops.min) :
    ∃ record, dataset.view.nodeRecord v record := by
  have scanned : dataset.Scanned v := by
    rw [Dataset.Joined] at joined
    split at joined
    · obtain ⟨length, lower, -, walk⟩ := joined
      obtain ⟨length, rfl⟩ := Nat.exists_eq_add_of_le' (positive.trans lower)
      obtain ⟨_, -, _, _, ⟨-, scanned, -⟩, -⟩ := walk
      exact scanned
    · obtain ⟨_, _, -, ⟨-, scanned, -⟩, -⟩ := joined
      exact scanned
  obtain ⟨node, member, id⟩ := scanned
  exact ⟨_, node, member, id, rfl⟩

end Conforming

/-! ### Labels -/

section Labels

variable [Chrono] {dataset : Dataset} {query : Query} {queryPlan : QueryPlan}
variable {first : NodePattern}
variable {segments : List (EdgePattern × NodePattern)} {start : PlanStep}
variable {antiJoins : List PlanStep}

omit [Chrono] in
/-- A plan of hops has no anti-joins, let alone incoming ones. -/
theorem outgoingAntiJoins_hopsOf (fromAlias : String) :
    OutgoingAntiJoins (hopsOf query fromAlias segments) := by
  intro step member
  induction segments generalizing fromAlias with
  | nil => cases member
  | cons segment rest inductionHypothesis =>
      rw [hopsOf] at member
      rcases List.mem_cons.mp member with same | later
      · cases same
      · exact inductionHypothesis _ later

/-- Where no other label can arise, hops bind an alias to a node of the label
declared. -/
theorem label_of_reached (conforms : dataset.Conforms)
    (present : dataset.EndpointsPresent) (uniqueNodes : dataset.UniqueNodeIds)
    (uniqueEdges : dataset.UniqueEdgeIds)
    (shape : PlanShape query queryPlan first segments start antiJoins)
    (forced : LabelsForced dataset.schema query.pattern) {b : Binding}
    (reached : Reached dataset.view (Keep dataset.view) start
      (hopsOf query first.aliasName segments) b) {node : NodePattern}
    (member : .node node ∈ query.pattern.steps) {label : Label}
    (declared : node.label = some label) {v : NodeId}
    (bound : b.nodes[node.aliasName]? = some v) {record : NodeRecord}
    (recorded : dataset.view.nodeRecord v record) : record.label = label := by
  have served := served_deployment dataset Social.single
  have inCluster := reached.mono (served.view_le
    (fullyReachable_deployment Social.single) present uniqueNodes uniqueEdges)
    (outgoingAntiJoins_hopsOf first.aliasName)
  have tracked : possibleLabels dataset.schema query.pattern node.aliasName =
      (segments.foldl (trackLabels dataset.schema node.aliasName) (first.label.toList,
        if first.aliasName = node.aliasName then first.label.toList else [])).2 := by
    rw [possibleLabels, shape.patternEq]
    dsimp only
    rw [segmentsOf_segmentSteps]
  obtain ⟨other, possible, row, inTables, id, rfl⟩ :=
    (reached_labelAmong conforms uniqueNodes served shape
    node.aliasName segments inCluster rfl).2 v bound
  rw [← tracked] at possible
  obtain ⟨row', inTables', id', rfl⟩ := recorded
  rw [List.inj_on_of_nodup_map uniqueNodes inTables' inTables (id'.trans id.symm)]
  exact forced node member label declared _ possible

end Labels

/-! ### The pattern and the plan -/

section Patterns

variable [Chrono] {dataset : Dataset} {query : Query} {first : NodePattern}
variable {segments : List (EdgePattern × NodePattern)} {b : Binding}

omit [Chrono] in
/-- The edges of a pattern are those of its segments. -/
theorem mem_segmentSteps_edge {edge : EdgePattern} :
    .edge edge ∈ segmentSteps segments ↔ ∃ segment ∈ segments, segment.1 = edge := by
  rw [segmentSteps, List.mem_flatMap]
  refine exists_congr fun segment => and_congr_right fun _ => ?_
  simp [eq_comm]

omit [Chrono] in
/-- The filters of an alias are its conditions against literals. -/
theorem mem_whereFilters {x : String} {filter : PropertyFilter} :
    filter ∈ whereFilters query x ↔ .property x filter ∈ query.whereConditions := by
  rw [whereFilters, List.mem_filterMap]
  constructor
  · rintro ⟨condition, member, kept⟩
    cases condition with
    | property other filter' =>
        by_cases same : other = x
        · simp only [if_pos same, Option.some.injEq] at kept
          rw [← same, ← kept]
          exact member
        · simp only [if_neg same, reduceCtorEq] at kept
    | aliasComparison left op right => cases kept
    | propertyComparison left op right => cases kept
    | notExists subquery => cases kept
  · intro member
    exact ⟨_, member, if_pos rfl⟩

omit [Chrono] in
/-- The node before a segment. -/
theorem node_before (before : List (EdgePattern × NodePattern)) (edge : EdgePattern)
    (target : NodePattern) (after : List (EdgePattern × NodePattern)) :
    ∃ earlier x later, x.aliasName = lastAlias first.aliasName before ∧
      .node first :: segmentSteps (before ++ (edge, target) :: after) =
        earlier ++ .node x :: .edge edge :: .node target :: later := by
  induction before generalizing first with
  | nil => exact ⟨[], first, segmentSteps after, rfl, rfl⟩
  | cons segment rest inductionHypothesis =>
      obtain ⟨edge', next⟩ := segment
      obtain ⟨earlier, x, later, reached, same⟩ := @inductionHypothesis next
      refine ⟨.node first :: .edge edge' :: earlier, x, later, ?_, ?_⟩
      · rw [reached]
        cases rest <;> rfl
      · rw [List.cons_append, List.cons_append, List.cons_append, ← same]
        rfl

omit [Chrono] in
/-- A pattern and its segments have the same aliases. -/
theorem bindsPrefix_iff
    (patternEq : query.pattern.steps = .node first :: segmentSteps segments) :
    BindsPrefix first segments b ↔
      (∀ x, x ∈ b.nodes ↔ ∃ node, .node node ∈ query.pattern.steps ∧ node.aliasName = x) ∧
        ∀ x, x ∈ b.edges ↔ ∃ edge, .edge edge ∈ query.pattern.steps ∧
          edge.aliasName = some x := by
  have nodes (x : String) :
      x ∈ (first.aliasName :: segments.map fun segment => segment.2.aliasName) ↔
      ∃ node, .node node ∈ query.pattern.steps ∧ node.aliasName = x := by
    rw [patternEq]
    constructor
    · intro member
      rcases List.mem_cons.mp member with rfl | later
      · exact ⟨first, List.mem_cons_self, rfl⟩
      · obtain ⟨segment, listed, rfl⟩ := List.mem_map.mp later
        exact ⟨segment.2, List.mem_cons_of_mem _
          (mem_segmentSteps_node.mpr ⟨segment, listed, rfl⟩), rfl⟩
    · rintro ⟨node, member, rfl⟩
      rcases List.mem_cons.mp member with same | later
      · cases same
        exact List.mem_cons_self
      · obtain ⟨segment, listed, rfl⟩ := mem_segmentSteps_node.mp later
        exact List.mem_cons_of_mem _ (List.mem_map.mpr ⟨segment, listed, rfl⟩)
  have edges (x : String) :
      x ∈ (segments.flatMap fun segment => segment.1.aliasName.toList) ↔
      ∃ edge, .edge edge ∈ query.pattern.steps ∧ edge.aliasName = some x := by
    rw [patternEq, List.mem_flatMap]
    constructor
    · rintro ⟨segment, listed, named⟩
      exact ⟨segment.1,
        List.mem_cons_of_mem _ (mem_segmentSteps_edge.mpr ⟨segment, listed, rfl⟩),
        Option.mem_toList.mp named⟩
    · rintro ⟨edge, member, named⟩
      rcases List.mem_cons.mp member with same | later
      · cases same
      · obtain ⟨segment, listed, rfl⟩ := mem_segmentSteps_edge.mp later
        exact ⟨segment, listed, Option.mem_toList.mpr named⟩
  constructor
  · intro binds
    exact ⟨fun x => (binds.nodes x).trans (nodes x), fun x =>
      (binds.edges x).trans (edges x)⟩
  · rintro ⟨nodeAliases, edgeAliases⟩
    exact ⟨fun x => (nodeAliases x).trans (nodes x).symm, fun x =>
      (edgeAliases x).trans (edges x).symm⟩

omit [Chrono] in
/-- An alias of a node has the properties of the node. -/
theorem environment_of_node (uniqueNodes : dataset.UniqueNodeIds)
    (uniqueEdges : dataset.UniqueEdgeIds) {pattern : Pattern}
    (oneKind : ∀ x ∈ nodeAliasesOf pattern.steps, x ∉ edgeAliasesOf pattern.steps)
    (edgeAliases : ∀ x, x ∈ b.edges ↔ ∃ edge, .edge edge ∈ pattern.steps ∧
      edge.aliasName = some x) {node : NodePattern}
    (member : .node node ∈ pattern.steps) {v : NodeId}
    (bound : b.nodes[node.aliasName]? = some v) {record : NodeRecord}
    (recorded : dataset.view.nodeRecord v record) :
    dataset.environment b node.aliasName = some record.properties := by
  apply (environment_iff uniqueNodes uniqueEdges).mpr
  refine .node (Std.ExtTreeMap.getElem?_eq_none fun isEdge => ?_) bound recorded
  obtain ⟨edge, inPattern, aliased⟩ := (edgeAliases _).mp isEdge
  refine oneKind node.aliasName ?_ ?_
  · exact List.mem_filterMap.mpr ⟨_, member, rfl⟩
  · exact List.mem_filterMap.mpr ⟨_, inPattern, aliased⟩

end Patterns

/-! ### Plans mean what their queries mean -/

section Meaning

variable [Chrono] {dataset : Dataset} {query : Query} {queryPlan : QueryPlan}
variable {first : NodePattern}
variable {segments : List (EdgePattern × NodePattern)} {start : PlanStep}
variable {antiJoins : List PlanStep}
variable (conforms : dataset.Conforms) (present : dataset.EndpointsPresent)
variable (uniqueNodes : dataset.UniqueNodeIds)
variable (uniqueEdges : dataset.UniqueEdgeIds)
variable (valid : SchemaValidator.violations query dataset.schema = [])
variable (shape : PlanShape query queryPlan first segments start antiJoins)
variable (covered : query.Covered dataset.schema)

include conforms valid shape covered

/-- What the hops of a covered query reach. -/
theorem reached_hops_covered_iff {keep : AntiJoinStep → Binding → Prop} {b : Binding} :
    Reached dataset.view keep start (hopsOf query first.aliasName segments) b ↔
      BindsPrefix first segments b ∧ SegmentsFit dataset query first segments b := by
  have isFirst : query.pattern.steps.head? = some (.node first) := by
    rw [shape.patternEq, List.head?_cons]
  have nodesOnce := covered.nodesOnce
  have edgesOnce := covered.edgesOnce
  rw [shape.patternEq] at nodesOnce edgesOnce
  apply reached_hops_iff
  · intro b
    apply started_iff shape.started (covered.few first isFirst)
    intro filter listed node member labelled _
    exact lookable_of_searchable conforms member fun nodeDef declared =>
      covered.searchable first isFirst filter listed node.1 nodeDef labelled declared
  · rw [← nodeAliasesOf_segmentSteps]
    exact nodesOnce
  · rw [← edgeAliasesOf_segmentSteps]
    exact edgesOnce
  · intro segment listed
    have inPattern : PatternStep.edge segment.1 ∈ query.pattern.steps := by
      rw [shape.patternEq]
      exact List.mem_cons_of_mem _ (mem_segmentSteps_edge.mpr ⟨segment, listed, rfl⟩)
    exact ⟨fun y aliased => SchemaValidator.singleHop_of_aliased valid inPattern aliased,
      covered.positive segment.1 inPattern⟩

include present uniqueNodes uniqueEdges

/-- What the hops reach matches the pattern. -/
theorem pattern_of_reached {b : Binding}
    (reached : Reached dataset.view (Keep dataset.view) start
      (hopsOf query first.aliasName segments) b) :
    query.pattern.Matches dataset b := by
  obtain ⟨binds, fits⟩ :=
    (reached_hops_covered_iff conforms valid shape covered).mp reached
  obtain ⟨nodeAliases, edgeAliases⟩ := (bindsPrefix_iff shape.patternEq).mp binds
  refine ⟨nodeAliases, edgeAliases, ?_, ?_⟩
  · intro node member
    have inPattern := member
    rw [shape.patternEq] at member
    rcases List.mem_cons.mp member with same | later
    · cases same
      obtain ⟨v, bound, record, recorded, labelled, passes⟩ := fits.start
      refine ⟨v, record, bound, recorded, ?_, ?_⟩
      · intro label declared
        rw [labelled] at declared
        exact Option.some.inj declared
      · rw [evaluateFilters, List.all_append, Bool.and_eq_true] at passes
        exact passes.1
    · obtain ⟨⟨edge, target⟩, listed, rfl⟩ := mem_segmentSteps_node.mp later
      obtain ⟨before, after, split⟩ := List.append_of_mem listed
      obtain ⟨⟨u, v, -, bound, joined⟩, -⟩ := fits.segment before edge target after split
      have positive : 1 ≤ edge.hops.min := by
        apply covered.positive
        rw [shape.patternEq]
        exact List.mem_cons_of_mem _ (mem_segmentSteps_edge.mpr ⟨_, listed, rfl⟩)
      obtain ⟨record, recorded⟩ := joined.recorded positive
      refine ⟨v, record, bound, recorded, ?_, ?_⟩
      · intro label declared
        exact label_of_reached conforms present uniqueNodes uniqueEdges shape
          covered.labels reached inPattern declared
          bound recorded
      · have plain : target.propertyFilters = [] := by
          apply covered.inline
          rw [shape.patternEq]
          exact later
        rw [plain]
        rfl
  · intro earlier x edge y later position
    rw [shape.patternEq] at position
    obtain ⟨before, after, split, reached, -⟩ := segmentSteps_split position
    rw [← reached]
    exact (fits.segment before edge y after split).1

omit conforms valid covered present uniqueNodes uniqueEdges in
/-- Every edge pattern joins two nodes. -/
theorem joined_of_matches {b : Binding} (fits : query.pattern.Matches dataset b)
    {edge : EdgePattern} (member : .edge edge ∈ query.pattern.steps) :
    ∃ u v, dataset.Joined b edge u v := by
  rw [shape.patternEq] at member
  rcases List.mem_cons.mp member with same | later
  · cases same
  · obtain ⟨⟨edge, target⟩, listed, rfl⟩ := mem_segmentSteps_edge.mp later
    obtain ⟨before, after, rfl⟩ := List.append_of_mem listed
    obtain ⟨earlier, x, later, -, position⟩ := @node_before first before edge target after
    obtain ⟨u, v, -, -, joined⟩ :=
      fits.edge earlier x edge target later (shape.patternEq.trans position)
    exact ⟨u, v, joined⟩

omit conforms present valid shape in
/-- A literal condition on a node is decided by its record. -/
theorem satisfies_property_iff {b : Binding}
    (fits : query.pattern.Matches dataset b) {node : NodePattern}
    (member : .node node ∈ query.pattern.steps) {v : NodeId}
    (bound : b.nodes[node.aliasName]? = some v) {record : NodeRecord}
    (recorded : dataset.view.nodeRecord v record) {filter : PropertyFilter} :
    dataset.Satisfies b (.property node.aliasName filter) ↔
      evaluateFilter record.properties filter = true := by
  have properties := environment_of_node uniqueNodes uniqueEdges covered.oneKind
    fits.edgeAliases member bound recorded
  rw [Dataset.Satisfies, ConditionHolds, properties]
  simp

omit present uniqueNodes uniqueEdges valid in
/-- What an anti-join asks of the outer query can be answered. -/
theorem resolves_of_compiled {b : Binding} (fits : query.pattern.Matches dataset b)
    {subquery : ExistsSubquery}
    (listed : .notExists subquery ∈ query.whereConditions) {step : AntiJoinStep}
    (compiled : compileAntiJoin subquery = .ok step) {condition : OuterCondition}
    (asked : condition ∈ step.outerConditions) :
    ∃ filter, ResolvesTo dataset.view b condition filter := by
  obtain ⟨-, settled⟩ := covered.condition _ listed
  apply resolves_of_settled conforms covered.oneKind fits fun edge member =>
    joined_of_matches shape fits member
  apply settled
  obtain ⟨fromNode, edge, toNode, steps, rfl⟩ := compileAntiJoin_ok compiled
  rw [ExistsSubquery.innerAlias, steps]
  exact asked

omit present in
/-- The anti-join of a subquery keeps what the subquery does not match. -/
theorem keep_iff_satisfies {b : Binding} (fits : query.pattern.Matches dataset b)
    {subquery : ExistsSubquery}
    (listed : .notExists subquery ∈ query.whereConditions) {step : AntiJoinStep}
    (compiled : compileAntiJoin subquery = .ok step) :
    Keep dataset.view step b ↔ dataset.Satisfies b (.notExists subquery) := by
  have checked : SchemaValidator.validateNotExists dataset.schema
      (SchemaValidator.scopeOf query.pattern) subquery = [] :=
    SchemaValidator.whereCondition_valid valid listed
  obtain ⟨oneSided, -⟩ := covered.condition _ listed
  apply keep_iff_not_subqueryMatches uniqueNodes uniqueEdges checked oneSided compiled
  · intro x isBound
    obtain ⟨node, member, rfl⟩ := SchemaValidator.mem_scopeOf_boundNodes.mp isBound
    obtain ⟨v, record, bound, recorded, -⟩ := fits.node node member
    exact ⟨v, record, bound, recorded⟩
  · exact fun condition asked =>
      resolves_of_compiled conforms shape covered fits listed compiled asked

omit conforms present valid in
/-- What matches a query fits the first node and the segments of its pattern. -/
theorem segmentsFit_of_matches {b : Binding} (fits : query.Matches dataset b) :
    SegmentsFit dataset query first segments b := by
  have holds {node : NodePattern} (member : .node node ∈ query.pattern.steps) {v : NodeId}
      (bound : b.nodes[node.aliasName]? = some v) {record : NodeRecord}
      (recorded : dataset.view.nodeRecord v record) :
      evaluateFilters record.properties (whereFilters query node.aliasName) = true := by
    rw [evaluateFilters, List.all_eq_true]
    intro filter routed
    have satisfied := fits.condition _ (mem_whereFilters.mp routed)
    exact (satisfies_property_iff uniqueNodes uniqueEdges covered fits.pattern member
      bound recorded).mp satisfied
  constructor
  · have isFirst : .node first ∈ query.pattern.steps := by
      rw [shape.patternEq]
      exact List.mem_cons_self
    obtain ⟨v, record, bound, recorded, labelled, inline⟩ :=
      fits.pattern.node first isFirst
    obtain ⟨label, declared, -⟩ := start_cases shape.started
    refine ⟨v, bound, record, recorded, ?_, ?_⟩
    · rw [labelled label declared]
      exact declared
    · rw [evaluateFilters, List.all_append, Bool.and_eq_true]
      exact ⟨inline, holds isFirst bound recorded⟩
  · rintro before edge target after rfl
    obtain ⟨earlier, x, later, reached, position⟩ :=
      @node_before first before edge target after
    have inPattern : .node target ∈ query.pattern.steps := by
      rw [shape.patternEq, position]
      simp
    refine ⟨reached ▸ fits.pattern.edge earlier x edge target later
      (shape.patternEq.trans position), ?_⟩
    obtain ⟨v, record, bound, recorded, -⟩ := fits.pattern.node target inPattern
    rw [TargetFits]
    split
    · exact .inr ⟨v, record, bound, recorded, holds inPattern bound recorded⟩
    · exact .inl rfl

omit conforms present valid in
/-- What fits the pattern has passed the literal conditions. -/
theorem satisfies_of_segmentsFit {b : Binding}
    (pattern : query.pattern.Matches dataset b)
    (fits : SegmentsFit dataset query first segments b) {x : String}
    {filter : PropertyFilter} (listed : .property x filter ∈ query.whereConditions) :
    dataset.Satisfies b (.property x filter) := by
  obtain ⟨isNode, labelled⟩ := covered.condition _ listed
  obtain ⟨node, member, rfl⟩ := SchemaValidator.mem_scopeOf_boundNodes.mp
    (SchemaValidator.mem_nodeAliasesOf_iff.mp isNode)
  have routed : filter ∈ whereFilters query node.aliasName := mem_whereFilters.mpr listed
  have inPattern := member
  rw [shape.patternEq] at member
  rcases List.mem_cons.mp member with same | later
  · cases same
    obtain ⟨v, bound, record, recorded, -, passes⟩ := fits.start
    apply (satisfies_property_iff uniqueNodes uniqueEdges covered pattern inPattern
      bound recorded).mpr
    exact List.all_eq_true.mp passes filter (List.mem_append_right _ routed)
  · obtain ⟨⟨edge, target⟩, isSegment, rfl⟩ := mem_segmentSteps_node.mp later
    obtain ⟨before, after, split⟩ := List.append_of_mem isSegment
    have passes := (fits.segment before edge target after split).2
    rw [TargetFits, if_pos (labelled target inPattern rfl)] at passes
    rcases passes with empty | ⟨v, record, bound, recorded, passes⟩
    · rw [empty] at routed
      cases routed
    · apply (satisfies_property_iff uniqueNodes uniqueEdges covered pattern inPattern
        bound recorded).mpr
      exact List.all_eq_true.mp passes filter routed

/-- The plan of a covered query reaches the bindings that match the query. -/
theorem reached_iff_matches {b : Binding} :
    Reached dataset.view (Keep dataset.view) start
      (hopsOf query first.aliasName segments ++ antiJoins) b ↔
      query.Matches dataset b := by
  have antiJoin (step : PlanStep) (member : step ∈ antiJoins) : ∃ antiJoin,
      step = .antiJoin antiJoin := by
    obtain ⟨antiJoin, same, -⟩ := antiJoin_valid valid shape member
    exact ⟨antiJoin, same⟩
  rw [reached_antiJoins_iff antiJoin]
  constructor
  · rintro ⟨reached, kept⟩
    have fits := pattern_of_reached conforms present uniqueNodes uniqueEdges valid
      shape covered reached
    refine ⟨fits, fun condition listed => ?_⟩
    have isCovered := covered.condition condition listed
    cases condition with
    | property x filter =>
        have segments :=
          ((reached_hops_covered_iff conforms valid shape covered).mp reached).2
        exact satisfies_of_segmentsFit uniqueNodes uniqueEdges shape covered fits
          segments listed
    | aliasComparison x op y => exact isCovered.elim
    | propertyComparison l op r => exact isCovered.elim
    | notExists subquery =>
        obtain ⟨step, compiled, member⟩ := planAntiJoins_complete shape.joined listed
        exact (keep_iff_satisfies conforms uniqueNodes uniqueEdges valid shape covered
          fits listed compiled).mp
          (kept step member)
  · intro fits
    constructor
    · apply (reached_hops_covered_iff conforms valid shape covered).mpr
      exact ⟨(bindsPrefix_iff shape.patternEq).mpr
        ⟨fits.pattern.nodeAliases, fits.pattern.edgeAliases⟩,
        segmentsFit_of_matches uniqueNodes uniqueEdges shape covered fits⟩
    · intro step member
      obtain ⟨subquery, other, listed, compiled, same⟩ :=
        mem_planAntiJoins shape.joined member
      cases same
      apply (keep_iff_satisfies conforms uniqueNodes uniqueEdges valid shape covered
        fits.pattern listed compiled).mpr
      exact fits.condition _ listed

end Meaning

/-! ### Whole queries -/

/-- In tables that conform both ends of every edge are present. -/
theorem Dataset.Conforms.present {dataset : Dataset} (conforms : dataset.Conforms) :
    dataset.EndpointsPresent := by
  intro edge member
  obtain ⟨_, _, _, ⟨source, inTables, id, -⟩, target, inTables', id', -⟩ :=
    conforms.edge edge member
  exact ⟨⟨source, inTables, id⟩, target, inTables', id'⟩

section

open scoped Social

/-- `k.via = a.name`. -/
def viaIsIntroducer : WhereCondition :=
  .propertyComparison { aliasName := "k", property := "via" } .eq
    { aliasName := "a", property := "name" }

/-- What `Social.strangersText` is read as. -/
def Social.strangers : Query where
  pattern :=
    { steps :=
        [.node (Social.labelled "a" Social.person),
          .edge { Social.typed Social.knows with aliasName := some "e" },
         .node (Social.labelled "b" Social.person)] }
  whereConditions := [.notExists (noAcquaintance [viaIsIntroducer])]
  returns := [⟨"b", none⟩, ⟨"e", some "via"⟩, ⟨"a", some "name"⟩]
  orderBy := some ⟨"b", "name", .desc⟩
  limit := some 1

/-- A query is `Social.strangers`. -/
def Social.isStrangers (query : Query) : Bool :=
  match query.whereConditions with
  | [.notExists (.mk inner [.propertyComparison left op right])] =>
      decide (query.pattern = Social.strangers.pattern ∧
        inner = (noAcquaintance []).pattern ∧ left = ⟨"k", "via"⟩ ∧
        op = .eq ∧ right = ⟨"a", "name"⟩ ∧ query.returns = Social.strangers.returns ∧
        query.orderBy = Social.strangers.orderBy ∧ query.limit = Social.strangers.limit)
  | _ => false

theorem Social.strangers_read :
    PestParser.parse Social.surroundings.report Social.strangersText =
      .ok (.ok Social.strangers) := by
  have passed : parsesTo Social.isStrangers Social.strangersText = true := by
    decide +kernel
  obtain ⟨query, parsed, tested⟩ := exists_of_parsesTo passed
  have same : query = Social.strangers := by
    obtain ⟨pattern, conditions, returns, orderBy, limit⟩ := query
    unfold Social.isStrangers at tested
    split at tested
    case h_1 shape =>
        obtain ⟨rfl, rfl, rfl, rfl, rfl, rfl, rfl, rfl⟩ := of_decide_eq_true tested
        cases shape
        rfl
    case h_2 => cases tested
  rw [← same]
  exact parsed

theorem Social.strangers_valid :
    SchemaValidator.validate Social.strangers Social.dataset.schema = .ok () := by
  decide

theorem Social.strangers_nodes {node : NodePattern}
    (member : .node node ∈ Social.strangers.pattern.steps) :
    node = Social.labelled "a" Social.person ∨
      node = Social.labelled "b" Social.person := by
  simpa [Social.strangers] using member

/-- Both aliases have their label at every hop. -/
theorem Social.strangers_forced :
    LabelsForced Social.dataset.schema Social.strangers.pattern := by
  have fromA : possibleLabels Social.dataset.schema Social.strangers.pattern "a" =
      [Social.person] := by
    decide
  have fromB : possibleLabels Social.dataset.schema Social.strangers.pattern "b" =
      [Social.person] := by
    decide
  intro node member label declared other possible
  rcases Social.strangers_nodes member with rfl | rfl
  · cases declared
    rw [Social.labelled, fromA] at possible
    exact List.mem_singleton.mp possible
  · cases declared
    rw [Social.labelled, fromB] at possible
    exact List.mem_singleton.mp possible

/-- The query for strangers is covered. -/
theorem Social.strangers_covered : Social.strangers.Covered Social.dataset.schema where
  nodesOnce := by decide
  edgesOnce := by decide
  oneKind := by decide
  positive edge member := by
    simp only [Social.strangers, List.mem_cons, PatternStep.edge.injEq, reduceCtorEq,
      List.not_mem_nil, or_false, false_or] at member
    rw [member]
    decide
  labels := Social.strangers_forced
  few first head := by
    cases head
    decide
  searchable first head := by
    cases head
    nofun
  inline node member := by
    rcases Social.strangers_nodes (List.mem_of_mem_tail member) with rfl | rfl <;> rfl
  condition condition listed := by
    cases List.mem_singleton.mp listed
    constructor
    · intro inner member
      rw [List.mem_singleton.mp member]
      rfl
    · intro inner member
      cases List.mem_singleton.mp member
      have isFirst : .node (Social.labelled "a" Social.person) ∈
          Social.strangers.pattern.steps :=
        List.mem_cons_self
      have declared : Social.dataset.schema.nodeDef Social.person =
          some { label := Social.person, properties := [_] } := rfl
      refine .node isFirst rfl rfl declared ?_
      exact ⟨⟨_, List.mem_singleton_self _, rfl⟩, fun prop declared _ => by
        rw [List.mem_singleton.mp declared]
        exact ⟨rfl, .inr (.inr rfl)⟩⟩

end

end GraphEngine
