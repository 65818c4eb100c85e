/-
Module: GraphEngine.Proofs.FilterRouting
Layer: Proofs
Purpose: Which property filters of a query reach its result.  The planner routes
  the `WHERE` conditions on a hop target into its hop and one filter on the
  start node into the index lookup; every other filter is lost.  A returned
  binding satisfies all filters if those that are lost hold anyway wherever the
  pattern binds their alias for the last time.
Trusted boundary: none
Main exports: routedFilters, Enforces, HoldsWhereBound, FiltersRouted,
  FiltersHold, filtersHold_of_routed, filtersHold_fails_inline
-/
import GraphEngine.Proofs.Topology

namespace GraphEngine

open NaivePlanner (startFilter whereFilters hopStep)

/-! ### Where filters go -/

/-- The filter that the start step of a query looks up in the property index. -/
def startLookup (query : Query) : Option PropertyFilter :=
  match query.pattern.steps with
  | .node first :: _ =>
      (startFilter first (whereFilters query first.aliasName)).toOption.join
  | _ => none

/-- The last node of some steps with a given alias. -/
def lastNode (x : String) (steps : List PatternStep) : Option NodePattern :=
  (steps.filterMap fun step =>
    match step with
    | .node node => if node.aliasName = x then some node else none
    | .edge _ => none).getLast?

/-- The filters checked when an alias is bound for the last time: those of the
hop that binds it, or else the one that the start step looks up. -/
def routedFilters (query : Query) (x : String) : List PropertyFilter :=
  match lastNode x query.pattern.steps.tail with
  | some target => if target.label.isSome then whereFilters query x else []
  | none =>
      if x ∈ nodeAliasesOf (query.pattern.steps.take 1)
        then (startLookup query).toList else []

/-- The last node of an alias is in the later steps, or in the earlier if these
do not have it. -/
theorem lastNode_append (x : String) (steps later : List PatternStep) :
    lastNode x (steps ++ later) = (lastNode x later).or (lastNode x steps) := by
  rw [lastNode, List.filterMap_append, List.getLast?_append]
  rfl

/-- An alias that no step has, has no last node. -/
theorem lastNode_eq_none {x : String} {steps : List PatternStep}
    (outside : x ∉ nodeAliasesOf steps) : lastNode x steps = none := by
  rw [lastNode, List.getLast?_eq_none_iff, List.filterMap_eq_nil_iff]
  intro step member
  cases step with
  | edge edge => rfl
  | node node =>
      apply if_neg
      rintro rfl
      exact outside (mem_nodeAliasesOf member)

/-- The hop that binds an alias for the last time carries the filters routed to
the alias. -/
theorem routedFilters_of_hop {query : Query} {front back : List PatternStep}
    {u y : NodePattern} {edge : EdgePattern}
    (position : query.pattern.steps = front ++ .node u :: .edge edge ::
      .node y :: back) (outside : y.aliasName ∉ nodeAliasesOf back) :
    routedFilters query y.aliasName = (hopStep query u.aliasName edge y).filters := by
  have last : lastNode y.aliasName query.pattern.steps.tail = some y := by
    obtain ⟨earlier, tail⟩ : ∃ earlier,
        query.pattern.steps.tail = earlier ++ ([.edge edge, .node y] ++ back) := by
      rw [position]
      cases front with
      | nil => exact ⟨[], rfl⟩
      | cons step front => exact ⟨front ++ [.node u], by simp⟩
    rw [tail, lastNode_append, lastNode_append, lastNode_eq_none outside, Option.none_or]
    have here : lastNode y.aliasName [.edge edge, .node y] = some y := by
      simp [lastNode]
    rw [here, Option.some_or]
  rw [routedFilters, last]
  rfl

/-- The filters routed to an alias that no hop binds are those that the start
step looks up. -/
theorem routedFilters_of_start {query : Query} {first : NodePattern}
    {rest : List PatternStep} (position : query.pattern.steps = .node first :: rest)
    (outside : first.aliasName ∉ nodeAliasesOf rest) :
    routedFilters query first.aliasName = (startLookup query).toList := by
  have tail : query.pattern.steps.tail = rest := by rw [position]; rfl
  have isFirst : first.aliasName ∈ nodeAliasesOf (query.pattern.steps.take 1) := by
    rw [position]
    exact List.mem_singleton_self _
  rw [routedFilters, tail, lastNode_eq_none outside]
  exact if_pos isFirst

/-- Rows that share an id have the same properties. -/
def Dataset.PropertiesAgree (dataset : Dataset) : Prop :=
  ∀ node ∈ dataset.nodes, ∀ other ∈ dataset.nodes, node.2.id = other.2.id →
    node.2.properties = other.2.properties

/-- Where ids are unique rows of one id agree. -/
theorem Dataset.UniqueNodeIds.propertiesAgree {dataset : Dataset}
    (unique : dataset.UniqueNodeIds) : dataset.PropertiesAgree := by
  intro node member other member' same
  have equal : node = other := List.inj_on_of_nodup_map unique member member' same
  rw [equal]

section Routing

variable [Chrono]

/-- Whatever passes the filters that are routed passes this one too. -/
def Enforces (routed : List PropertyFilter) (filter : PropertyFilter) : Prop :=
  ∀ properties, evaluateFilters properties routed = true →
    evaluateFilter properties filter = true

/-- The record of the node bound to `x` satisfies a filter. -/
def RecordSatisfies (V : GraphView) (b : Binding) (x : String)
    (filter : PropertyFilter) : Prop :=
  ∃ v record, b.nodes[x]? = some v ∧ V.nodeRecord v record ∧
    evaluateFilter record.properties filter = true

/-- Wherever the pattern binds the node alias `x` for the last time, by a hop
that is really made or by the start step, the record of the node found satisfies
the filter. -/
structure HoldsWhereBound (V : GraphView) (query : Query) (x : String)
    (filter : PropertyFilter) : Prop where
  hop : ∀ front u edge y back a b,
    query.pattern.steps = front ++ .node u :: .edge edge :: .node y :: back →
    y.aliasName = x → x ∉ nodeAliasesOf back → HopMade V query front u edge y a b →
    RecordSatisfies V b x filter
  start : ∀ first rest a, query.pattern.steps = .node first :: rest →
    first.aliasName = x → x ∉ nodeAliasesOf rest → PartialMatch V query [.node first] a →
    RecordSatisfies V a x filter

/-- Wherever the pattern binds the edge alias `x` for the last time, by a hop
that is really made, the record of the edge found satisfies the filter. -/
def EdgeHoldsWhereBound (V : GraphView) (query : Query) (x : String)
    (filter : PropertyFilter) : Prop :=
  ∀ front u edge y back a b,
    query.pattern.steps = front ++ .node u :: .edge edge :: .node y :: back →
    edge.aliasName = some x → x ∉ edgeAliasesOf back →
      HopMade V query front u edge y a b →
    ∃ e record, b.edges[x]? = some e ∧ V.edgeRecord e record ∧
      evaluateFilter record.properties filter = true

/-- Nothing is lost that matters.  Every inline filter, and every literal
`WHERE` condition on a node alias, follows from the filters that the planner
routes to its alias, or it holds anyway wherever the alias is bound for the last
time; so does every literal `WHERE` condition on an edge alias, none of which is
routed anywhere.  And a start lookup finds only nodes whose record satisfies
what was looked up, which rows that share an id may break. -/
structure FiltersRouted (V : GraphView) (query : Query) : Prop where
  inline : ∀ node, .node node ∈ query.pattern.steps → ∀ filter ∈ node.propertyFilters,
    Enforces (routedFilters query node.aliasName) filter ∨
      HoldsWhereBound V query node.aliasName filter
  condition : ∀ x filter, .property x filter ∈ query.whereConditions →
    x ∉ edgeAliasesOf query.pattern.steps →
    Enforces (routedFilters query x) filter ∨ HoldsWhereBound V query x filter
  edgeCondition : ∀ x filter, .property x filter ∈ query.whereConditions →
    x ∈ edgeAliasesOf query.pattern.steps → EdgeHoldsWhereBound V query x filter
  lookup : ∀ first rest filter a, query.pattern.steps = .node first :: rest →
    first.aliasName ∉ nodeAliasesOf rest → startLookup query = some filter →
    PartialMatch V query [.node first] a → RecordSatisfies V a first.aliasName filter

/-- A binding satisfies every literal filter of the query: the inline ones on
the record of the node bound, those of the `WHERE` clause on the record of
whatever is bound. -/
structure FiltersHold (V : GraphView) (query : Query) (b : Binding) : Prop where
  inline : ∀ node, .node node ∈ query.pattern.steps → ∀ filter ∈ node.propertyFilters,
    ∃ v record, b.nodes[node.aliasName]? = some v ∧ V.nodeRecord v record ∧
      evaluateFilter record.properties filter = true
  condition : ∀ x filter, .property x filter ∈ query.whereConditions →
    ∃ properties, BoundProperties V b x properties ∧
      evaluateFilter properties filter = true

/-- Without filters nothing is enforced: the empty record passes no filter. -/
theorem not_enforces_nil (filter : PropertyFilter) : ¬ Enforces [] filter := by
  intro enforced
  have holds := enforced ∅ rfl
  simp [evaluateFilter] at holds

/-- A filter that is routed is enforced. -/
theorem enforces_of_mem {routed : List PropertyFilter} {filter : PropertyFilter}
    (member : filter ∈ routed) : Enforces routed filter := by
  intro properties holds
  exact List.all_eq_true.mp holds filter member

/-! ### Keys of the index -/

omit [Chrono] in
theorem PropertyKey.compare_int64 (v w : Int) :
    compare (PropertyKey.int64 v) (.int64 w) = compare v w := by
  show (compare 0 0).then ((compare v w).then (compare "" "")) = compare v w
  simp

omit [Chrono] in
theorem PropertyKey.compare_bool (v w : Bool) :
    compare (PropertyKey.bool v) (.bool w) = compare v w := by
  cases v <;> cases w <;> decide

omit [Chrono] in
theorem PropertyKey.compare_string (v w : String) :
    compare (PropertyKey.string v) (.string w) = compare v w := by
  show (compare 2 2).then ((compare (0 : Int) 0).then (compare v w)) = compare v w
  simp

/-- A value and a literal with keys of one kind compare as their keys do. -/
theorem literalOrdering_of_keys {value : PropertyValue} {literal : Literal}
    {key key' : PropertyKey} (indexed : propertyKey value = some key')
    (keyed : literalToPropertyKey literal = .ok key)
    (variant : key'.variant = key.variant) :
    literalOrdering value literal = some (compare key' key) := by
  cases literal <;> cases keyed <;> cases value <;> cases indexed <;> try cases variant
  case int64.refl.int64.refl => rw [PropertyKey.compare_int64]; rfl
  case bool.refl.bool.refl => rw [PropertyKey.compare_bool]; rfl
  case string.refl.string.refl => rw [PropertyKey.compare_string]; rfl

/-- A value indexed under the key of a literal equals the literal. -/
theorem literalMatches_of_key {value : PropertyValue} {literal : Literal}
    {key : PropertyKey} (indexed : propertyKey value = some key)
    (keyed : literalToPropertyKey literal = .ok key) :
    literalMatches value .eq literal = true := by
  rw [literalMatches, literalOrdering_of_keys indexed keyed rfl, Std.ReflOrd.compare_self]
  rfl

/-! ### The start lookup -/

/-- A row indexed under the key of a filter satisfies the filter. -/
theorem evaluateFilter_of_indexed {schema : Schema} {node : Label × NodeRow}
    {label : String} {filter : PropertyFilter} {key : PropertyKey}
    (equality : filter.op = .eq)
    (keyed : literalToPropertyKey filter.value = .ok key)
    (indexed : ((label, filter.property), key) ∈ indexedKeys schema node) :
    evaluateFilter node.2.properties filter = true := by
  obtain ⟨-, -, value, stored, valueKey⟩ := (mem_indexedKeys _).mp indexed
  rw [evaluateFilter, stored, equality]
  exact literalMatches_of_key valueKey keyed

variable {dataset : Dataset} {hasher : Partitioning} {partitions : PartitionMap}
variable {serve : GenerationHandle → IndexGeneration}

/-- The record of a node found by the start lookup satisfies the filter looked
up. -/
theorem record_of_started (served : dataset.ServedBy hasher partitions serve)
    (reachable : FullyReachable hasher partitions) (agree : dataset.PropertiesAgree)
    {label : String} {filter : PropertyFilter} {key : PropertyKey}
    (equality : filter.op = .eq)
    (keyed : literalToPropertyKey filter.value = .ok key) {v : NodeId}
    (started : (clusterView hasher (servingOf partitions serve)).started label
      filter.property key v) :
    ∃ record, (clusterView hasher (servingOf partitions serve)).nodeRecord v record ∧
      evaluateFilter record.properties filter = true := by
  rcases served.started_sound started with ⟨node, member, id, indexed⟩
  rcases served.recorded_of_scanned reachable ⟨node, member, id⟩ with ⟨record, recorded⟩
  rcases served.nodeRecord_sound recorded with ⟨other, member', id', rfl⟩
  refine ⟨_, recorded, ?_⟩
  have same : other.2.properties = node.2.properties :=
    agree other member' node member (id'.trans id.symm)
  show evaluateFilter other.2.properties filter = true
  rw [same]
  exact evaluateFilter_of_indexed equality keyed indexed

/-! ### Every binding passes what is routed -/

variable {query : Query} {queryPlan : QueryPlan} {V : GraphView} {a b : Binding}
variable {x : String}

/-- Where rows that share an id agree, a start lookup finds only nodes whose
record satisfies what was looked up. -/
theorem lookup_of_agree (served : dataset.ServedBy hasher partitions serve)
    (reachable : FullyReachable hasher partitions) (agree : dataset.PropertiesAgree)
    {first : NodePattern} {rest : List PatternStep} {filter : PropertyFilter}
    (position : query.pattern.steps = .node first :: rest)
    (looked : startLookup query = some filter)
    (found : PartialMatch (clusterView hasher (servingOf partitions serve)) query
      [.node first] a) :
    RecordSatisfies
      (clusterView hasher (servingOf partitions serve)) a first.aliasName filter := by
  obtain ⟨start, started, startedA⟩ := found.started
  rw [startLookup, position] at looked
  dsimp only at looked
  obtain ⟨label, -, ⟨none, -⟩ | ⟨filter', key, some, equality, keyed, rfl⟩⟩ :=
    start_cases started
  · rw [none] at looked
    cases looked
  · rw [some] at looked
    cases looked
    obtain ⟨v, indexed, rfl⟩ := startedA
    obtain ⟨record, recorded, holds⟩ :=
      record_of_started served reachable agree equality keyed indexed
    refine ⟨v, record, ?_, recorded, holds⟩
    rw [Binding.fromNode_nodes, if_pos rfl]

/-- A hop that is made checks the filters it carries. -/
theorem HopMade.recordSatisfies {front : List PatternStep} {u y : NodePattern}
    {edge : EdgePattern} (hop : HopMade V query front u edge y a b)
    {filter : PropertyFilter}
    (enforced : Enforces (hopStep query u.aliasName edge y).filters filter) :
    RecordSatisfies V b y.aliasName filter := by
  rcases hop.made.2 with none | ⟨v, record, bound, recorded, holds⟩
  · rw [none] at enforced
    exact absurd enforced (not_enforces_nil filter)
  · exact ⟨v, record, bound, recorded, enforced record.properties holds⟩

/-- A filter that follows from those routed to its alias holds wherever the
alias is bound for the last time. -/
theorem holdsWhereBound_of_enforces (routed : FiltersRouted V query)
    {filter : PropertyFilter} (enforced : Enforces (routedFilters query x) filter) :
    HoldsWhereBound V query x filter where
  hop := by
    rintro front u edge y back a b position rfl outside hop
    apply hop.recordSatisfies
    rwa [← routedFilters_of_hop position outside]
  start := by
    rintro first rest a position rfl outside found
    rw [routedFilters_of_start position outside] at enforced
    cases looked : startLookup query with
    | none =>
        rw [looked] at enforced
        exact absurd enforced (not_enforces_nil filter)
    | some lookup =>
        rw [looked] at enforced
        obtain ⟨v, record, bound, recorded, holds⟩ :=
          routed.lookup first rest lookup a position outside looked found
        refine ⟨v, record, bound, recorded, enforced record.properties ?_⟩
        rw [evaluateFilters, Option.toList_some, List.all_cons, holds]
        rfl

/-- What holds wherever an alias is bound for the last time holds in the end. -/
theorem HoldsWhereBound.satisfied {filter : PropertyFilter}
    (holds : HoldsWhereBound V query x filter)
    (found : PartialMatch V query query.pattern.steps b)
    (bound : x ∈ nodeAliasesOf query.pattern.steps) :
    RecordSatisfies V b x filter := by
  rcases found.lastBound bound with
    ⟨first, rest, start, a, position, named, outside, started, startedA, same⟩ |
    ⟨front, u, edge, y, back, a, b', position, named, outside, hop, same⟩
  · have here : PartialMatch V query [.node first] a :=
      ⟨first, [], start, rfl, started, startedA⟩
    obtain ⟨v, record, isBound, rest⟩ :=
      holds.start first rest a position named outside here
    exact ⟨v, record, same.trans isBound, rest⟩
  · obtain ⟨v, record, isBound, rest⟩ :=
      holds.hop front u edge y back a b' position named outside hop
    exact ⟨v, record, same.trans isBound, rest⟩

omit [Chrono] in
/-- A literal condition of a validated query is on an alias of the pattern. -/
theorem mem_aliases_of_condition {schema : Schema}
    (valid : SchemaValidator.violations query schema = []) {filter : PropertyFilter}
    (listed : .property x filter ∈ query.whereConditions) :
    x ∈ nodeAliasesOf query.pattern.steps ∨ x ∈ edgeAliasesOf query.pattern.steps := by
  have checked : SchemaValidator.validatePropertyRef
      (SchemaValidator.scopeOf query.pattern) schema x
      filter.property filter.op = [] := SchemaValidator.whereCondition_valid valid listed
  rw [SchemaValidator.validatePropertyRef] at checked
  cases labelled : (SchemaValidator.scopeOf query.pattern).nodeLabels[x]? with
  | some label =>
      obtain ⟨node, member, rfl, -⟩ := SchemaValidator.node_of_scopeOf labelled
      exact .inl (mem_nodeAliasesOf member)
  | none =>
      cases typed : (SchemaValidator.scopeOf query.pattern).edgeTypes[x]? with
      | none =>
          rw [labelled, typed] at checked
          cases checked
      | some edgeType =>
          obtain ⟨edge, member, named, -⟩ := SchemaValidator.edge_of_scopeOf typed
          exact .inr (List.mem_filterMap.mpr ⟨_, member, named⟩)

/-- Every binding that a validated query returns satisfies all of its inline
filters and literal `WHERE` conditions, if none is lost that matters.

* `valid`, `planned`: the query has passed the validator and is lowered to the
  plan that is executed;
* `routed`: the condition, on the query and on what the partitions serve.  It
  asks nothing of a filter that the planner routes, nor of one that holds anyway
  wherever its alias is bound.

Node and edge ids need not be unique, and no partition need answer. -/
theorem filtersHold_of_routed {schema : Schema}
    (valid : SchemaValidator.validate query schema = .ok ())
    (planned : NaivePlanner.plan query = .ok queryPlan)
    (routed : FiltersRouted (clusterView hasher (servingOf partitions serve)) query)
    {out : List Binding}
    (returns : ((inProcess hasher).execute partitions queryPlan).Returns
      serve (.ok out)) {b : Binding} (member : b ∈ out) :
    FiltersHold (clusterView hasher (servingOf partitions serve)) query b := by
  obtain ⟨first, segments, start, antiJoins, shape⟩ := planShape_of_plan planned
  have checked := SchemaValidator.validate_eq_ok_iff.mp valid
  rw [shape.planEq] at returns
  have reached :=
    (execute_sound hasher partitions serve (wellScoped_of_plan checked shape)
    query.returns).ok returns b member
  have found := shape.partialMatch reached
  constructor
  · intro node inPattern filter inline
    have holds := (routed.inline node inPattern filter inline).elim
      (holdsWhereBound_of_enforces routed) id
    exact holds.satisfied found (mem_nodeAliasesOf inPattern)
  · intro x filter listed
    by_cases isEdge : x ∈ edgeAliasesOf query.pattern.steps
    · obtain ⟨front, u, edge, y, back, a, b', position, named, outside, hop, same⟩ :=
        found.lastEdgeBound isEdge
      obtain ⟨e, record, bound, recorded, holds⟩ :=
        routed.edgeCondition x filter listed isEdge
        front u edge y back a b' position named outside hop
      exact ⟨record.properties, .edge (same.trans bound) recorded, holds⟩
    · have isNode := (mem_aliases_of_condition checked listed).resolve_right isEdge
      have holds := (routed.condition x filter listed isEdge).elim
        (holdsWhereBound_of_enforces routed) id
      obtain ⟨v, record, bound, recorded, passes⟩ := holds.satisfied found isNode
      refine ⟨record.properties, .node ?_ bound recorded, passes⟩
      -- an alias of nodes only is bound to no edge
      by_contra edgeBound
      obtain ⟨e, isBound⟩ := Option.ne_none_iff_exists'.mp edgeBound
      have inEdges := (reached.aliases x).2.mp ((b.mem_edges_iff x).mpr ⟨e, isBound⟩)
      rw [List.flatMap_cons, (start_isStart shape.started).2.2, List.nil_append,
        List.flatMap_append, edgeAliases_hopsOf, (aliases_antiJoins shape).2,
        List.append_nil, ← edgeAliasesOf_segmentSteps] at inEdges
      apply isEdge
      rw [shape.patternEq]
      exact inEdges

end Routing

/-! ### Filters that are routed nowhere -/

section

open scoped Social

/-- `name = value`. -/
def named (value : String) : PropertyFilter :=
  { property := "name", op := .eq, value := .string value }

/-- `MATCH (a:Person {name: "Ann"})-[:KNOWS]->(b:Person) WHERE b.name = "Bob" RETURN
b`. -/
def annKnowsBob : Query :=
  { Social.matching
      [.node { Social.labelled "a" Social.person with propertyFilters := [named "Ann"] },
       .edge (Social.typed Social.knows),
         .node (Social.labelled "b" Social.person)] "b" with
    whereConditions := [.property "b" (named "Bob")] }

/-- What it lowers to. -/
def annKnowsBobPlan : QueryPlan where
  steps :=
    [.resolveStart { aliasName := "a", labelOrType := "Person", property := "name",
                     key := .string "Ann" },
     .expandHop
      { fromAlias := "a", toAlias := "b", toLabel := some "Person",
        edgeType := some "KNOWS"
        direction := .outgoing, hops := { min := 1, max := 1 }, filters := [named "Bob"]
        edgeAlias := none }]
  project := [{ aliasName := "b", property := none }]

theorem annKnowsBob_planned : NaivePlanner.plan annKnowsBob = .ok annKnowsBobPlan := rfl

/-- All filters of the query follow from those routed, and ids are unique. -/
theorem annKnowsBob_routed : FiltersRouted (clusterView Social.single
    (servingOf (deployment Social.single) (Social.dataset.deployed Social.single)))
      annKnowsBob where
  inline := by
    intro node member filter inline
    have patterns : node =
        { Social.labelled "a" Social.person with propertyFilters := [named "Ann"] } ∨
        node = Social.labelled "b" Social.person := by
      simpa [annKnowsBob, Social.matching] using member
    left
    rcases patterns with rfl | rfl
    · apply enforces_of_mem
      rw [List.mem_singleton.mp inline]
      decide
    · cases inline
  condition := by
    intro x filter listed _
    cases List.mem_singleton.mp listed
    exact .inl (enforces_of_mem (by decide))
  edgeCondition := by
    intro x filter _ isEdge
    cases isEdge
  lookup := by
    intro first rest filter a position _ looked found
    exact lookup_of_agree (served_deployment _ _) (fullyReachable_deployment _)
      Social.uniqueNodeIds.propertiesAgree position looked found

/-- The one acquaintance of Ann by the name of Bob is found. -/
theorem annKnowsBob_single :
    ((inProcess Social.single).execute (deployment Social.single) annKnowsBobPlan).run
      (fun _ => Social.dataset.deployed Social.single) Social.inOrder 0 =
        .ok [Social.pair 1 2] := by
  decide +kernel

/-- The filters hold of what is found. -/
theorem annKnowsBob_filtersHold :
    FiltersHold (clusterView Social.single
        (servingOf (deployment Social.single) (Social.dataset.deployed Social.single)))
      annKnowsBob (Social.pair 1 2) :=
  filtersHold_of_routed
    (by decide : SchemaValidator.validate annKnowsBob Social.schema = .ok ())
    annKnowsBob_planned annKnowsBob_routed (annKnowsBob_single ▸
      Client.returns_run _ Social.inOrder 0 _) List.mem_cons_self

/-- `MATCH (a:Person)-[:KNOWS]->(b:Person {name: "Zoe"}) RETURN b`. -/
def knowsZoe : Query :=
  Social.matching
    [.node (Social.labelled "a" Social.person), .edge (Social.typed Social.knows),
     .node { Social.labelled "b" Social.person with
               propertyFilters := [named "Zoe"] }] "b"

/-- The validator accepts the query and the planner lowers it, but an inline
filter on a hop target goes nowhere: the answer is that of the query without the
filter. -/
theorem filtersHold_fails_inline :
    SchemaValidator.validate knowsZoe Social.schema = .ok () ∧
    Social.dataset.UniqueNodeIds ∧ Social.dataset.UniqueEdgeIds ∧
      Social.dataset.EndpointsPresent ∧
    Social.dataset.ServedBy Social.single (deployment Social.single)
      (Social.dataset.deployed Social.single) ∧
    FullyReachable Social.single (deployment Social.single) ∧
    ∃ plan out b, NaivePlanner.plan knowsZoe = .ok plan ∧
      ((inProcess Social.single).execute (deployment Social.single) plan).run
        (fun _ => Social.dataset.deployed Social.single) Social.inOrder 0 =
          .ok out ∧ b ∈ out ∧
      ¬ FiltersHold (clusterView Social.single
          (servingOf (deployment Social.single)
            (Social.dataset.deployed Social.single))) knowsZoe b := by
  refine ⟨by decide, Social.uniqueNodeIds, Social.uniqueEdgeIds, Social.endpointsPresent,
    served_deployment _ _, fullyReachable_deployment _, _,
      [Social.pair 1 2, Social.pair 2 4],
    Social.pair 1 2, rfl, by decide +kernel, List.mem_cons_self, ?_⟩
  intro holds
  rcases holds.inline
    { Social.labelled "b" Social.person with propertyFilters := [named "Zoe"] }
    (by simp [knowsZoe, Social.matching]) (named "Zoe") List.mem_cons_self with
    ⟨v, record, bound, recorded, passes⟩
  have served := served_deployment Social.dataset Social.single
  have nodeB : v = ⟨2⟩ := by
    have found : (Social.pair 1 2).nodes["b"]? = some ⟨2⟩ := by decide
    exact Option.some.inj (bound.symm.trans found)
  rcases served.nodeRecord_sound recorded with ⟨node, member, id, rfl⟩
  have nobody : ∀ node ∈ Social.dataset.nodes, node.2.id = ⟨2⟩ →
      evaluateFilter node.2.properties (named "Zoe") = false := by decide
  have fails := nobody node member (id.trans nodeB)
  rw [fails] at passes
  cases passes

end

end GraphEngine
