/-
Module: GraphEngine.Proofs.PlannerTotality
Layer: Proofs
Purpose: Which parsed and validated queries the planner plans.  The grammar
  alternates nodes and edges and the validator fixes the shape of a
  `NOT EXISTS`, so only the start node can stop the planner.
Trusted boundary: none
Main exports: StartPlannable, alternates_of_parse, plan_returns_iff
-/
import GraphEngine.Proofs.Planning
import GraphEngine.Proofs.QueryText
import GraphEngine.Spec.Dataset

namespace GraphEngine

open NaivePlanner

/-! ### What the grammar gives -/

/-- The pattern is a node followed by edges, each with a node after it. -/
def Pattern.Alternates (pattern : Pattern) : Prop :=
  ∃ first segments, pattern.steps = .node first :: segmentSteps segments

namespace DslParser

open Grammar (leaves_of_derived leaves_sequence_rule leaves_sequence_singleton
  leaves_star leaves_rule)

theorem parsePatternStep_node {pair : Pair DslRule}
    (rule : pair.asRule = .nodePattern) {step : PatternStep}
    (parsed : parsePatternStep pair = .ok step) : ∃ node, step = .node node := by
  rw [parsePatternStep, rule] at parsed
  obtain ⟨node, -, rfl⟩ := map_eq_ok_iff.mp parsed
  exact ⟨node, rfl⟩

theorem parsePatternStep_edge {pair : Pair DslRule}
    (rule : pair.asRule = .edgePattern) {step : PatternStep}
    (parsed : parsePatternStep pair = .ok step) : ∃ edge, step = .edge edge := by
  rw [parsePatternStep, rule] at parsed
  obtain ⟨edge, -, rfl⟩ := map_eq_ok_iff.mp parsed
  exact ⟨edge, rfl⟩

/-- One round of the pattern rule: an edge and the node it leads to. -/
theorem segment_of_leaves {round : List (Pair DslRule)}
    (leaves : dslGrammar.Leaves
      (.sequence [.rule .edgePattern, .rule .nodePattern]) round) :
    ∃ edge node, round = [edge, node] ∧ edge.asRule = .edgePattern ∧
      node.asRule = .nodePattern := by
  rw [leaves_sequence_rule rfl] at leaves
  obtain ⟨edge, rest, rfl, isEdge, -, last⟩ := leaves
  rw [leaves_sequence_singleton, leaves_rule rfl] at last
  obtain ⟨node, rfl, isNode, -⟩ := last
  exact ⟨edge, node, rfl, isEdge, isNode⟩

/-- The steps read from the rounds of the pattern rule. -/
theorem segments_of_rounds {rounds : List (List (Pair DslRule))}
    (each : ∀ round ∈ rounds,
      dslGrammar.Leaves (.sequence [.rule .edgePattern, .rule .nodePattern]) round)
    {steps : List PatternStep}
    (parsed : rounds.flatten.mapM parsePatternStep = .ok steps) :
    ∃ segments, steps = segmentSteps segments := by
  induction rounds generalizing steps with
  | nil =>
      cases parsed
      exact ⟨[], rfl⟩
  | cons round rounds ih =>
      obtain ⟨first, later⟩ := List.forall_mem_cons.mp each
      obtain ⟨edgePair, nodePair, rfl, isEdge, isNode⟩ := segment_of_leaves first
      simp only [List.flatten_cons, List.cons_append, List.nil_append, List.mapM_cons,
        bind_eq_ok_iff] at parsed
      obtain ⟨edgeStep, parsedEdge, _,
          ⟨nodeStep, parsedNode, rest, parsedRest, ⟨⟩⟩, ⟨⟩⟩ :=
        parsed
      obtain ⟨edge, rfl⟩ := parsePatternStep_edge isEdge parsedEdge
      obtain ⟨node, rfl⟩ := parsePatternStep_node isNode parsedNode
      obtain ⟨segments, rfl⟩ := ih later parsedRest
      exact ⟨(edge, node) :: segments, rfl⟩

/-- In a pattern that is parsed nodes and edges take turns. -/
theorem parsePattern_alternates {pair : Pair DslRule}
    (rule : pair.asRule = .pattern) (derived : pair.Derived dslGrammar)
    {pattern : Pattern} (parsed : parsePattern pair = .ok pattern) :
    pattern.Alternates := by
  obtain ⟨_, text, children⟩ := pair
  cases rule
  have leaves : dslGrammar.Leaves (.sequence [.rule .nodePattern,
      .star (.sequence [.rule .edgePattern, .rule .nodePattern])]) children :=
    leaves_of_derived derived rfl
  rw [leaves_sequence_rule rfl] at leaves
  obtain ⟨firstPair, _, rfl, isNode, -, later⟩ := leaves
  rw [leaves_sequence_singleton, leaves_star] at later
  obtain ⟨rounds, rfl, each⟩ := later
  obtain ⟨steps, walked, rfl⟩ := map_eq_ok_iff.mp parsed
  simp only [Pair.intoInner, List.mapM_cons, bind_eq_ok_iff] at walked
  obtain ⟨firstStep, parsedFirst, rest, parsedRest, ⟨⟩⟩ := walked
  obtain ⟨first, rfl⟩ := parsePatternStep_node isNode parsedFirst
  obtain ⟨segments, rfl⟩ := segments_of_rounds each parsedRest
  exact ⟨first, segments, rfl⟩

/-- The walk over a query finds its pattern in a tree of the pattern rule. -/
theorem addQueryPart_alternates {part : Pair DslRule} (derived : part.Derived dslGrammar)
    {parts parts' : QueryParts} (added : addQueryPart parts part = .ok parts')
    (alternates : ∀ pattern, parts.pattern = some pattern → pattern.Alternates) :
    ∀ pattern, parts'.pattern = some pattern → pattern.Alternates := by
  unfold addQueryPart at added
  split at added
  case h_1 rule =>
      obtain ⟨pattern, parsed, rfl⟩ := map_eq_ok_iff.mp added
      rintro _ ⟨⟩
      exact parsePattern_alternates rule derived parsed
  case h_6 =>
      cases added
      exact alternates
  case h_7 => cases added
  all_goals
    obtain ⟨_, _, rfl⟩ := map_eq_ok_iff.mp added
    exact alternates

/-- In a query that is parsed nodes and edges take turns. -/
theorem parseQuery_alternates {pair : Pair DslRule} (rule : pair.asRule = .query)
    (derived : pair.Derived dslGrammar) {query : Query}
    (parsed : parseQuery pair = .ok query) : query.pattern.Alternates := by
  obtain ⟨_, text, children⟩ := pair
  cases rule
  have each := Grammar.entered_of_derived derived rfl queryParts (by decide) (by decide)
  simp only [parseQuery, bind_eq_ok_iff] at parsed
  obtain ⟨parts, walked, pattern, found, ⟨⟩⟩ := parsed
  have kept := foldlM_keeps
    (Q := fun parts => ∀ pattern, parts.pattern = some pattern → pattern.Alternates)
    (fun part member _ _ added => addQueryPart_alternates (each part member).2 added)
      walked (by rintro _ ⟨⟩)
  refine kept pattern ?_
  cases inParts : parts.pattern with
  | none =>
      rw [inParts] at found
      cases found
  | some other =>
      rw [inParts] at found
      cases found
      rfl

end DslParser

/-- A query that is parsed is read from the first pair that the grammar leaves. -/
theorem walked_of_parse {report : String → Nat × String} {source : String}
    {query : Query} (parsed : PestParser.parse report source = .ok (.ok query)) :
    ∃ pair pairs rest,
      dslParse .query source.toList = some (pair :: pairs, rest) ∧
        DslParser.parseQuery pair = .ok query := by
  unfold PestParser.parse at parsed
  cases outcome : dslParse .query source.toList with
  | none =>
      rw [outcome] at parsed
      cases parsed
  | some matched =>
      obtain ⟨pairs, rest⟩ := matched
      rw [outcome] at parsed
      cases pairs with
      | nil => cases parsed
      | cons pair pairs =>
          simp only [List.head?_cons, expect, bind_eq_ok_iff] at parsed
          obtain ⟨_, ⟨⟩, _, walked, ⟨⟩⟩ := parsed
          exact ⟨pair, pairs, rest, rfl, walked⟩

/-- The pattern of every parsed query alternates. -/
theorem alternates_of_parse {report : String → Nat × String} {source : String}
    {query : Query} (parsed : PestParser.parse report source = .ok (.ok query)) :
    query.pattern.Alternates := by
  obtain ⟨pair, pairs, rest, outcome, walked⟩ := walked_of_parse parsed
  obtain ⟨_, ⟨⟩, rule, derived⟩ := Grammar.derived_of_parse rfl outcome
  exact DslParser.parseQuery_alternates rule derived walked

/-! ### What the planner makes of it -/

/-- A pattern that alternates is lowered, whatever its length. -/
theorem planHops_segmentSteps (query : Query) (fromAlias : String) (i : Nat)
    (segments : List (EdgePattern × NodePattern)) :
    planHops query fromAlias i (segmentSteps segments) =
      .ok (hopsOf query fromAlias segments) := by
  induction segments generalizing fromAlias i with
  | nil => rfl
  | cons segment rest ih =>
      obtain ⟨edge, node⟩ := segment
      have steps : segmentSteps ((edge, node) :: rest) = .edge edge :: .node node ::
          segmentSteps rest :=
        rfl
      rw [steps, planHops, ih]
      rfl

/-- A subquery of two nodes and an edge compiles. -/
theorem compileAntiJoin_returns {subquery : ExistsSubquery}
    {fromNode toNode : NodePattern} {edge : EdgePattern}
    (steps : subquery.pattern.steps = [.node fromNode, .edge edge, .node toNode]) :
    Returns (compileAntiJoin subquery) := by
  rw [compileAntiJoin, steps]
  exact returns_ok _

/-- Every `NOT EXISTS` that the validator lets through is compiled. -/
theorem planAntiJoins_returns {schema : Schema} {scope : Scope}
    {conditions : List WhereCondition}
    (valid : ∀ condition ∈ conditions,
      SchemaValidator.validateWhereCondition schema scope condition = []) :
    Returns (planAntiJoins conditions) := by
  fun_induction planAntiJoins conditions with
  | case1 => exact returns_ok _
  | case2 subquery rest ih =>
      obtain ⟨here, later⟩ := List.forall_mem_cons.mp valid
      obtain ⟨fromNode, edge, toNode, steps, -⟩ := SchemaValidator.notExists_valid here
      rw [returns_bind_iff (P := True) fun step => ?_, and_true]
      · exact compileAntiJoin_returns steps
      · exact iff_true_intro
          ((returns_bind_of_forall fun _ => returns_ok _).mpr (ih later))
  | case3 condition rest notSubquery ih => exact ih (List.forall_mem_cons.mp valid).2

/-- The filters that select the start node: the first inline filter, or else the
`WHERE` conditions on its alias. -/
def selectingFilters (query : Query) (first : NodePattern) : List PropertyFilter :=
  match first.propertyFilters.head? with
  | some filter => [filter]
  | none => whereFilters query first.aliasName

/-- A filter that one index lookup answers. -/
def PropertyFilter.IsLookup (filter : PropertyFilter) : Prop :=
  filter.op = .eq ∧ ∀ value, filter.value ≠ .float64 value

/-- The start node is labelled, and at most one filter selects it, an index
lookup. -/
def StartPlannable (query : Query) : Prop :=
  ∃ first, query.pattern.steps.head? = some (.node first) ∧ first.label.isSome ∧
    (selectingFilters query first).length ≤ 1 ∧
      ∀ filter ∈ selectingFilters query first, filter.IsLookup

/-- Every literal but a fraction is a key. -/
theorem literalToPropertyKey_returns {value : Literal} :
    Returns (literalToPropertyKey value) ↔ ∀ v, value ≠ .float64 v := by
  cases value <;> simp [literalToPropertyKey]

/-- The start filter is the only selecting filter. -/
theorem startFilter_eq (query : Query) (first : NodePattern) :
    (selectingFilters query first = [] ∧
        startFilter first (whereFilters query first.aliasName) = .ok none) ∨
      (∃ filter, selectingFilters query first = [filter] ∧
        startFilter first (whereFilters query first.aliasName) = .ok (some filter)) ∨
      (1 < (selectingFilters query first).length ∧
        ¬ Returns (startFilter first (whereFilters query first.aliasName))) := by
  unfold selectingFilters startFilter
  cases first.propertyFilters.head? with
  | some filter => exact .inr (.inl ⟨filter, rfl, rfl⟩)
  | none =>
      rcases whereFilters query first.aliasName with _ | ⟨filter, _ | ⟨other, rest⟩⟩
      · exact .inl ⟨rfl, rfl⟩
      · exact .inr (.inl ⟨filter, rfl, rfl⟩)
      · exact .inr (.inr ⟨by simp, not_returns_error _⟩)

/-- The start step is planned on exactly the start nodes of which
`StartPlannable` speaks. -/
theorem resolveStartOrAllStep_returns {query : Query} {first : NodePattern} :
    Returns (resolveStartOrAllStep first (whereFilters query first.aliasName)) ↔
      first.label.isSome ∧ (selectingFilters query first).length ≤ 1 ∧
        ∀ filter ∈ selectingFilters query first, filter.IsLookup := by
  rw [resolveStartOrAllStep]
  cases labelled : first.label with
  | none => simp [bind, Except.bind]
  | some label =>
      simp only [Option.isSome_some, true_and]
      rcases startFilter_eq query first
        with ⟨only, found⟩ | ⟨filter, only, found⟩ | ⟨several, panics⟩
      · rw [found, only]
        simp [bind, Except.bind]
      · rw [found, only]
        simp only [bind, Except.bind, List.length_singleton, le_refl, true_and,
          List.forall_mem_singleton]
        by_cases equality : filter.op = .eq
        · rw [if_pos equality, PropertyFilter.IsLookup, ← literalToPropertyKey_returns]
          cases literalToPropertyKey filter.value <;> simp [equality]
        · rw [if_neg equality, PropertyFilter.IsLookup]
          simp [equality]
      · refine iff_of_false (fun returns => panics ?_) (by omega)
        cases found : startFilter first (whereFilters query first.aliasName) with
        | ok filter => exact returns_ok _
        | error message => simp [bind, Except.bind, found] at returns

/-- A parsed and validated query is planned if and only if its start node can
be: no pattern shape, length or `NOT EXISTS` stops the planner.

Both hypotheses matter.  A pattern that is parsed takes turns of nodes and
edges, which the planner relies on (`parsed`); and the validator has seen to the
shape of every subquery (`valid`). -/
theorem plan_returns_iff (report : String → Nat × String) (source : String)
    (schema : Schema) (query : Query)
    (parsed : PestParser.parse report source = .ok (.ok query))
    (valid : SchemaValidator.validate query schema = .ok ()) :
    (∃ queryPlan, plan query = .ok queryPlan) ↔ StartPlannable query := by
  obtain ⟨first, segments, steps⟩ := alternates_of_parse parsed
  have joined : Returns (planAntiJoins query.whereConditions) :=
    planAntiJoins_returns fun condition member =>
      SchemaValidator.whereCondition_valid
        (SchemaValidator.validate_eq_ok_iff.mp valid) member
  have whole : Returns (plan query) ↔
      Returns (resolveStartOrAllStep first (whereFilters query first.aliasName)) := by
    rw [plan, steps]
    refine returns_bind_of_forall fun start => ?_
    rw [planHops_segmentSteps]
    exact (returns_bind_of_forall fun _ => returns_ok _).mpr joined
  have plannable : StartPlannable query ↔ first.label.isSome ∧
      (selectingFilters query first).length ≤ 1 ∧
      ∀ filter ∈ selectingFilters query first, filter.IsLookup := by
    simp [StartPlannable, steps]
  rw [plannable, ← resolveStartOrAllStep_returns]
  exact whole

/-! ### The social graph -/

/-- The text parses to a query that passes the test. -/
def parsesTo (test : Query → Bool) (source : String) : Bool :=
  match PestParser.parse (fun _ => (0, "")) source with
  | .ok (.ok query) => test query
  | _ => false

/-- A text that parses to a query that passes a test. -/
theorem exists_of_parsesTo {test : Query → Bool} {source : String}
    (passed : parsesTo test source = true) :
    ∃ query, PestParser.parse (fun _ => (0, "")) source = .ok (.ok query) ∧
      test query = true := by
  unfold parsesTo at passed
  split at passed
  case h_1 query parsed => exact ⟨query, parsed, passed⟩
  case h_2 => cases passed

/-- Ann is looked up. -/
theorem ann_planned : ∃ query,
    PestParser.parse (fun _ => (0, ""))
      "MATCH (p:Person) WHERE p.name = \"Ann\" RETURN p" = .ok (.ok query) ∧
      StartPlannable query ∧ ∃ queryPlan, plan query = .ok queryPlan := by
  have passed : parsesTo
      (fun query => decide (SchemaValidator.validate query Social.schema = .ok ()) &&
      (plan query).isOk) "MATCH (p:Person) WHERE p.name = \"Ann\" RETURN p" =
        true := by decide +kernel
  obtain ⟨query, parsed, tested⟩ := exists_of_parsesTo passed
  rw [Bool.and_eq_true, decide_eq_true_iff] at tested
  obtain ⟨valid, planned⟩ := tested
  cases result : plan query with
  | error message =>
      rw [result] at planned
      cases planned
  | ok queryPlan =>
      exact ⟨query, parsed, (plan_returns_iff _ _ Social.schema query parsed valid).mp
        ⟨queryPlan, result⟩,
        queryPlan, result⟩

/-- Everybody but Ann is a grammatical and valid start, and the planner panics
on it. -/
theorem plan_panics_after_validation :
    ¬ ∀ (report : String → Nat × String) (source : String) (schema : Schema)
      (query : Query),
      PestParser.parse report source = .ok (.ok query) →
        SchemaValidator.validate query schema = .ok () →
      ∃ queryPlan, plan query = .ok queryPlan := by
  have passed : parsesTo
      (fun query => decide (SchemaValidator.validate query Social.schema = .ok ()) &&
      !(plan query).isOk) "MATCH (p:Person) WHERE p.name <> \"Ann\" RETURN p" =
        true := by decide +kernel
  obtain ⟨query, parsed, tested⟩ := exists_of_parsesTo passed
  rw [Bool.and_eq_true, decide_eq_true_iff, Bool.not_eq_true'] at tested
  intro planned
  obtain ⟨queryPlan, result⟩ := planned _ _ Social.schema query parsed tested.1
  rw [result] at tested
  cases tested.2

end GraphEngine
