/-
Module: GraphEngine.Proofs.Planning
Layer: Proofs
Purpose: The shape of plans.  A plan is a start step, one expansion per edge of
  the pattern and one anti-join per `NOT EXISTS`; for a validated query every
  step reads only aliases bound before it.
Trusted boundary: none
Main exports: hopsOf, PlanShape, planShape_of_plan, wellScoped_of_plan,
  outgoingAntiJoins_of_plan
-/
import GraphEngine.Model.Validator
import GraphEngine.Proofs.Execute

namespace GraphEngine

open NaivePlanner

/-! ### Lowering the pattern -/

/-- The expansions that the edges of a pattern lower to, from a first alias on. -/
def hopsOf (query : Query) (fromAlias : String) :
    List (EdgePattern × NodePattern) → List PlanStep
  | [] => []
  | (edge, toNode) :: rest =>
      .expandHop (hopStep query fromAlias edge toNode) ::
        hopsOf query toNode.aliasName rest

/-- The steps of a pattern after its first node. -/
def segmentSteps (segments : List (EdgePattern × NodePattern)) : List PatternStep :=
  segments.flatMap fun segment => [.edge segment.1, .node segment.2]

/-- The alias that the segments end at. -/
def lastAlias (fromAlias : String) (segments : List (EdgePattern × NodePattern)) :
    String :=
  (segments.getLast?.map fun segment => segment.2.aliasName).getD fromAlias

/-- The hops of two parts of a pattern, the second from where the first ends. -/
theorem hopsOf_append (query : Query) (fromAlias : String)
    (segments later : List (EdgePattern × NodePattern)) :
    hopsOf query fromAlias (segments ++ later) =
      hopsOf query fromAlias segments ++
        hopsOf query (lastAlias fromAlias segments) later := by
  induction segments generalizing fromAlias with
  | nil => rfl
  | cons segment rest inductionHypothesis =>
      rw [List.cons_append, hopsOf, hopsOf, inductionHypothesis, List.cons_append]
      cases rest <;> rfl

/-- Where a lowered pattern is split, the pattern is split. -/
theorem hopsOf_split {query : Query} {fromAlias : String}
    {segments : List (EdgePattern × NodePattern)} {done later : List PlanStep}
    {step : PlanStep}
    (split : hopsOf query fromAlias segments = done ++ step :: later) :
    ∃ before edge toNode after, segments = before ++ (edge, toNode) :: after ∧
      done = hopsOf query fromAlias before ∧
      step = .expandHop (hopStep query (lastAlias fromAlias before) edge toNode) ∧
      later = hopsOf query toNode.aliasName after := by
  induction segments generalizing fromAlias done with
  | nil => simp [hopsOf] at split
  | cons segment rest inductionHypothesis =>
      obtain ⟨edge, toNode⟩ := segment
      cases done with
      | nil =>
          simp only [hopsOf, List.nil_append, List.cons.injEq] at split
          exact ⟨[], edge, toNode, rest, rfl, rfl, split.1.symm, split.2.symm⟩
      | cons head done =>
          simp only [hopsOf, List.cons_append, List.cons.injEq] at split
          obtain ⟨before, edge', toNode', after, rfl, rfl, rfl, rfl⟩ :=
            inductionHypothesis split.2
          refine ⟨(edge, toNode) :: before, edge', toNode', after, rfl, ?_, ?_, rfl⟩
          · rw [hopsOf, split.1]
          · cases before <;> rfl

/-- The hops bind the nodes of the pattern. -/
theorem nodeAliases_hopsOf (query : Query) (fromAlias : String)
    (segments : List (EdgePattern × NodePattern)) :
    (hopsOf query fromAlias segments).flatMap PlanStep.nodeAliases =
      segments.map fun segment => segment.2.aliasName := by
  induction segments generalizing fromAlias with
  | nil => rfl
  | cons segment rest inductionHypothesis =>
      rw [hopsOf, List.flatMap_cons, inductionHypothesis]
      rfl

/-- The hops bind the edges of the pattern. -/
theorem edgeAliases_hopsOf (query : Query) (fromAlias : String)
    (segments : List (EdgePattern × NodePattern)) :
    (hopsOf query fromAlias segments).flatMap PlanStep.edgeAliases =
      segments.flatMap fun segment => segment.1.aliasName.toList := by
  induction segments generalizing fromAlias with
  | nil => rfl
  | cons segment rest inductionHypothesis =>
      rw [hopsOf, List.flatMap_cons, inductionHypothesis]
      rfl

/-- Where a pattern ends is one of its nodes. -/
theorem lastAlias_mem (fromAlias : String)
    (segments : List (EdgePattern × NodePattern)) :
    lastAlias fromAlias segments ∈ fromAlias :: segments.map fun segment =>
      segment.2.aliasName := by
  rw [lastAlias]
  cases last : segments.getLast? with
  | none => exact List.mem_cons_self
  | some segment =>
      refine List.mem_cons_of_mem _
        (List.mem_map.mpr ⟨segment, List.mem_of_getLast? last, rfl⟩)

/-- A pattern that is lowered alternates between edges and nodes. -/
theorem planHops_ok {query : Query} {fromAlias : String} {i : Nat}
    {steps : List PatternStep} {hops : List PlanStep}
    (planned : planHops query fromAlias i steps = .ok hops) :
    ∃ segments, steps = segmentSteps segments ∧
      hops = hopsOf query fromAlias segments := by
  fun_induction planHops query fromAlias i steps generalizing hops with
  | case1 => exact ⟨[], rfl, (Except.ok.inj planned).symm⟩
  | case2 fromAlias i edge toNode rest inductionHypothesis =>
      cases later : planHops query toNode.aliasName (i + 2) rest with
      | error message =>
          rw [later] at planned
          cases planned
      | ok laterHops =>
          rw [later] at planned
          obtain ⟨segments, rfl, rfl⟩ := inductionHypothesis later
          exact ⟨(edge, toNode) :: segments, rfl, (Except.ok.inj planned).symm⟩
  | case3 => cases planned
  | case4 => cases planned
  | case5 => cases planned

/-- The parts that a plan is made of. -/
structure PlanShape (query : Query) (plan : QueryPlan) (first : NodePattern)
    (segments : List (EdgePattern × NodePattern)) (start : PlanStep)
    (antiJoins : List PlanStep) : Prop where
  patternEq : query.pattern.steps = .node first :: segmentSteps segments
  started : resolveStartOrAllStep first (whereFilters query first.aliasName) = .ok start
  joined : planAntiJoins query.whereConditions = .ok antiJoins
  planEq : plan =
    ⟨start :: (hopsOf query first.aliasName segments ++ antiJoins), query.returns⟩

/-- Every plan is a start, the hops of the pattern and the anti-joins of the
conditions. -/
theorem planShape_of_plan {query : Query} {queryPlan : QueryPlan}
    (planned : plan query = .ok queryPlan) :
    ∃ first segments start antiJoins,
      PlanShape query queryPlan first segments start antiJoins := by
  rw [NaivePlanner.plan] at planned
  rcases steps : query.pattern.steps with _ | ⟨⟨first⟩ | ⟨edge⟩, rest⟩ <;>
    rw [steps] at planned
  case nil => cases planned
  case cons.edge => cases planned
  case cons.node =>
      dsimp only at planned
      cases started :
        resolveStartOrAllStep first (whereFilters query first.aliasName) with
      | error message => rw [started] at planned; cases planned
      | ok start =>
          cases hopped : planHops query first.aliasName 1 rest with
          | error message => rw [started, hopped] at planned; cases planned
          | ok hops =>
              cases joined : planAntiJoins query.whereConditions with
              | error message => rw [started, hopped, joined] at planned; cases planned
              | ok antiJoins =>
                  rw [started, hopped, joined] at planned
                  obtain ⟨segments, rfl, rfl⟩ := planHops_ok hopped
                  exact ⟨first, segments, start, antiJoins, steps, started, joined,
                    (Except.ok.inj planned).symm⟩

/-! ### The start step -/

/-- The start step resolves the first node under its label. -/
theorem start_cases {node : NodePattern} {filters : List PropertyFilter}
    {start : PlanStep} (started : resolveStartOrAllStep node filters = .ok start) :
    ∃ label, node.label = some label ∧
      ((startFilter node filters = .ok none ∧
          start = .resolveAll ⟨node.aliasName, label.name⟩) ∨
        ∃ filter key, startFilter node filters = .ok (some filter) ∧ filter.op = .eq ∧
          literalToPropertyKey filter.value = .ok key ∧
          start = .resolveStart ⟨node.aliasName, label.name, filter.property, key⟩) := by
  rw [resolveStartOrAllStep] at started
  cases labelled : node.label with
  | none => rw [labelled] at started; cases started
  | some label =>
      rw [labelled] at started
      refine ⟨label, rfl, ?_⟩
      cases filtered : startFilter node filters with
      | error message => rw [filtered] at started; cases started
      | ok found =>
          rw [filtered] at started
          cases found with
          | none => exact .inl ⟨rfl, (Except.ok.inj started).symm⟩
          | some filter =>
              refine .inr ⟨filter, ?_⟩
              by_cases equality : filter.op = .eq
              · cases keyed : literalToPropertyKey filter.value with
                | error message =>
                    simp [bind, Except.bind, equality, keyed] at started
                | ok key =>
                    simp only [bind, Except.bind, equality, keyed, if_true,
                      Except.ok.injEq] at started
                    exact ⟨key, rfl, equality, rfl, started.symm⟩
              · simp [bind, Except.bind, equality] at started

/-- The first step is a start, and binds the first node. -/
theorem start_isStart {node : NodePattern} {filters : List PropertyFilter}
    {start : PlanStep} (started : resolveStartOrAllStep node filters = .ok start) :
    start.IsStart ∧ start.nodeAliases = [node.aliasName] ∧ start.edgeAliases = [] := by
  obtain ⟨label, -, ⟨-, rfl⟩ | ⟨filter, key, -, -, -, rfl⟩⟩ := start_cases started
  · exact ⟨trivial, rfl, rfl⟩
  · exact ⟨trivial, rfl, rfl⟩

/-! ### Anti-joins -/

/-- What a subquery compiles to, field by field. -/
theorem compileAntiJoin_ok {subquery : ExistsSubquery} {step : AntiJoinStep}
    (compiled : compileAntiJoin subquery = .ok step) : ∃ fromNode edge toNode,
      subquery.pattern.steps = [.node fromNode, .edge edge, .node toNode] ∧
      step =
        { fromAlias := fromNode.aliasName
          toAlias := toNode.aliasName
          direction := edge.direction
          edgeAlias := edge.aliasName
          edgeType := edge.edgeType.map EdgeType.name
          literalConditions := literalConditions edge.aliasName subquery.whereConditions
          outerConditions :=
            outerConditions edge.aliasName subquery.whereConditions } := by
  rw [compileAntiJoin] at compiled
  split at compiled
  case h_1 fromNode edge toNode steps =>
    exact ⟨fromNode, edge, toNode, steps, (Except.ok.inj compiled).symm⟩
  case h_2 => cases compiled

/-- Every anti-join of a plan comes from a `NOT EXISTS` of the query. -/
theorem mem_planAntiJoins {conditions : List WhereCondition} {steps : List PlanStep}
    (joined : planAntiJoins conditions = .ok steps) {step : PlanStep}
    (member : step ∈ steps) :
    ∃ subquery antiJoin, .notExists subquery ∈ conditions ∧
      compileAntiJoin subquery = .ok antiJoin ∧
      step = .antiJoin antiJoin := by
  fun_induction planAntiJoins conditions generalizing steps with
  | case1 =>
      cases joined
      cases member
  | case2 subquery rest inductionHypothesis =>
      cases compiled : compileAntiJoin subquery with
      | error message => rw [compiled] at joined; cases joined
      | ok antiJoin =>
          cases later : planAntiJoins rest with
          | error message => rw [compiled, later] at joined; cases joined
          | ok laterSteps =>
              rw [compiled, later] at joined
              cases joined
              rcases List.mem_cons.mp member with rfl | inLater
              · exact ⟨subquery, antiJoin, List.mem_cons_self, compiled, rfl⟩
              · obtain ⟨other, antiJoin', listed, rest⟩ :=
                  inductionHypothesis later inLater
                exact ⟨other, antiJoin', List.mem_cons_of_mem _ listed, rest⟩
  | case3 condition rest notSubquery inductionHypothesis =>
      obtain ⟨other, antiJoin, listed, rest⟩ := inductionHypothesis joined member
      exact ⟨other, antiJoin, List.mem_cons_of_mem _ listed, rest⟩

/-! ### What validation gives -/

namespace SchemaValidator

/-- A pattern binds the aliases of its nodes. -/
theorem mem_boundNodes {steps : List PatternStep} {scope : Scope} {x : String} :
    x ∈ (steps.foldl Scope.bindStep scope).boundNodes ↔
      x ∈ scope.boundNodes ∨ ∃ node, .node node ∈ steps ∧ node.aliasName = x := by
  induction steps generalizing scope with
  | nil => simp
  | cons step rest inductionHypothesis =>
      rw [List.foldl_cons, inductionHypothesis]
      cases step with
      | node node =>
          simp only [Scope.bindStep, Scope.bindNode, Std.ExtTreeSet.mem_insert,
            Std.compare_eq_iff_eq, List.mem_cons, PatternStep.node.injEq,
            or_and_right, exists_or, exists_eq_left]
          tauto
      | edge edge =>
          have unchanged : (Scope.bindStep scope (.edge edge)).boundNodes =
              scope.boundNodes := by
            simp only [Scope.bindStep, Scope.bindEdge]
            split <;> rfl
          simp [unchanged]

/-- The scope has the pattern's nodes for bound. -/
theorem mem_scopeOf_boundNodes {pattern : Pattern} {x : String} :
    x ∈ (scopeOf pattern).boundNodes ↔ ∃ node, .node node ∈ pattern.steps ∧
      node.aliasName = x := by
  rw [scopeOf, mem_boundNodes]
  simp

theorem bindEdge_nodeLabels (scope : Scope) (edge : EdgePattern) :
    (Scope.bindEdge scope edge).nodeLabels = scope.nodeLabels := by
  rw [Scope.bindEdge]
  split <;> rfl

/-- Binding an edge adds no edge type but the edge's own. -/
theorem bindEdge_edgeTypes {scope : Scope} {edge : EdgePattern} {x : String}
    {edgeType : EdgeType}
    (typed : (Scope.bindEdge scope edge).edgeTypes[x]? = some edgeType) :
    edge.aliasName = some x ∧ edge.edgeType = some edgeType ∨
      scope.edgeTypes[x]? = some edgeType := by
  rw [Scope.bindEdge] at typed
  split at typed
  case h_1 aliasName ownType aliased ofType =>
    rw [Std.ExtTreeMap.getElem?_insert] at typed
    split at typed
    case isTrue same =>
        cases typed
        rw [← Std.LawfulEqOrd.eq_of_compare same]
        exact .inl ⟨aliased, ofType⟩
    case isFalse => exact .inr typed
  case h_2 => exact .inr typed

/-- A label in the scope of a pattern is that of a node of the pattern. -/
theorem node_of_nodeLabels {steps : List PatternStep} {scope : Scope} {x : String}
    {label : Label}
    (labelled : (steps.foldl Scope.bindStep scope).nodeLabels[x]? = some label) :
    scope.nodeLabels[x]? = some label ∨
      ∃ node, .node node ∈ steps ∧ node.aliasName = x ∧ node.label = some label := by
  induction steps generalizing scope with
  | nil => exact .inl labelled
  | cons step rest inductionHypothesis =>
      rcases inductionHypothesis labelled with here | ⟨node, member, named⟩
      · cases step with
        | edge edge =>
            rw [Scope.bindStep, bindEdge_nodeLabels] at here
            exact .inl here
        | node node =>
            rw [Scope.bindStep, Scope.bindNode] at here
            cases ofLabel : node.label with
            | none =>
                rw [ofLabel] at here
                exact .inl here
            | some label' =>
                rw [ofLabel] at here
                dsimp only at here
                rw [Std.ExtTreeMap.getElem?_insert] at here
                split at here
                case isTrue same =>
                    cases here
                    exact .inr ⟨node, List.mem_cons_self,
                      Std.LawfulEqOrd.eq_of_compare same, ofLabel⟩
                case isFalse => exact .inl here
      · exact .inr ⟨node, List.mem_cons_of_mem _ member, named⟩

/-- An edge type in the scope of a pattern is that of an edge of the pattern. -/
theorem edge_of_edgeTypes {steps : List PatternStep} {scope : Scope} {x : String}
    {edgeType : EdgeType}
    (typed : (steps.foldl Scope.bindStep scope).edgeTypes[x]? = some edgeType) :
    scope.edgeTypes[x]? = some edgeType ∨
      ∃ edge, .edge edge ∈ steps ∧ edge.aliasName = some x ∧
        edge.edgeType = some edgeType := by
  induction steps generalizing scope with
  | nil => exact .inl typed
  | cons step rest inductionHypothesis =>
      rcases inductionHypothesis typed with here | ⟨edge, member, named⟩
      · cases step with
        | node node => exact .inl here
        | edge edge =>
            rcases bindEdge_edgeTypes here with own | earlier
            · exact .inr ⟨edge, List.mem_cons_self, own⟩
            · exact .inl earlier
      · exact .inr ⟨edge, List.mem_cons_of_mem _ member, named⟩

/-- A label in scope is that of a node of the pattern. -/
theorem node_of_scopeOf {pattern : Pattern} {x : String} {label : Label}
    (labelled : (scopeOf pattern).nodeLabels[x]? = some label) :
    ∃ node, .node node ∈ pattern.steps ∧ node.aliasName = x ∧ node.label = some label :=
  (node_of_nodeLabels labelled).resolve_left (by simp)

/-- An edge type in scope is that of an edge of the pattern. -/
theorem edge_of_scopeOf {pattern : Pattern} {x : String} {edgeType : EdgeType}
    (typed : (scopeOf pattern).edgeTypes[x]? = some edgeType) :
    ∃ edge, .edge edge ∈ pattern.steps ∧ edge.aliasName = some x ∧
      edge.edgeType = some edgeType :=
  (edge_of_edgeTypes typed).resolve_left (by simp)

/-- Every condition of a valid query is valid. -/
theorem whereCondition_valid {query : Query} {schema : Schema}
    (valid : violations query schema = [])
    {condition : WhereCondition} (member : condition ∈ query.whereConditions) :
    validateWhereCondition schema (scopeOf query.pattern) condition = [] := by
  simp only [violations, List.append_eq_nil_iff, List.flatMap_eq_nil_iff] at valid
  exact valid.1.1.2 condition member

/-- Every step of a valid query is valid. -/
theorem step_valid {query : Query} {schema : Schema}
    (valid : violations query schema = []) {step : PatternStep}
    (member : step ∈ query.pattern.steps) : validateStep schema step = [] := by
  simp only [violations, List.append_eq_nil_iff, List.flatMap_eq_nil_iff] at valid
  exact valid.1.1.1 step member

/-- An aliased edge of a validated query is a single hop. -/
theorem singleHop_of_aliased {query : Query} {schema : Schema}
    (valid : violations query schema = []) {edge : EdgePattern}
    (member : .edge edge ∈ query.pattern.steps) {aliasName : String}
    (aliased : edge.aliasName = some aliasName) : edge.hops = ⟨1, 1⟩ := by
  have checked := step_valid valid member
  simp only [validateStep, validateEdgePattern, aliased,
    List.append_eq_nil_iff] at checked
  have hops := checked.2
  split at hops
  case isTrue => cases hops
  case isFalse single =>
      rw [not_or, not_not, not_not] at single
      cases bounds : edge.hops
      rw [bounds] at single
      rw [HopRange.mk.injEq]
      exact single

/-- A validated `NOT EXISTS`: bare anchors that the query binds, and between
them a single outgoing hop. -/
structure ValidExists (schema : Schema) (outer : Scope) (subquery : ExistsSubquery)
    (fromNode : NodePattern) (edge : EdgePattern) (toNode : NodePattern) : Prop where
  steps : subquery.pattern.steps = [.node fromNode, .edge edge, .node toNode]
  fromBound : fromNode.aliasName ∈ outer.boundNodes
  toBound : toNode.aliasName ∈ outer.boundNodes
  fromBare : fromNode.propertyFilters = []
  toBare : toNode.propertyFilters = []
  hop : validateEdgePattern edge schema = []
  outgoing : edge.direction = .outgoing
  conditions : ∀ condition ∈ subquery.whereConditions,
    validateWhereConditionWith (fun _ => [.nestedNotExists])
    schema (Scope.bindEdge outer edge) condition = []

/-- A subquery that is accepted has the one shape that is. -/
theorem notExists_valid {schema : Schema} {outer : Scope} {subquery : ExistsSubquery}
    (valid : validateNotExists schema outer subquery = []) :
    ∃ fromNode edge toNode, ValidExists schema outer subquery fromNode edge toNode := by
  rw [validateNotExists] at valid
  split at valid
  case h_2 => cases valid
  case h_1 fromNode edge toNode steps =>
      simp only [List.append_eq_nil_iff, List.flatMap_eq_nil_iff, List.mem_cons,
        List.not_mem_nil, or_false, forall_eq_or_imp, forall_eq] at valid
      obtain ⟨⟨⟨⟨⟨anchorFrom, anchorTo⟩, hop⟩, -⟩, direction⟩, conditions⟩ := valid
      have anchored : ∀ anchor, validateAnchor outer anchor = [] →
          anchor.aliasName ∈ outer.boundNodes ∧ anchor.propertyFilters = [] := by
        intro anchor checked
        rw [validateAnchor] at checked
        split at checked
        case isTrue => cases checked
        case isFalse fine =>
            rw [not_or, not_or, not_not, not_not] at fine
            exact ⟨fine.1, fine.2.2⟩
      have outgoing : edge.direction = .outgoing := by
        by_contra other
        rw [if_pos other] at direction
        cases direction
      exact ⟨fromNode, edge, toNode, steps, (anchored _ anchorFrom).1,
        (anchored _ anchorTo).1,
        (anchored _ anchorFrom).2, (anchored _ anchorTo).2, hop, outgoing, conditions⟩

end SchemaValidator

/-! ### Plans of validated queries -/

section Validated

variable {query : Query} {schema : Schema} {queryPlan : QueryPlan} {first : NodePattern}
variable {segments : List (EdgePattern × NodePattern)} {start : PlanStep}
variable {antiJoins : List PlanStep}

/-- The anti-joins of a validated query look along outgoing edges between bound
aliases. -/
theorem antiJoin_valid (valid : SchemaValidator.violations query schema = [])
    (shape : PlanShape query queryPlan first segments start antiJoins) {step : PlanStep}
    (member : step ∈ antiJoins) : ∃ antiJoin, step = .antiJoin antiJoin ∧
      antiJoin.direction = .outgoing ∧
      (∃ node, .node node ∈ query.pattern.steps ∧ node.aliasName = antiJoin.fromAlias) ∧
      ∃ node, .node node ∈ query.pattern.steps ∧ node.aliasName = antiJoin.toAlias := by
  obtain ⟨subquery, antiJoin, listed, compiled, rfl⟩ :=
    mem_planAntiJoins shape.joined member
  have checked := SchemaValidator.whereCondition_valid valid listed
  obtain ⟨fromNode, edge, toNode, validExists⟩ := SchemaValidator.notExists_valid checked
  obtain ⟨fromNode', edge', toNode', steps, rfl⟩ := compileAntiJoin_ok compiled
  rw [validExists.steps] at steps
  cases steps
  exact ⟨_, rfl, validExists.outgoing,
    SchemaValidator.mem_scopeOf_boundNodes.mp validExists.fromBound,
    SchemaValidator.mem_scopeOf_boundNodes.mp validExists.toBound⟩

omit schema queryPlan antiJoins start in
theorem mem_segmentSteps_node {node : NodePattern} :
    .node node ∈ segmentSteps segments ↔ ∃ segment ∈ segments, segment.2 = node := by
  rw [segmentSteps, List.mem_flatMap]
  refine exists_congr fun segment => and_congr_right fun _ => ?_
  simp [eq_comm]

/-- Every expansion of a plan comes from an edge of the pattern. -/
theorem hop_of_plan (planned : plan query = .ok queryPlan) {step : ExpandHop}
    (member : .expandHop step ∈ queryPlan.steps) : ∃ source edge toNode,
      .edge edge ∈ query.pattern.steps ∧ step = hopStep query source edge toNode := by
  obtain ⟨first, segments, start, antiJoins, shape⟩ := planShape_of_plan planned
  rw [shape.planEq] at member
  rcases List.mem_cons.mp member with isFirst | later
  · have isStart := (start_isStart shape.started).1
    rw [← isFirst] at isStart
    exact isStart.elim
  · rcases List.mem_append.mp later with inHops | inAntiJoins
    · obtain ⟨done, later, split⟩ := List.append_of_mem inHops
      obtain ⟨before, edge, toNode, after, rfl, -, same, -⟩ := hopsOf_split split
      cases same
      refine ⟨_, edge, toNode, ?_, rfl⟩
      rw [shape.patternEq, segmentSteps]
      simp
    · obtain ⟨subquery, antiJoin, -, -, impossible⟩ :=
        mem_planAntiJoins shape.joined inAntiJoins
      cases impossible

/-- An expansion over more than single hops has no edge alias. -/
theorem unaliased_of_plan (valid : SchemaValidator.violations query schema = [])
    (planned : plan query = .ok queryPlan) {step : ExpandHop}
    (member : .expandHop step ∈ queryPlan.steps) (variable_ : step.hops ≠ ⟨1, 1⟩) :
    step.edgeAlias = none := by
  obtain ⟨source, edge, toNode, inPattern, rfl⟩ := hop_of_plan planned member
  cases aliased : edge.aliasName with
  | none => exact aliased
  | some aliasName =>
      exact absurd (SchemaValidator.singleHop_of_aliased valid inPattern
        aliased) variable_

/-- The aliases that the start and the expansions bind are those of the
pattern's nodes. -/
theorem mem_boundAliases
    (shape : PlanShape query queryPlan first segments start antiJoins) {x : String} :
    x ∈ (start :: hopsOf query first.aliasName segments).flatMap PlanStep.nodeAliases ↔
      ∃ node, .node node ∈ query.pattern.steps ∧ node.aliasName = x := by
  rw [List.flatMap_cons, (start_isStart shape.started).2.1, nodeAliases_hopsOf,
    shape.patternEq]
  simp only [List.singleton_append, List.mem_cons, List.mem_map, PatternStep.node.injEq,
    mem_segmentSteps_node, or_and_right, exists_or, exists_eq_left]
  refine or_congr eq_comm ?_
  constructor
  · rintro ⟨segment, member, rfl⟩
    exact ⟨_, ⟨segment, member, rfl⟩, rfl⟩
  · rintro ⟨_, ⟨segment, member, rfl⟩, rfl⟩
    exact ⟨segment, member, rfl⟩

/-- Every step of a validated query's plan reads only aliases bound before it. -/
theorem wellScoped_of_plan (valid : SchemaValidator.violations query schema = [])
    (shape : PlanShape query queryPlan first segments start antiJoins) :
    WellScoped start (hopsOf query first.aliasName segments ++ antiJoins) where
  isStart := (start_isStart shape.started).1
  stepScoped done step later split := by
    rcases List.append_eq_append_iff.mp split with ⟨before, rfl,
      rest⟩ | ⟨after, hops, rest⟩
    · -- the step is an anti-join: everything has been bound
      have inAntiJoins : step ∈ antiJoins := by rw [rest]; simp
      obtain ⟨antiJoin, rfl, -, boundFrom, boundTo⟩ :=
        antiJoin_valid valid shape inAntiJoins
      have grows : ∀ x, x ∈ (start :: hopsOf query first.aliasName segments).flatMap
          PlanStep.nodeAliases →
            x ∈ (start :: (hopsOf query first.aliasName segments ++ before)).flatMap
            PlanStep.nodeAliases := by
        intro x member
        rw [← List.cons_append, List.flatMap_append]
        exact List.mem_append_left _ member
      exact ⟨grows _ ((mem_boundAliases shape).mpr boundFrom),
        grows _ ((mem_boundAliases shape).mpr boundTo)⟩
    · cases after with
      | nil =>
          -- the first anti-join
          rw [List.append_nil] at hops
          have inAntiJoins : step ∈ antiJoins := by
            rw [List.nil_append] at rest
            rw [← rest]
            exact List.mem_cons_self
          obtain ⟨antiJoin, rfl, -, boundFrom, boundTo⟩ :=
            antiJoin_valid valid shape inAntiJoins
          rw [← hops]
          exact ⟨(mem_boundAliases shape).mpr boundFrom,
            (mem_boundAliases shape).mpr boundTo⟩
      | cons head after =>
          -- the step is an expansion: its source is the alias reached
          rw [List.cons_append, List.cons.injEq] at rest
          obtain ⟨before, edge, toNode, later', -, rfl, same, -⟩ := hopsOf_split hops
          rw [rest.1, same]
          rw [StepScoped, List.flatMap_cons, (start_isStart shape.started).2.1,
            nodeAliases_hopsOf]
          exact lastAlias_mem first.aliasName before

/-- The anti-joins of a validated query's plan look along outgoing edges. -/
theorem outgoingAntiJoins_of_plan (valid : SchemaValidator.violations query schema = [])
    (shape : PlanShape query queryPlan first segments start antiJoins) :
    OutgoingAntiJoins (hopsOf query first.aliasName segments ++ antiJoins) := by
  intro step member
  rcases List.mem_append.mp member with inHops | inAntiJoins
  · obtain ⟨done, later, split⟩ := List.append_of_mem inHops
    obtain ⟨_, _, _, _, _, _, impossible, _⟩ := hopsOf_split split
    cases impossible
  · obtain ⟨antiJoin, same, outgoing, -⟩ := antiJoin_valid valid shape inAntiJoins
    cases same
    exact outgoing

end Validated

end GraphEngine
