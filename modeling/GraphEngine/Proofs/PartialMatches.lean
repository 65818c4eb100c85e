/-
Module: GraphEngine.Proofs.PartialMatches
Layer: Proofs
Purpose: What a run has bound in the middle of a pattern.  A partial match is a
  binding that the first part of a pattern leads to, as far as the planner keeps
  it; every binding returned grew out of one at every point, and what the hops
  made after that point leave alone it still binds alike.
Trusted boundary: none
Main exports: PartialMatch, HopMade, PartialMatch.backtrack,
  PartialMatch.lastBound
-/
import GraphEngine.Proofs.Provenance

namespace GraphEngine

open NaivePlanner (hopStep resolveStartOrAllStep whereFilters)

/-! ### Points of a pattern -/

/-- The node aliases of a piece of a pattern. -/
def nodeAliasesOf (steps : List PatternStep) : List String :=
  steps.filterMap fun step =>
    match step with
    | .node node => some node.aliasName
    | .edge _ => none

/-- The edge aliases of a piece of a pattern. -/
def edgeAliasesOf (steps : List PatternStep) : List String :=
  steps.filterMap fun step =>
    match step with
    | .node _ => none
    | .edge edge => edge.aliasName

/-- The node aliases of the segments, in order. -/
theorem nodeAliasesOf_segmentSteps (segments : List (EdgePattern × NodePattern)) :
    nodeAliasesOf (segmentSteps segments) = segments.map fun segment =>
      segment.2.aliasName := by
  induction segments with
  | nil => rfl
  | cons segment rest inductionHypothesis =>
      have here : nodeAliasesOf (segmentSteps (segment :: rest)) =
          segment.2.aliasName :: nodeAliasesOf (segmentSteps rest) := rfl
      rw [here, inductionHypothesis, List.map_cons]

/-- The edge aliases of the segments, in order. -/
theorem edgeAliasesOf_segmentSteps (segments : List (EdgePattern × NodePattern)) :
    edgeAliasesOf (segmentSteps segments) =
      segments.flatMap fun segment => segment.1.aliasName.toList := by
  induction segments with
  | nil => rfl
  | cons segment rest inductionHypothesis =>
      have here : edgeAliasesOf (segmentSteps (segment :: rest)) =
          segment.1.aliasName.toList ++ edgeAliasesOf (segmentSteps rest) := by
        rcases segment with ⟨⟨_ | aliasName, edgeType, direction, hops⟩, toNode⟩ <;> rfl
      rw [here, inductionHypothesis, List.flatMap_cons]

/-- An edge between two nodes of a pattern is one of its segments. -/
theorem segmentSteps_split {first : NodePattern}
    {segments : List (EdgePattern × NodePattern)} {earlier later : List PatternStep}
    {x y : NodePattern} {edge : EdgePattern}
    (position : .node first :: segmentSteps segments = earlier ++ .node x ::
      .edge edge :: .node y :: later) :
    ∃ before after, segments = before ++ (edge, y) :: after ∧
      lastAlias first.aliasName before = x.aliasName ∧ later = segmentSteps after := by
  induction segments generalizing first earlier with
  | nil =>
      have lengths := congrArg List.length position
      simp only [segmentSteps, List.flatMap_nil, List.length_cons, List.length_nil,
        List.length_append]
        at lengths
      omega
  | cons segment rest inductionHypothesis =>
      rcases segment with ⟨edge', toNode⟩
      have unfolded : segmentSteps ((edge', toNode) :: rest) =
          .edge edge' :: .node toNode :: segmentSteps rest := rfl
      rw [unfolded] at position
      rcases earlier with _ | ⟨head, earlier⟩
      · cases position
        exact ⟨[], rest, rfl, rfl, rfl⟩
      · rcases earlier with _ | ⟨next, earlier⟩
        · cases position
        · simp only [List.cons_append, List.cons.injEq] at position
          rcases inductionHypothesis position.2.2 with ⟨before, after, rfl, reached, same⟩
          refine ⟨(edge', toNode) :: before, after, rfl, ?_, same⟩
          rw [← reached]
          cases before <;> rfl

/-- A node of the pattern has its alias among those of the nodes. -/
theorem mem_nodeAliasesOf {steps : List PatternStep} {node : NodePattern}
    (member : .node node ∈ steps) : node.aliasName ∈ nodeAliasesOf steps :=
  List.mem_filterMap.mpr ⟨_, member, rfl⟩

/-- What stands in front of a segment. -/
theorem segmentSteps_front {first x y : NodePattern} {edge : EdgePattern}
    {before after : List (EdgePattern × NodePattern)} {front : List PatternStep}
    (position : .node first :: segmentSteps (before ++ (edge, y) :: after) =
      front ++ .node x :: .edge edge :: .node y :: segmentSteps after) :
    front ++ [.node x] = .node first :: segmentSteps before := by
  have joined : (front ++ [.node x]) ++ (.edge edge :: .node y :: segmentSteps after) =
      (.node first :: segmentSteps before) ++
        (.edge edge :: .node y :: segmentSteps after) := by
    rw [List.append_assoc]
    refine position.symm.trans ?_
    rw [segmentSteps, List.flatMap_append, List.flatMap_cons]
    rfl
  exact List.append_cancel_right joined

/-- The steps of a pattern determine its segments. -/
theorem segmentSteps_injective {segments segments' : List (EdgePattern × NodePattern)}
    (same : segmentSteps segments = segmentSteps segments') : segments = segments' := by
  induction segments generalizing segments' with
  | nil =>
      cases segments' with
      | nil => rfl
      | cons segment rest => cases same
  | cons segment rest inductionHypothesis =>
      cases segments' with
      | nil => cases same
      | cons segment' rest' =>
          have parts : .edge segment.1 :: .node segment.2 :: segmentSteps rest =
              .edge segment'.1 :: .node segment'.2 :: segmentSteps rest' := same
          simp only [List.cons.injEq, PatternStep.edge.injEq,
            PatternStep.node.injEq] at parts
          rw [inductionHypothesis parts.2.2, Prod.ext parts.1 parts.2.1]

/-- The first part of a pattern ends at a node wherever it is followed by an
edge. -/
theorem endsAtNode {first : NodePattern} (segments : List (EdgePattern × NodePattern)) :
    ∃ front x, .node first :: segmentSteps segments = front ++ [.node x] ∧
      x.aliasName = lastAlias first.aliasName segments := by
  induction segments using List.reverseRecOn with
  | nil => exact ⟨[], first, rfl, rfl⟩
  | append_singleton segments segment =>
      obtain ⟨edge, y⟩ := segment
      refine ⟨.node first :: segmentSteps segments ++ [.edge edge], y, ?_, ?_⟩
      · rw [segmentSteps, List.flatMap_append]
        simp [segmentSteps]
      · rw [lastAlias_append]

/-- A pattern, taken apart behind one of its segments. -/
theorem segmentSteps_from {first u : NodePattern}
    {before : List (EdgePattern × NodePattern)} {front : List PatternStep}
    (ends : .node first :: segmentSteps before = front ++ [.node u])
    (edge : EdgePattern) (y : NodePattern)
    (after : List (EdgePattern × NodePattern)) :
    .node first :: segmentSteps (before ++ (edge, y) :: after) =
      (front ++ [.node u, .edge edge, .node y]) ++ segmentSteps after := by
  have unfolded : .node first :: segmentSteps (before ++ (edge, y) :: after) =
      (.node first :: segmentSteps before) ++ .edge edge :: .node y ::
        segmentSteps after := by
    rw [segmentSteps, List.flatMap_append, List.flatMap_cons]
    rfl
  rw [unfolded, ends]
  simp

section PartialMatches

variable [Chrono]

/-! ### Partial matches -/

/-- A binding that the first part of a pattern leads to in the graph shown: the
start step has found its start, and the hops of that part have led on from
there, past the filters that the planner routes into them. -/
def PartialMatch (V : GraphView) (query : Query) (part : List PatternStep)
    (b : Binding) : Prop :=
  ∃ first segments start, part = .node first :: segmentSteps segments ∧
    resolveStartOrAllStep first (whereFilters query first.aliasName) = .ok start ∧
    Reached V (fun _ _ => True) start (hopsOf query first.aliasName segments) b

/-- A hop `(x)-[edge]->(y)` of a pattern is really made: it leads from a partial
match of all that stands in front of it to another binding, and past the filters
routed into it. -/
structure HopMade (V : GraphView) (query : Query) (front : List PatternStep)
    (x : NodePattern) (edge : EdgePattern) (y : NodePattern) (a b : Binding) :
    Prop where
  before : PartialMatch V query (front ++ [.node x]) a
  made : HopRel V (hopStep query x.aliasName edge y) a b

/-- A hop touches its target and its edge alias, and no other alias. -/
theorem HopMade.agreesOutside {V : GraphView} {query : Query} {front : List PatternStep}
    {x y : NodePattern} {edge : EdgePattern} {a b : Binding}
    (hop : HopMade V query front x edge y a b) :
    a.AgreesOutside [y.aliasName] edge.aliasName.toList b := by
  obtain ⟨⟨depth, -, -, -, walk⟩, -⟩ := hop.made
  exact walk.agreesOutside

variable {V : GraphView} {query : Query} {part : List PatternStep} {b : Binding}

/-- A partial match that has made a hop came from the hop. -/
theorem PartialMatch.lastHop {front : List PatternStep} {x y : NodePattern}
    {edge : EdgePattern}
    (found : PartialMatch V query (front ++ [.node x, .edge edge, .node y]) b) :
    ∃ a, HopMade V query front x edge y a b := by
  obtain ⟨first, segments, start, position, started, reached⟩ := found
  obtain ⟨before, after, rfl, source, nothing⟩ := segmentSteps_split position.symm
  have ended : after = [] := by
    cases after with
    | nil => rfl
    | cons segment rest => cases nothing
  subst ended
  obtain ⟨a, reachedA, made⟩ := reached_segment reached
  exact ⟨a, ⟨first, before, start, segmentSteps_front position.symm, started, reachedA⟩,
    source ▸ made⟩

/-- A partial match grew out of one of any earlier part, and whatever held of
that one and is passed on by every hop made since still holds. -/
theorem PartialMatch.backtrack (segments : List (EdgePattern × NodePattern))
    (found : PartialMatch V query (part ++ segmentSteps segments) b)
    (ends : ∃ front x, part = front ++ [.node x]) :
    ∃ a, PartialMatch V query part a ∧ ∀ P : Binding → Prop, P a →
      (∀ between front x edge y back a' b', part ++ between = front ++ [.node x] →
        segmentSteps segments = between ++ .edge edge :: .node y :: back →
        HopMade V query front x edge y a' b' → P a' → P b') →
      P b := by
  induction segments using List.reverseRecOn generalizing b with
  | nil =>
      rw [segmentSteps, List.flatMap_nil, List.append_nil] at found
      exact ⟨b, found, fun P holds _ => holds⟩
  | append_singleton segments segment inductionHypothesis =>
      obtain ⟨edge, y⟩ := segment
      have unfolded : segmentSteps (segments ++ [(edge, y)]) =
          segmentSteps segments ++ [.edge edge, .node y] := by
        rw [segmentSteps, segmentSteps, List.flatMap_append]
        rfl
      obtain ⟨front, x, split⟩ : ∃ front x, part ++ segmentSteps segments = front ++
          [.node x] := by
        obtain ⟨front, x, rfl⟩ := ends
        rcases List.eq_nil_or_concat segments with rfl | ⟨earlier, last, rfl⟩
        · exact ⟨front, x, by simp [segmentSteps]⟩
        · refine ⟨front ++ [.node x] ++ segmentSteps earlier ++
            [.edge last.1], last.2, ?_⟩
          rw [List.concat_eq_append, segmentSteps, segmentSteps, List.flatMap_append]
          simp
      have position : part ++ segmentSteps (segments ++ [(edge, y)]) =
          front ++ [.node x, .edge edge, .node y] := by
        rw [unfolded, ← List.append_assoc, split, List.append_assoc]
        rfl
      rw [position] at found
      obtain ⟨mid, hop⟩ := found.lastHop
      obtain ⟨a, foundA, carried⟩ := inductionHypothesis (split ▸ hop.before)
      refine ⟨a, foundA, fun P holds passesOn => ?_⟩
      refine passesOn _ front x edge y [] mid b split unfolded hop ?_
      apply carried P holds
      intro between front' x' edge' y' back a' b' upTo rest
      apply passesOn between front' x' edge' y' (back ++ [.edge edge, .node y]) a' b' upTo
      rw [unfolded, rest]
      simp

/-- Anti-joins only narrow what the steps before them reach. -/
theorem reached_antiJoins_iff {V : GraphView} {keep : AntiJoinStep → Binding → Prop}
    {start : PlanStep} {steps antiJoins : List PlanStep}
    (each : ∀ step ∈ antiJoins, ∃ antiJoin, step = .antiJoin antiJoin) {b : Binding} :
    Reached V keep start (steps ++ antiJoins) b ↔ Reached V keep start steps b ∧
      ∀ antiJoin, .antiJoin antiJoin ∈ antiJoins → keep antiJoin b := by
  induction antiJoins using List.reverseRecOn with
  | nil => simp
  | append_singleton antiJoins step inductionHypothesis =>
      obtain ⟨antiJoin, rfl⟩ :=
        each step (List.mem_append_right _ (List.mem_singleton_self _))
      rw [← List.append_assoc, reached_append, StepImage,
        inductionHypothesis fun other member =>
          each other (List.mem_append_left _ member), and_assoc]
      refine and_congr_right fun _ => ?_
      constructor
      · rintro ⟨earlier, last⟩ other member
        rcases List.mem_append.mp member with before | here
        · exact earlier other before
        · cases List.mem_singleton.mp here
          exact last
      · intro all
        exact ⟨fun other member => all other (List.mem_append_left _ member),
          all antiJoin (List.mem_append_right _ (List.mem_singleton_self _))⟩

/-- A binding that the whole plan reaches is a match of the whole pattern. -/
theorem PlanShape.partialMatch {queryPlan : QueryPlan} {first : NodePattern}
    {segments : List (EdgePattern × NodePattern)} {start : PlanStep}
    {antiJoins : List PlanStep}
    (shape : PlanShape query queryPlan first segments start antiJoins)
    {keep : AntiJoinStep → Binding → Prop}
    (reached : Reached V keep start
      (hopsOf query first.aliasName segments ++ antiJoins) b) :
    PartialMatch V query query.pattern.steps b := by
  have antiJoin : ∀ step ∈ antiJoins, ∃ antiJoin, step = .antiJoin antiJoin := by
    intro step member
    obtain ⟨-, antiJoin, -, -, same⟩ := mem_planAntiJoins shape.joined member
    exact ⟨antiJoin, same⟩
  exact ⟨first, segments, start, shape.patternEq, shape.started,
    ((reached_antiJoins_iff antiJoin).mp reached).1.unfiltered⟩

/-- A hop made for an edge of the pattern is the plan's hop for that edge, made
from a binding that the hops before it reach. -/
theorem PlanShape.reached_hopMade {queryPlan : QueryPlan} {first : NodePattern}
    {segments : List (EdgePattern × NodePattern)} {start : PlanStep}
    {antiJoins : List PlanStep}
    (shape : PlanShape query queryPlan first segments start antiJoins)
    {front back : List PatternStep} {x y : NodePattern} {edge : EdgePattern}
    {a : Binding}
    (position : query.pattern.steps = front ++ .node x :: .edge edge ::
      .node y :: back) (hop : HopMade V query front x edge y a b) :
    ∃ before after, segments = before ++ (edge, y) :: after ∧ back = segmentSteps after ∧
      lastAlias first.aliasName before = x.aliasName ∧
      Reached V (fun _ _ => True) start (hopsOf query first.aliasName before) a := by
  have whole := shape.patternEq.symm.trans position
  obtain ⟨before, after, rfl, source, rfl⟩ := segmentSteps_split whole
  obtain ⟨first', before', start', position', started', reached⟩ := hop.before
  have same := position'.symm.trans (segmentSteps_front whole)
  rw [List.cons.injEq, PatternStep.node.injEq] at same
  obtain ⟨rfl, sameSegments⟩ := same
  cases segmentSteps_injective sameSegments
  cases Except.ok.inj (started'.symm.trans shape.started)
  exact ⟨_, after, rfl, rfl, source, reached⟩

/-! ### Where an alias is bound last -/

/-- A partial match found by the start step alone. -/
theorem PartialMatch.started {first : NodePattern}
    (found : PartialMatch V query [.node first] b) :
    ∃ start,
      resolveStartOrAllStep first (whereFilters query first.aliasName) = .ok start ∧
      Started V start b := by
  obtain ⟨first', segments, start, position, started, reached⟩ := found
  rw [List.cons.injEq] at position
  obtain ⟨same, nothing⟩ := position
  cases same
  cases segments with
  | nil => exact ⟨start, started, reached⟩
  | cons segment rest => cases nothing

omit [Chrono] in
/-- A pattern binds each of its node aliases a last time: by a hop, or else by
the start step. -/
theorem lastNodeBinding {first : NodePattern} {x : String}
    (segments : List (EdgePattern × NodePattern))
    (bound : x ∈ nodeAliasesOf (.node first :: segmentSteps segments)) :
    (first.aliasName = x ∧ x ∉ nodeAliasesOf (segmentSteps segments)) ∨
      ∃ before edge y after, segments = before ++ (edge, y) :: after ∧ y.aliasName = x ∧
        x ∉ nodeAliasesOf (segmentSteps after) := by
  induction segments using List.reverseRecOn with
  | nil =>
      left
      exact ⟨(List.mem_singleton.mp bound).symm, List.not_mem_nil⟩
  | append_singleton segments segment inductionHypothesis =>
      obtain ⟨edge, y⟩ := segment
      have unfolded : nodeAliasesOf (segmentSteps (segments ++ [(edge, y)])) =
          nodeAliasesOf (segmentSteps segments) ++ [y.aliasName] := by
        rw [nodeAliasesOf_segmentSteps, nodeAliasesOf_segmentSteps, List.map_append]
        rfl
      by_cases here : y.aliasName = x
      · exact .inr ⟨segments, edge, y, [], rfl, here, List.not_mem_nil⟩
      · have earlier : x ∈ nodeAliasesOf (.node first :: segmentSteps segments) := by
          have whole : x ∈ first.aliasName ::
              (nodeAliasesOf (segmentSteps segments) ++ [y.aliasName]) := by
            rw [← unfolded]
            exact bound
          rw [List.mem_cons, List.mem_append, List.mem_singleton] at whole
          rcases whole with isFirst | inSegments | isLast
          · exact List.mem_cons.mpr (.inl isFirst)
          · exact List.mem_cons.mpr (.inr inSegments)
          · exact absurd isLast.symm here
        rcases inductionHypothesis earlier
          with ⟨isFirst, outside⟩ | ⟨before, edge', y', after, rfl, same, outside⟩
        · refine .inl ⟨isFirst, ?_⟩
          rw [unfolded, List.mem_append, List.mem_singleton, not_or]
          exact ⟨outside, Ne.symm here⟩
        · refine .inr ⟨before, edge', y', after ++ [(edge, y)], by simp, same, ?_⟩
          rw [nodeAliasesOf_segmentSteps, List.map_append, List.mem_append, not_or,
            ← nodeAliasesOf_segmentSteps]
          exact ⟨outside, by simpa using Ne.symm here⟩

/-- The node that an alias ends up bound to was found by the start step, if no
hop leads to the alias, and else by the last hop that does. -/
theorem PartialMatch.lastBound (found : PartialMatch V query query.pattern.steps b)
    {x : String} (bound : x ∈ nodeAliasesOf query.pattern.steps) :
    (∃ first rest start a, query.pattern.steps = .node first :: rest ∧
      first.aliasName = x ∧
      x ∉ nodeAliasesOf rest ∧
      resolveStartOrAllStep first (whereFilters query first.aliasName) = .ok start ∧
      Started V start a ∧ b.nodes[x]? = a.nodes[x]?) ∨
    ∃ front u edge y back a b',
      query.pattern.steps = front ++ .node u :: .edge edge :: .node y :: back ∧
      y.aliasName = x ∧ x ∉ nodeAliasesOf back ∧ HopMade V query front u edge y a b' ∧
      b.nodes[x]? = b'.nodes[x]? := by
  obtain ⟨first, segments, -, position, -⟩ := id found
  rw [position] at found bound
  -- hops to other aliases leave the node alone
  have kept {part : List PatternStep} {later : List (EdgePattern × NodePattern)}
      (outside : x ∉ nodeAliasesOf (segmentSteps later)) (a' : Binding)
      {between front back : List PatternStep} {u y : NodePattern} {edge : EdgePattern}
      {a b : Binding}
      (_ : part ++ between = front ++ [.node u])
      (rest : segmentSteps later = between ++ .edge edge :: .node y :: back)
      (hop : HopMade V query front u edge y a b) (same : a.nodes[x]? = a'.nodes[x]?) :
      b.nodes[x]? = a'.nodes[x]? := by
    rw [← same]
    apply hop.agreesOutside.nodes
    intro here
    apply outside
    rw [List.mem_singleton.mp here, rest]
    exact mem_nodeAliasesOf (by simp)
  rcases lastNodeBinding segments bound
    with ⟨isFirst, outside⟩ | ⟨before, edge, y, after, rfl, named, outside⟩
  · left
    obtain ⟨a, foundA, carried⟩ :=
      @PartialMatch.backtrack _ V query [.node first] b segments found
      ⟨[], first, rfl⟩
    obtain ⟨start, started, startedA⟩ := foundA.started
    refine ⟨first, _, start, a, position, isFirst, outside, started, startedA, ?_⟩
    apply carried (fun c => c.nodes[x]? = a.nodes[x]?) rfl
    intro between front u edge y back a' b' upTo rest hop
    exact kept outside a upTo rest hop
  · right
    obtain ⟨front, u, ends, -⟩ := @endsAtNode first before
    have split := segmentSteps_from ends edge y after
    rw [split] at found
    obtain ⟨b', foundB, carried⟩ :=
      found.backtrack after ⟨front ++ [.node u, .edge edge], y, by simp⟩
    obtain ⟨a, hop⟩ := foundB.lastHop
    refine ⟨front, u, edge, y, segmentSteps after, a, b', ?_, named, outside, hop, ?_⟩
    · rw [position, split, List.append_assoc]
      rfl
    · apply carried (fun c => c.nodes[x]? = b'.nodes[x]?) rfl
      intro between front' u' edge' y' back a' b'' upTo rest hop'
      exact kept outside b' upTo rest hop'

omit [Chrono] in
/-- A pattern binds each of its edge aliases a last time. -/
theorem lastEdgeBinding {x : String} (segments : List (EdgePattern × NodePattern))
    (bound : x ∈ edgeAliasesOf (segmentSteps segments)) :
    ∃ before edge y after, segments = before ++ (edge, y) :: after ∧
      edge.aliasName = some x ∧
      x ∉ edgeAliasesOf (segmentSteps after) := by
  induction segments using List.reverseRecOn with
  | nil => cases bound
  | append_singleton segments segment inductionHypothesis =>
      obtain ⟨edge, y⟩ := segment
      by_cases here : edge.aliasName = some x
      · exact ⟨segments, edge, y, [], rfl, here, List.not_mem_nil⟩
      · have notLast : x ∉ edge.aliasName.toList :=
          fun named => here (Option.mem_toList.mp named)
        rw [edgeAliasesOf_segmentSteps, List.flatMap_append, List.mem_append] at bound
        have earlier := bound.resolve_right (by simpa using notLast)
        rw [← edgeAliasesOf_segmentSteps] at earlier
        obtain ⟨before, edge', y', after, rfl, named, outside⟩ :=
          inductionHypothesis earlier
        refine ⟨before, edge', y', after ++ [(edge, y)], by simp, named, ?_⟩
        rw [edgeAliasesOf_segmentSteps, List.flatMap_append, List.mem_append, not_or,
          ← edgeAliasesOf_segmentSteps]
        exact ⟨outside, by simpa using notLast⟩

/-- The edge that an alias ends up bound to was found by the last hop that has
the alias. -/
theorem PartialMatch.lastEdgeBound
    (found : PartialMatch V query query.pattern.steps b) {x : String}
    (bound : x ∈ edgeAliasesOf query.pattern.steps) :
    ∃ front u edge y back a b',
      query.pattern.steps = front ++ .node u :: .edge edge :: .node y :: back ∧
      edge.aliasName = some x ∧ x ∉ edgeAliasesOf back ∧
        HopMade V query front u edge y a b' ∧
      b.edges[x]? = b'.edges[x]? := by
  obtain ⟨first, segments, -, position, -⟩ := id found
  rw [position] at found bound
  obtain ⟨before, edge, y, after, rfl, named, outside⟩ := lastEdgeBinding segments bound
  obtain ⟨front, u, ends, -⟩ := @endsAtNode first before
  have split := segmentSteps_from ends edge y after
  rw [split] at found
  obtain ⟨b', foundB, carried⟩ :=
    found.backtrack after ⟨front ++ [.node u, .edge edge], y, by simp⟩
  obtain ⟨a, hop⟩ := foundB.lastHop
  refine ⟨front, u, edge, y, segmentSteps after, a, b', ?_, named, outside, hop, ?_⟩
  · rw [position, split, List.append_assoc]
    rfl
  · apply carried (fun c => c.edges[x]? = b'.edges[x]?) rfl
    intro between front' u' edge' y' back a' b'' upTo rest hop' same
    rw [← same]
    apply hop'.agreesOutside.edges
    intro here
    apply outside
    rw [rest]
    exact List.mem_filterMap.mpr ⟨.edge edge', by simp, Option.mem_toList.mp here⟩

end PartialMatches

end GraphEngine
