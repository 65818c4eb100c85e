/-
Module: GraphEngine.Proofs.LabelFlow
Layer: Proofs
Purpose: Which labels a pattern binds.  Executors resolve the start node under
  its label and follow edges from there; the label that a hop target declares is
  not checked.  A binding has the declared labels if every hop that is really
  made leads to them, and tracking the labels that edge types lead to says for
  which patterns the schema alone sees to that.
Trusted boundary: none
Main exports: hopLabels, possibleLabels, LabelsForced, HopsLabelled,
  LabelsSound, labelsSound_of_hopsLabelled, hopsLabelled_of_forced,
  labelsSound_fails_hop
-/
import GraphEngine.Proofs.Topology

namespace GraphEngine

open NaivePlanner (hopStep whereFilters)

/-! ### Labels along a pattern -/

/-- The labels an edge type declares for its ends, in a direction. -/
def EdgeDef.ends (edgeDef : EdgeDef) (direction : Direction) : Label × Label :=
  if direction = .outgoing then (edgeDef.source, edgeDef.target)
    else (edgeDef.target, edgeDef.source)

/-- The labels one edge away. -/
def stepLabels (schema : Schema) (edge : EdgePattern) (labels : List Label) :
    List Label :=
  schema.edges.toList.filterMap fun entry =>
    if (edge.edgeType = none ∨ edge.edgeType = some entry.1) ∧
      (entry.2.ends edge.direction).1 ∈ labels then
      some (entry.2.ends edge.direction).2
    else none

/-- The labels at the end of the walks of one length. -/
def walkLabels (schema : Schema) (edge : EdgePattern) (labels : List Label) :
    Nat → List Label
  | 0 => labels
  | depth + 1 => stepLabels schema edge (walkLabels schema edge labels depth)

/-- The labels at the end of the walks of an accepted length. -/
def hopLabels (schema : Schema) (edge : EdgePattern) (labels : List Label) : List Label :=
  ((List.range (edge.hops.max + 1)).filter fun depth =>
    decide (1 ≤ depth ∧ edge.hops.min ≤ depth)).flatMap
    (walkLabels schema edge labels)

/-- The edges of a pattern, each with the node after it. -/
def segmentsOf : List PatternStep → List (EdgePattern × NodePattern)
  | .edge edge :: .node toNode :: rest => (edge, toNode) :: segmentsOf rest
  | _ => []

/-- The labels at the node reached, and those that the alias `x` has been bound
to last. -/
def trackLabels (schema : Schema) (x : String) (seen : List Label × List Label)
    (segment : EdgePattern × NodePattern) : List Label × List Label :=
  (hopLabels schema segment.1 seen.1,
    if segment.2.aliasName = x then hopLabels schema segment.1 seen.1 else seen.2)

/-- The labels that an alias of a pattern can be bound to. -/
def possibleLabels (schema : Schema) (pattern : Pattern) (x : String) : List Label :=
  match pattern.steps with
  | .node first :: rest =>
      ((segmentsOf rest).foldl (trackLabels schema x)
        (first.label.toList, if first.aliasName = x then first.label.toList else [])).2
  | _ => []

/-- No alias can be bound to a label other than the ones declared for it. -/
def LabelsForced (schema : Schema) (pattern : Pattern) : Prop :=
  ∀ node, .node node ∈ pattern.steps → ∀ label, node.label = some label →
    ∀ other ∈ possibleLabels schema pattern node.aliasName, other = label

/-- A hop that is really made, and binds an alias for the last time, leads to a
node with every label that the pattern declares for the alias. -/
def HopsLabelled [Chrono] (V : GraphView) (query : Query) : Prop :=
  ∀ node label, .node node ∈ query.pattern.steps → node.label = some label →
    ∀ front u edge y back a b,
      query.pattern.steps = front ++ .node u :: .edge edge :: .node y :: back →
      y.aliasName = node.aliasName → node.aliasName ∉ nodeAliasesOf back →
      HopMade V query front u edge y a b →
      ∃ v record, b.nodes[node.aliasName]? = some v ∧ V.nodeRecord v record ∧
        record.label = label

/-- Every alias whose pattern declares a label is bound to a node with that
label. -/
def LabelsSound (V : GraphView) (pattern : Pattern) (b : Binding) : Prop :=
  ∀ node, .node node ∈ pattern.steps → ∀ label, node.label = some label →
    ∃ v record, b.nodes[node.aliasName]? = some v ∧ V.nodeRecord v record ∧
      record.label = label

/-- The segments of a pattern are read back from its steps. -/
theorem segmentsOf_segmentSteps (segments : List (EdgePattern × NodePattern)) :
    segmentsOf (segmentSteps segments) = segments := by
  induction segments with
  | nil => rfl
  | cons segment rest inductionHypothesis =>
      have unfolded : segmentsOf (segmentSteps (segment :: rest)) =
          segment :: segmentsOf (segmentSteps rest) := rfl
      rw [unfolded, inductionHypothesis]

/-! ### Walks stay within the labels tracked -/

/-- A node has one of some labels. -/
def Dataset.LabelAmong (dataset : Dataset) (labels : List Label) (v : NodeId) : Prop :=
  ∃ label ∈ labels, dataset.HasLabel v label

section Walks

variable {dataset : Dataset} {hasher : Partitioning} {partitions : PartitionMap}
variable {serve : GenerationHandle → IndexGeneration}

/-- In a dataset that conforms, an edge joins the labels its type declares. -/
theorem Dataset.Conforms.leads (conforms : dataset.Conforms) {direction : Direction}
    {edge : EdgeType × EdgeRow} (member : edge ∈ dataset.edges) {u v : NodeId}
    (leads : Dataset.Leads direction edge u v) :
    ∃ edgeDef, dataset.schema.edgeDef edge.1 = some edgeDef ∧
      dataset.HasLabel u (edgeDef.ends direction).1 ∧
        dataset.HasLabel v (edgeDef.ends direction).2 := by
  rcases conforms.edge edge member with ⟨edgeDef, declared, -, source, target⟩
  refine ⟨edgeDef, declared, ?_⟩
  cases direction <;> simp only [Dataset.Leads, orient, decide_true, if_true,
    reduceCtorEq, decide_false,
    Bool.false_eq_true, if_false, Prod.mk.injEq] at leads <;>
    rcases leads with ⟨rfl, rfl⟩
  · exact ⟨source, target⟩
  · exact ⟨target, source⟩

/-- One edge further the labels are among those one edge away. -/
theorem labelAmong_step (conforms : dataset.Conforms)
    (unique : dataset.UniqueNodeIds)
    (served : dataset.ServedBy hasher partitions serve) {edge : EdgePattern}
    {labels : List Label} {u v : NodeId} (among : dataset.LabelAmong labels u)
    {t : EdgeType} {e : EdgeId}
    (adjacent : (clusterView hasher (servingOf partitions serve)).adjacent
      edge.direction u t e v)
    (typed : TypeAllows (edge.edgeType.map EdgeType.name) t) :
    dataset.LabelAmong (stepLabels dataset.schema edge labels) v := by
  rcases served.adjacent_iff.mp adjacent with ⟨-, -, -, row, member, leads, rfl, -⟩
  rcases conforms.leads member leads with ⟨edgeDef, declared, source, target⟩
  refine ⟨(edgeDef.ends edge.direction).2, ?_, target⟩
  apply List.mem_filterMap.mpr
  refine ⟨(row.1, edgeDef),
    Std.ExtTreeMap.mem_toList_iff_getElem?_eq_some.mpr declared, ?_⟩
  apply if_pos
  constructor
  · cases asked : edge.edgeType with
    | none => exact .inl rfl
    | some t =>
        right
        congr 1
        apply EdgeType.name_injective
        apply Eq.symm
        apply typed
        rw [asked]
        rfl
  · rcases among with ⟨label, known, labelled⟩
    rw [source.unique unique labelled]
    exact known

/-- The rounds of a hop stay within the labels tracked. -/
theorem HopWalk.labelAmong (conforms : dataset.Conforms)
    (unique : dataset.UniqueNodeIds)
    (served : dataset.ServedBy hasher partitions serve) {query : Query}
    {fromAlias : String} {edge : EdgePattern} {toNode : NodePattern}
    {labels : List Label} {u : NodeId} (among : dataset.LabelAmong labels u)
    {depth : Nat} {b b' : Binding} (bound : b.nodes[fromAlias]? = some u)
    (walk : HopWalk (clusterView hasher (servingOf partitions serve))
      (hopStep query fromAlias edge toNode) depth b b') :
    ∃ v, b'.nodes[cursorAt (hopStep query fromAlias edge toNode) depth]? = some v ∧
      dataset.LabelAmong (walkLabels dataset.schema edge labels depth) v := by
  induction depth generalizing b' with
  | zero =>
      have same : b' = b := walk
      subst same
      exact ⟨u, bound, among⟩
  | succ depth inductionHypothesis =>
      rcases walk with ⟨mid, earlier, w, t, e, v, atCursor, adjacent, typed, rfl⟩
      rcases inductionHypothesis earlier with ⟨w', reached, amongMid⟩
      have same : w' = w := Option.some.inj (reached.symm.trans atCursor)
      subst same
      refine ⟨v, ?_, labelAmong_step conforms unique served amongMid adjacent typed⟩
      rw [Binding.extend_nodes, Binding.bindNode_nodes]
      exact if_pos rfl

/-- A hop ends at a node with one of the labels tracked for it. -/
theorem HopReaches.labelAmong (conforms : dataset.Conforms)
    (unique : dataset.UniqueNodeIds)
    (served : dataset.ServedBy hasher partitions serve) {query : Query}
    {fromAlias : String} {edge : EdgePattern} {toNode : NodePattern}
    {labels : List Label} {u : NodeId} (among : dataset.LabelAmong labels u)
    {b b' : Binding} (bound : b.nodes[fromAlias]? = some u)
    (reaches : HopReaches (clusterView hasher (servingOf partitions serve))
      (hopStep query fromAlias edge toNode) b b') :
    ∃ v, b'.nodes[toNode.aliasName]? = some v ∧
      dataset.LabelAmong (hopLabels dataset.schema edge labels) v := by
  rcases reaches with ⟨depth, positive, lower, upper, walk⟩
  rcases walk.labelAmong conforms unique served among bound
    with ⟨v, boundV, label, known, labelled⟩
  have atTarget : cursorAt (hopStep query fromAlias edge toNode) depth =
      toNode.aliasName := by
    rcases Nat.exists_eq_add_of_le' positive with ⟨less, rfl⟩
    rfl
  rw [atTarget] at boundV
  refine ⟨v, boundV, label, List.mem_flatMap.mpr ⟨depth, ?_, known⟩, labelled⟩
  rw [List.mem_filter, List.mem_range, decide_eq_true_eq]
  exact ⟨Nat.lt_succ_of_le upper, positive, lower⟩

end Walks

/-! ### Bindings stay within the labels tracked -/

section Flow

variable [Chrono] {dataset : Dataset} {hasher : Partitioning} {partitions : PartitionMap}
variable {serve : GenerationHandle → IndexGeneration} {query : Query}
variable {queryPlan : QueryPlan}
variable {first : NodePattern} {segments : List (EdgePattern × NodePattern)}
variable {start : PlanStep}
variable {antiJoins : List PlanStep}

omit [Chrono] in
/-- The start step enforces the label of the start node. -/
theorem started_labelAmong (served : dataset.ServedBy hasher partitions serve)
    (shape : PlanShape query queryPlan first segments start antiJoins) {a : Binding}
    (started : Started (clusterView hasher (servingOf partitions serve)) start a) :
    ∃ v, a = Binding.fromNode first.aliasName v ∧
      dataset.LabelAmong first.label.toList v := by
  rcases start_cases shape.started
    with ⟨label, labelled, ⟨-, rfl⟩ | ⟨filter, key, -, -, -, rfl⟩⟩
  · rcases started with ⟨v, found, rfl⟩
    rcases served.labelled_sound found with ⟨node, member, id, named⟩
    refine ⟨v, rfl, label, ?_, node, member, id, Label.name_injective _ _ named⟩
    rw [labelled]
    exact List.mem_singleton_self label
  · rcases started with ⟨v, found, rfl⟩
    rcases served.started_sound found with ⟨node, member, id, indexed⟩
    refine ⟨v, rfl, label, ?_, node, member, id, ?_⟩
    · rw [labelled]
      exact List.mem_singleton_self label
    · exact Label.name_injective _ _ ((mem_indexedKeys _).mp indexed).1

/-- The labels tracked along a prefix of the pattern bound those of every
binding reached by it: at the node reached, and at an alias `x`. -/
theorem reached_labelAmong (conforms : dataset.Conforms)
    (unique : dataset.UniqueNodeIds)
    (served : dataset.ServedBy hasher partitions serve)
    (shape : PlanShape query queryPlan first segments start antiJoins)
    {keep : AntiJoinStep → Binding → Prop} (x : String)
    (before : List (EdgePattern × NodePattern)) {b : Binding}
    (reached : Reached (clusterView hasher (servingOf partitions serve)) keep start
      (hopsOf query first.aliasName before) b) {seen : List Label × List Label}
    (tracked : seen = before.foldl (trackLabels dataset.schema x)
      (first.label.toList, if first.aliasName = x then first.label.toList else [])) :
    (∃ v, b.nodes[lastAlias first.aliasName before]? = some v ∧
      dataset.LabelAmong seen.1 v) ∧
      ∀ v, b.nodes[x]? = some v → dataset.LabelAmong seen.2 v := by
  induction before using List.reverseRecOn generalizing b seen with
  | nil =>
      subst tracked
      rcases started_labelAmong served shape reached with ⟨v, rfl, among⟩
      refine ⟨⟨v, ?_, among⟩, ?_⟩
      · rw [Binding.fromNode_nodes]
        exact if_pos rfl
      · intro w bound
        rw [Binding.fromNode_nodes] at bound
        split at bound
        case isTrue same =>
            cases bound
            rw [List.foldl_nil, if_pos same]
            exact among
        case isFalse => cases bound
  | append_singleton before segment inductionHypothesis =>
      rcases segment with ⟨edge, toNode⟩
      rw [List.foldl_append] at tracked
      rcases reached_segment reached with ⟨a, reachedA, reaches, -⟩
      rcases inductionHypothesis reachedA rfl with ⟨⟨u, bound, among⟩, earlier⟩
      rcases reaches.labelAmong conforms unique served among bound
        with ⟨v, boundV, amongV⟩
      have next : dataset.LabelAmong seen.1 v := by
        rw [tracked]
        exact amongV
      refine ⟨⟨v, ?_, next⟩, ?_⟩
      · rw [lastAlias_append]
        exact boundV
      · intro w boundX
        have second : seen.2 = if toNode.aliasName = x then seen.1 else
            (before.foldl (trackLabels dataset.schema x)
              (first.label.toList, if first.aliasName = x then first.label.toList
                else [])).2 := by
          rw [tracked]
          rfl
        rw [second]
        by_cases here : toNode.aliasName = x
        · rw [if_pos here]
          have same : v = w := by
            rw [here] at boundV
            exact Option.some.inj (boundV.symm.trans boundX)
          rw [← same]
          exact next
        · rw [if_neg here]
          apply earlier w
          have outside : x ∉ [(hopStep query
                (lastAlias first.aliasName before) edge toNode).toAlias] := by
            rw [List.mem_singleton]
            exact Ne.symm here
          rcases reaches with ⟨depth, -, -, -, walk⟩
          rw [← walk.agreesOutside.nodes x outside]
          exact boundX

omit [Chrono] in
/-- Segments that do not bind an alias leave its labels alone. -/
theorem trackLabels_outside {schema : Schema} {x : String}
    {seen : List Label × List Label} {after : List (EdgePattern × NodePattern)}
    (outside : x ∉ after.map fun segment => segment.2.aliasName) :
    (after.foldl (trackLabels schema x) seen).2 = seen.2 := by
  induction after generalizing seen with
  | nil => rfl
  | cons segment rest inductionHypothesis =>
      rw [List.map_cons, List.mem_cons, not_or] at outside
      rw [List.foldl_cons, inductionHypothesis outside.2, trackLabels]
      exact if_neg (Ne.symm outside.1)

/-- Where the schema lets no other label arise, every hop leads to the label
declared. -/
theorem hopsLabelled_of_forced (conforms : dataset.Conforms)
    (unique : dataset.UniqueNodeIds)
    (planned : NaivePlanner.plan query = .ok queryPlan)
    (served : dataset.ServedBy hasher partitions serve)
    (reachable : FullyReachable hasher partitions)
    (forced : LabelsForced dataset.schema query.pattern) :
    HopsLabelled (clusterView hasher (servingOf partitions serve)) query := by
  obtain ⟨first, segments, start, antiJoins, shape⟩ := planShape_of_plan planned
  intro node label inPattern declared front u edge y back a b position named outside hop
  obtain ⟨before, after, rfl, rfl, source, reachedA⟩ := shape.reached_hopMade position hop
  have reachedB : Reached (clusterView hasher (servingOf partitions serve))
      (fun _ _ => True) start
      (hopsOf query first.aliasName (before ++ [(edge, y)])) b := by
    rw [hopsOf_append, hopsOf, hopsOf, reached_append, source]
    exact ⟨a, reachedA, hop.made⟩
  obtain ⟨⟨v, boundY, -⟩, among⟩ :=
    reached_labelAmong conforms unique served shape node.aliasName
    (before ++ [(edge, y)]) reachedB rfl
  rw [lastAlias_append, named] at boundY
  obtain ⟨other, possible, row, inTables, id, rfl⟩ := among v boundY
  have tracked : possibleLabels dataset.schema query.pattern node.aliasName =
      ((before ++ [(edge, y)]).foldl (trackLabels dataset.schema node.aliasName)
        (first.label.toList,
        if first.aliasName = node.aliasName then first.label.toList else [])).2 := by
    rw [possibleLabels, shape.patternEq]
    dsimp only
    rw [segmentsOf_segmentSteps, List.append_cons, List.foldl_append]
    apply trackLabels_outside
    rwa [← nodeAliasesOf_segmentSteps]
  rw [← tracked] at possible
  exact ⟨v, _, boundY,
    served.nodeRecord_complete reachable unique ⟨row, inTables, id, rfl⟩,
    forced node inPattern label declared row.1 possible⟩

/-- If every hop that is made leads to the labels declared for its target, then
every alias of a returned binding has its labels: the start step sees to those
of the start node.

* `labelled`: the condition, on the hops that the partitions make while the
  pattern is matched; a hop that no binding comes to is not asked about;
* `unique`, `served`, `reachable`: node ids are unique and every partition
  answers from a build of the tables, so that the label of a node is that of its
  one record. -/
theorem labelsSound_of_hopsLabelled (unique : dataset.UniqueNodeIds)
    {schema : Schema} (valid : SchemaValidator.validate query schema = .ok ())
    (planned : NaivePlanner.plan query = .ok queryPlan)
    (served : dataset.ServedBy hasher partitions serve)
    (reachable : FullyReachable hasher partitions)
    (labelled : HopsLabelled
      (clusterView hasher (servingOf partitions serve)) query) {out : List Binding}
    (returns : ((inProcess hasher).execute partitions queryPlan).Returns
      serve (.ok out)) {b : Binding} (member : b ∈ out) :
    LabelsSound (clusterView hasher (servingOf partitions serve)) query.pattern b := by
  obtain ⟨first, segments, start, antiJoins, shape⟩ := planShape_of_plan planned
  have checked := SchemaValidator.validate_eq_ok_iff.mp valid
  rw [shape.planEq] at returns
  have found := shape.partialMatch ((execute_sound hasher partitions serve
    (wellScoped_of_plan checked shape) query.returns).ok returns b member)
  intro node inPattern label declared
  have inAliases : node.aliasName ∈ nodeAliasesOf query.pattern.steps :=
    mem_nodeAliasesOf inPattern
  rcases found.lastBound inAliases with
    ⟨first', rest, start', a, position, named, outside, started, startedA, same⟩ |
    ⟨front, u, edge, y, back, a, b', position, named, outside, hop, same⟩
  · -- only the start node has the alias
    have isFirst : node = first' := by
      rw [position] at inPattern
      rcases List.mem_cons.mp inPattern with here | later
      · cases here
        rfl
      · exact absurd (mem_nodeAliasesOf later) outside
    subst isFirst
    rw [shape.patternEq, List.cons.injEq] at position
    cases position.1
    have sameStart : start' = start := Except.ok.inj (started.symm.trans shape.started)
    subst sameStart
    obtain ⟨v, rfl, other, known, row, inTables, id, rfl⟩ :=
      started_labelAmong served shape startedA
    rw [declared] at known
    refine ⟨v, _, ?_,
      served.nodeRecord_complete reachable unique ⟨row, inTables, id, rfl⟩,
      List.mem_singleton.mp known⟩
    rw [same, Binding.fromNode_nodes]
    exact if_pos rfl
  · obtain ⟨v, record, bound, recorded, isLabel⟩ :=
      labelled node label inPattern declared front u edge y back a b' position
        named outside hop
    exact ⟨v, record, same.trans bound, recorded, isLabel⟩

end Flow

section

open scoped Social

/-- Both aliases of the query for acquaintances have their label at every hop. -/
theorem acquaintances_forced :
    LabelsForced Social.dataset.schema Social.acquaintances.pattern := by
  have aliases : ∀ node, .node node ∈ Social.acquaintances.pattern.steps →
      node = Social.labelled "a" Social.person ∨
        node = Social.labelled "b" Social.person := by
    intro node member
    simpa [Social.acquaintances, Social.matching] using member
  have fromA : possibleLabels Social.dataset.schema Social.acquaintances.pattern "a" =
      [Social.person] := by
    decide
  have fromB : possibleLabels Social.dataset.schema Social.acquaintances.pattern "b" =
      [Social.person] := by
    decide
  intro node member label declared other possible
  rcases aliases node member with rfl | rfl
  · cases declared
    rw [Social.labelled, fromA] at possible
    exact List.mem_singleton.mp possible
  · cases declared
    rw [Social.labelled, fromB] at possible
    exact List.mem_singleton.mp possible

theorem acquaintances_labelsSound :
    LabelsSound (clusterView Social.single
        (servingOf (deployment Social.single) (Social.dataset.deployed Social.single)))
      Social.acquaintances.pattern (Social.pair 1 2) :=
  labelsSound_of_hopsLabelled Social.uniqueNodeIds Social.acquaintances_valid
    Social.acquaintances_planned (served_deployment _ _) (fullyReachable_deployment _)
    (hopsLabelled_of_forced Social.conforms Social.uniqueNodeIds
      Social.acquaintances_planned
      (served_deployment _ _) (fullyReachable_deployment _) acquaintances_forced)
    (acquaintances_single ▸ Client.returns_run _ Social.inOrder 0 _)
    List.mem_cons_self

/-- `MATCH (a:Person)-[:WORKS_AT]->(b:Person) RETURN b`. -/
def worksAtPerson : Query :=
  Social.matching
    [.node (Social.labelled "a" Social.person), .edge (Social.typed Social.worksAt),
     .node (Social.labelled "b" Social.person)] "b"

/-- Both labels and the edge type are declared, so the validator accepts the
pattern, but the edge leads to a company and the label of the target is not
checked. -/
theorem labelsSound_fails_hop :
    SchemaValidator.validate worksAtPerson Social.dataset.schema = .ok () ∧
    Social.dataset.Conforms ∧ Social.dataset.UniqueNodeIds ∧
      Social.dataset.UniqueEdgeIds ∧
    Social.dataset.ServedBy Social.single (deployment Social.single)
      (Social.dataset.deployed Social.single) ∧
    FullyReachable Social.single (deployment Social.single) ∧
    ∃ plan out b, NaivePlanner.plan worksAtPerson = .ok plan ∧
      ((inProcess Social.single).execute (deployment Social.single) plan).run
        (fun _ => Social.dataset.deployed Social.single) Social.inOrder 0 =
          .ok out ∧ b ∈ out ∧
      ¬ LabelsSound (clusterView Social.single
          (servingOf (deployment Social.single) (Social.dataset.deployed Social.single)))
        worksAtPerson.pattern b := by
  refine ⟨by decide, Social.conforms, Social.uniqueNodeIds, Social.uniqueEdgeIds,
    served_deployment _ _,
    fullyReachable_deployment _, _, [Social.pair 1 3], Social.pair 1 3,
      rfl, by decide +kernel,
    List.mem_cons_self, ?_⟩
  intro sound
  rcases sound (Social.labelled "b" Social.person)
    (by simp [worksAtPerson, Social.matching]) Social.person rfl
    with ⟨v, record, bound, recorded, labelled⟩
  have served := served_deployment Social.dataset Social.single
  have nodeB : v = ⟨3⟩ := by
    have found : (Social.pair 1 3).nodes["b"]? = some ⟨3⟩ := by decide
    exact Option.some.inj (bound.symm.trans found)
  rcases served.nodeRecord_sound recorded with ⟨node, member, id, rfl⟩
  have notPerson : ∀ node ∈ Social.dataset.nodes, node.2.id = ⟨3⟩ →
      node.1 ≠ Social.person := by
    decide
  exact notPerson node member (id.trans nodeB) labelled

end

end GraphEngine
