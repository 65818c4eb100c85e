/-
Module: GraphEngine.Spec.GraphView
Layer: Spec
Purpose: What a plan means.  A `GraphView` is what a query can learn from the
  graph: start nodes, labelled nodes, adjacency, records, and which nodes have
  an owner that answers.  Over a view every plan step is a relation on bindings,
  and a plan denotes the set of bindings it reaches.
Trusted boundary: none
Main exports: GraphView, HopOnce, HopWalk, HopRel, Keep, Reached, GraphView.Le,
  Reached.mono
-/
import GraphEngine.Model.DistributedExecutor
import Mathlib.Data.List.Forall2

namespace GraphEngine

/-- What a query can learn from the graph, one relation for every question that
the executor asks: which nodes a lookup or a scan finds, where the entries of a
node lead, which records nodes and edges have, whether the partition that owns a
node is reached, and which candidates an anti-join finds.  Both the tables and a
cluster are such views. -/
structure GraphView where
  started : (labelOrType property : String) → PropertyKey → NodeId → Prop
  labelled : (label : String) → NodeId → Prop
  adjacent : Direction → NodeId → EdgeType → EdgeId → NodeId → Prop
  nodeRecord : NodeId → NodeRecord → Prop
  edgeRecord : EdgeId → EdgeRecord → Prop
  owned : NodeId → Prop
  candidate : Direction → NodeId → EdgeType → NodeId → EdgeRecord → Prop

/-- An untyped step allows every type. -/
def TypeAllows (edgeType : Option String) (t : EdgeType) : Prop :=
  ∀ name, edgeType = some name → t.name = name

/-- The executor compares edge types as the denotation does. -/
theorem typeMatches_iff {edgeType : Option String} {entry : AdjacencyEntry} :
    typeMatches edgeType entry = true ↔ TypeAllows edgeType entry.edgeType := by
  cases edgeType <;> simp [typeMatches, TypeAllows]

/-! ### Steps -/

/-- The bindings a start step yields. -/
def Started (V : GraphView) : PlanStep → Binding → Prop
  | .resolveStart step, b =>
      ∃ v, V.started step.labelOrType step.property step.key v ∧
        b = Binding.fromNode step.aliasName v
  | .resolveAll step, b =>
      ∃ v, V.labelled step.label v ∧ b = Binding.fromNode step.aliasName v
  | .expandHop _, _ => False
  | .antiJoin _, _ => False

/-- One edge further. -/
def HopOnce (V : GraphView) (step : ExpandHop) (b b' : Binding) : Prop :=
  ∃ u t e v, b.nodes[step.fromAlias]? = some u ∧ V.adjacent step.direction u t e v ∧
    TypeAllows step.edgeType t ∧ b' = b.extend step.toAlias v step.edgeAlias e

/-- The alias from which the round after `depth` rounds continues. -/
def cursorAt (step : ExpandHop) : Nat → String
  | 0 => step.fromAlias
  | _ + 1 => step.toAlias

/-- The bindings after `depth` rounds. -/
def HopWalk (V : GraphView) (step : ExpandHop) : Nat → Binding → Binding → Prop
  | 0, b, b' => b' = b
  | depth + 1, b, b' =>
      ∃ mid, HopWalk V step depth b mid ∧
        HopOnce V (ScatterGatherExecutor.roundStep step (cursorAt step depth)
          (depth + 1)) mid b'

/-- An accepted depth was walked. -/
def HopReaches (V : GraphView) (step : ExpandHop) (b b' : Binding) : Prop :=
  ∃ depth, 1 ≤ depth ∧ step.hops.min ≤ depth ∧ depth ≤ step.hops.max ∧
    HopWalk V step depth b b'

variable [Chrono]

/-- The record of the target satisfies the filters. -/
def PassesFilters (V : GraphView) (step : ExpandHop) (b : Binding) : Prop :=
  step.filters = [] ∨ ∃ id record, b.nodes[step.toAlias]? = some id ∧
    V.nodeRecord id record ∧
    evaluateFilters record.properties step.filters = true

/-- A whole expansion step: the walk, then the filters. -/
def HopRel (V : GraphView) (step : ExpandHop) (b b' : Binding) : Prop :=
  HopReaches V step b b' ∧ PassesFilters V step b'

omit [Chrono] in
/-- The properties of what a binding binds an alias to; an edge alias shadows a
node alias. -/
inductive BoundProperties (V : GraphView) (b : Binding) (aliasName : String) :
    Properties → Prop where
  | edge {e : EdgeId} {record : EdgeRecord} (bound : b.edges[aliasName]? = some e)
      (recorded : V.edgeRecord e record) : BoundProperties V b aliasName record.properties
  | node {v : NodeId} {record : NodeRecord} (notEdge : b.edges[aliasName]? = none)
      (bound : b.nodes[aliasName]? = some v) (recorded : V.nodeRecord v record) :
      BoundProperties V b aliasName record.properties

/-- An outer condition with its outer side replaced by the literal that the
binding gives it. -/
def ResolvesTo (V : GraphView) (b : Binding) (condition : OuterCondition)
    (filter : PropertyFilter) : Prop :=
  ∃ properties value literal, BoundProperties V b condition.outer.aliasName properties ∧
    properties[condition.outer.property]? = some value ∧
    propertyValueToLiteral value = some literal ∧
    filter = { property := condition.property, op := condition.op, value := literal }

/-- A binding survives an anti-join when its outer conditions resolve, its
source is owned, and no candidate edge satisfies all conditions. -/
def Keep (V : GraphView) (step : AntiJoinStep) (b : Binding) : Prop :=
  ∃ u v resolved, b.nodes[step.fromAlias]? = some u ∧
    b.nodes[step.toAlias]? = some v ∧ V.owned u ∧
    List.Forall₂ (ResolvesTo V b) step.outerConditions resolved ∧
    ¬ ∃ t record, V.candidate step.direction u t v record ∧ TypeAllows step.edgeType t ∧
        evaluateFilters record.properties (step.literalConditions ++ resolved) = true

/-! ### Plans -/

/-- What one step makes of a set of bindings; `keep` decides the anti-joins. -/
def StepImage (V : GraphView) (keep : AntiJoinStep → Binding → Prop) (step : PlanStep)
    (S : Binding → Prop) (b : Binding) : Prop :=
  match step with
  | .expandHop hop => ∃ a, S a ∧ HopRel V hop a b
  | .antiJoin antiJoin => S b ∧ keep antiJoin b
  | .resolveStart _ | .resolveAll _ => False

/-- The bindings reached by a start step and the steps after it, over a graph.
`keep` says which bindings an anti-join lets through, since that depends on who
asks: the tables answer for every binding, a cluster for those whose partition
is reached. -/
def Reached (V : GraphView) (keep : AntiJoinStep → Binding → Prop) (start : PlanStep)
    (steps : List PlanStep) : Binding → Prop :=
  steps.foldl (fun S step => StepImage V keep step S) (Started V start)

/-- The last step of a plan acts on what the others reach. -/
theorem reached_append (V : GraphView) (keep : AntiJoinStep → Binding → Prop)
    (start : PlanStep) (steps : List PlanStep) (step : PlanStep) :
    Reached V keep start (steps ++ [step]) = StepImage V keep step
      (Reached V keep start steps) := by
  simp [Reached, List.foldl_append]

/-- Induction along a plan: a property of bindings that the start establishes
and every step passes on. -/
theorem Reached.induct {V : GraphView} {keep : AntiJoinStep → Binding → Prop}
    {start : PlanStep} {P : List PlanStep → Binding → Prop}
    (init : ∀ b, Started V start b → P [] b)
    (hop : ∀ done step a b, Reached V keep start done a → P done a →
      HopRel V step a b → P (done ++ [.expandHop step]) b)
    (antiJoin : ∀ done step b, Reached V keep start done b → P done b →
      keep step b → P (done ++ [.antiJoin step]) b) {steps : List PlanStep}
    {b : Binding} (reached : Reached V keep start steps b) : P steps b := by
  induction steps using List.reverseRecOn generalizing b with
  | nil => exact init b reached
  | append_singleton done step inductionHypothesis =>
      rw [reached_append] at reached
      cases step with
      | resolveStart step => exact reached.elim
      | resolveAll step => exact reached.elim
      | expandHop step =>
          obtain ⟨a, earlier, related⟩ := reached
          exact hop done step a b earlier (inductionHypothesis earlier) related
      | antiJoin step =>
          exact antiJoin done step b reached.1 (inductionHypothesis reached.1) reached.2

/-- Whatever the anti-joins decide, a binding reached has made every hop. -/
theorem Reached.unfiltered {V : GraphView} {keep : AntiJoinStep → Binding → Prop}
    {start : PlanStep} {steps : List PlanStep} {b : Binding}
    (reached : Reached V keep start steps b) :
    Reached V (fun _ _ => True) start steps b := by
  refine Reached.induct (P := fun done b => Reached V (fun _ _ => True) start done b)
    ?_ ?_ ?_ reached
  · exact fun b started => started
  · intro done step a b _ earlier related
    rw [reached_append]
    exact ⟨a, earlier, related⟩
  · intro done step b _ earlier _
    rw [reached_append]
    exact ⟨earlier, trivial⟩

/-! ### Aliases -/

/-- The node aliases a step binds. -/
def PlanStep.nodeAliases : PlanStep → List String
  | .resolveStart step => [step.aliasName]
  | .resolveAll step => [step.aliasName]
  | .expandHop step => [step.toAlias]
  | .antiJoin _ => []

/-- The edge aliases a step binds. -/
def PlanStep.edgeAliases : PlanStep → List String
  | .expandHop step => step.edgeAlias.toList
  | _ => []

omit [Chrono] in
/-- After at least one round the walk has bound its target, its edge alias, and
nothing else. -/
theorem HopWalk.aliases {V : GraphView} {step : ExpandHop} {depth : Nat} {b b' : Binding}
    (walk : HopWalk V step (depth + 1) b b') (x : String) :
    (x ∈ b'.nodes ↔ step.toAlias = x ∨ x ∈ b.nodes) ∧
      (x ∈ b'.edges ↔ step.edgeAlias = some x ∨ x ∈ b.edges) := by
  induction depth generalizing b' with
  | zero =>
      obtain ⟨mid, rfl, u, t, e, v, _, _, _, rfl⟩ := walk
      simp [ScatterGatherExecutor.roundStep]
  | succ depth inductionHypothesis =>
      obtain ⟨mid, earlier, u, t, e, v, _, _, _, rfl⟩ := walk
      obtain ⟨nodes, edges⟩ := inductionHypothesis earlier
      simp only [Binding.extend_nodes, Binding.mem_bindNode_nodes,
        Binding.mem_extend_edges, nodes, edges, ScatterGatherExecutor.roundStep]
      exact ⟨by simp, by simp⟩

/-- All bindings reached have the aliases of the steps executed, and no others. -/
theorem Reached.aliases {V : GraphView} {keep : AntiJoinStep → Binding → Prop}
    {start : PlanStep} {steps : List PlanStep} {b : Binding}
    (reached : Reached V keep start steps b) (x : String) :
    (x ∈ b.nodes ↔ x ∈ (start :: steps).flatMap PlanStep.nodeAliases) ∧
      (x ∈ b.edges ↔ x ∈ (start :: steps).flatMap PlanStep.edgeAliases) := by
  refine Reached.induct (P := fun done b =>
    (x ∈ b.nodes ↔ x ∈ (start :: done).flatMap PlanStep.nodeAliases) ∧
      (x ∈ b.edges ↔ x ∈ (start :: done).flatMap PlanStep.edgeAliases)) ?_ ?_ ?_ reached
  · intro b started
    cases start with
    | resolveStart step =>
        obtain ⟨v, _, rfl⟩ := started
        simp [PlanStep.nodeAliases, PlanStep.edgeAliases, eq_comm]
    | resolveAll step =>
        obtain ⟨v, _, rfl⟩ := started
        simp [PlanStep.nodeAliases, PlanStep.edgeAliases, eq_comm]
    | expandHop step => exact started.elim
    | antiJoin step => exact started.elim
  · rintro done step a b _ ⟨nodes, edges⟩ ⟨⟨depth, positive, _, _, walk⟩, _⟩
    obtain ⟨depth, rfl⟩ := Nat.exists_eq_add_of_le' positive
    obtain ⟨walkNodes, walkEdges⟩ := walk.aliases x
    rw [← List.cons_append, List.flatMap_append, List.flatMap_append, List.mem_append,
      List.mem_append, walkNodes, walkEdges, nodes, edges]
    simp [PlanStep.nodeAliases, PlanStep.edgeAliases, or_comm, eq_comm]
  · rintro done step b _ ⟨nodes, edges⟩ _
    rw [← List.cons_append, List.flatMap_append, List.flatMap_append, nodes, edges]
    simp [PlanStep.nodeAliases, PlanStep.edgeAliases]

/-! ### Comparing views -/

/-- An edge has at most one record. -/
def GraphView.EdgesAgree (V : GraphView) : Prop :=
  ∀ e record record', V.edgeRecord e record → V.edgeRecord e record' → record = record'

/-- `W` shows at least what `V` shows, and no further outgoing candidates of the
nodes that `V` owns. -/
structure GraphView.Le (V W : GraphView) : Prop where
  started : ∀ l p k v, V.started l p k v → W.started l p k v
  labelled : ∀ l v, V.labelled l v → W.labelled l v
  adjacent : ∀ d u t e v, V.adjacent d u t e v → W.adjacent d u t e v
  nodeRecord : ∀ v r, V.nodeRecord v r → W.nodeRecord v r
  edgeRecord : ∀ e r, V.edgeRecord e r → W.edgeRecord e r
  owned : ∀ v, V.owned v → W.owned v
  candidate : ∀ u t v r, V.owned u → W.candidate .outgoing u t v r →
    V.candidate .outgoing u t v r

omit [Chrono] in
/-- A walk of a graph is one of every larger graph. -/
theorem HopWalk.mono {V W : GraphView} (le : V.Le W) {step : ExpandHop}
    {depth : Nat} {b b' : Binding} (walk : HopWalk V step depth b b') :
    HopWalk W step depth b b' := by
  induction depth generalizing b' with
  | zero => exact walk
  | succ depth inductionHypothesis =>
      obtain ⟨mid, earlier, u, t, e, v, bound, adjacent, typed, same⟩ := walk
      exact ⟨mid, inductionHypothesis earlier, u, t, e, v, bound,
        le.adjacent _ _ _ _ _ adjacent, typed,
        same⟩

omit [Chrono] in
/-- Over the same edges a hop reaches the same bindings. -/
theorem hopReaches_congr {V W : GraphView}
    (same : ∀ direction u t e v, V.adjacent direction u t e v ↔
      W.adjacent direction u t e v) {step : ExpandHop} {b b' : Binding} :
    HopReaches V step b b' ↔ HopReaches W step b b' := by
  have walks : ∀ depth b', HopWalk V step depth b b' ↔ HopWalk W step depth b b' := by
    intro depth
    induction depth with
    | zero => exact fun b' => Iff.rfl
    | succ depth inductionHypothesis =>
        intro b'
        simp only [HopWalk, HopOnce, inductionHypothesis, same]
  simp only [HopReaches, walks]

/-- A hop of a graph is one of every larger graph. -/
theorem HopRel.mono {V W : GraphView} (le : V.Le W) {step : ExpandHop} {b b' : Binding}
    (related : HopRel V step b b') : HopRel W step b b' := by
  obtain ⟨⟨depth, positive, lower, upper, walk⟩, passes⟩ := related
  refine ⟨⟨depth, positive, lower, upper, walk.mono le⟩, passes.imp id ?_⟩
  rintro ⟨id, record, bound, recorded, holds⟩
  exact ⟨id, record, bound, le.nodeRecord _ _ recorded, holds⟩

omit [Chrono] in
/-- Properties that are bound stay so where more records are known. -/
theorem BoundProperties.records {V W : GraphView}
    (nodes : ∀ v r, V.nodeRecord v r → W.nodeRecord v r)
    (edges : ∀ e r, V.edgeRecord e r → W.edgeRecord e r) {b : Binding}
    {aliasName : String} {properties : Properties}
    (bound : BoundProperties V b aliasName properties) :
    BoundProperties W b aliasName properties := by
  cases bound with
  | edge bound recorded => exact .edge bound (edges _ _ recorded)
  | node notEdge bound recorded => exact .node notEdge bound (nodes _ _ recorded)

omit [Chrono] in
/-- A reference resolves alike over a view that shows at least the same
records. -/
theorem ResolvesTo.records {V W : GraphView}
    (nodes : ∀ v r, V.nodeRecord v r → W.nodeRecord v r)
    (edges : ∀ e r, V.edgeRecord e r → W.edgeRecord e r) {b : Binding}
    {condition : OuterCondition} {filter : PropertyFilter}
    (resolves : ResolvesTo V b condition filter) :
    ResolvesTo W b condition filter := by
  obtain ⟨properties, value, literal, bound, rest⟩ := resolves
  exact ⟨properties, value, literal, bound.records nodes edges, rest⟩

omit [Chrono] in
/-- With unique records an alias is bound to one record. -/
theorem BoundProperties.unique {V : GraphView}
    (nodes : ∀ v r r', V.nodeRecord v r → V.nodeRecord v r' → r = r')
    (edges : ∀ e r r', V.edgeRecord e r → V.edgeRecord e r' → r = r') {b : Binding}
    {aliasName : String} {properties properties' : Properties}
    (first : BoundProperties V b aliasName properties)
    (second : BoundProperties V b aliasName properties') : properties = properties' := by
  cases first with
  | edge bound recorded =>
      cases second with
      | edge bound' recorded' =>
          rw [bound] at bound'
          cases bound'
          rw [edges _ _ _ recorded recorded']
      | node notEdge _ _ =>
          rw [bound] at notEdge
          cases notEdge
  | node notEdge bound recorded =>
      cases second with
      | edge bound' _ =>
          rw [notEdge] at bound'
          cases bound'
      | node _ bound' recorded' =>
          rw [bound] at bound'
          cases bound'
          rw [nodes _ _ _ recorded recorded']

/-- Showing more of the graph keeps a binding that survived: its candidates are
all known already. -/
theorem Keep.mono {V W : GraphView} (le : V.Le W) {step : AntiJoinStep}
    (outgoing : step.direction = .outgoing) {b : Binding} (keep : Keep V step b) :
    Keep W step b := by
  obtain ⟨u, v, resolved, boundFrom, boundTo, owned, resolves, none⟩ := keep
  rw [outgoing] at none
  refine ⟨u, v, resolved, boundFrom, boundTo, le.owned u owned,
    resolves.imp fun _ _ => ResolvesTo.records le.nodeRecord le.edgeRecord, ?_⟩
  rw [outgoing]
  rintro ⟨t, record, candidate, rest⟩
  exact none ⟨t, record, le.candidate _ _ _ _ owned candidate, rest⟩

/-- All anti-joins among the steps look along outgoing edges. -/
def OutgoingAntiJoins (steps : List PlanStep) : Prop :=
  ∀ step, .antiJoin step ∈ steps → step.direction = .outgoing

/-- What a plan reaches in a graph it reaches in every larger one, as long as
its anti-joins go along edges that leave a node. -/
theorem Reached.mono {V W : GraphView} (le : V.Le W) {start : PlanStep}
    {steps : List PlanStep} (outgoing : OutgoingAntiJoins steps) {b : Binding}
    (reached : Reached V (Keep V) start steps b) :
    Reached W (Keep W) start steps b := by
  refine Reached.induct
    (P := fun done b => OutgoingAntiJoins done → Reached W (Keep W) start done b)
    ?_ ?_ ?_ reached outgoing
  · intro b started _
    cases start with
    | resolveStart step =>
        obtain ⟨v, found, same⟩ := started
        exact ⟨v, le.started _ _ _ _ found, same⟩
    | resolveAll step =>
        obtain ⟨v, found, same⟩ := started
        exact ⟨v, le.labelled _ _ found, same⟩
    | expandHop step => exact started.elim
    | antiJoin step => exact started.elim
  · intro done step a b _ earlier related outgoing
    rw [reached_append]
    exact ⟨a, earlier fun other member => outgoing other (List.mem_append_left _ member),
      related.mono le⟩
  · intro done step b _ earlier keep outgoing
    rw [reached_append]
    exact ⟨earlier fun other member => outgoing other (List.mem_append_left _ member),
      keep.mono le (outgoing step (List.mem_append_right _ List.mem_cons_self))⟩

end GraphEngine
