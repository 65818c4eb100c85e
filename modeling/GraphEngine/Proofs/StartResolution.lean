/-
Module: GraphEngine.Proofs.StartResolution
Layer: Proofs
Purpose: Which nodes a start lookup finds.  The property index holds the indexed
  properties only, each under the key of its own type, and the planner turns
  every text into a text key; so a lookup is exact when no row that satisfies
  the filter is outside the index or holds a timestamp.
Trusted boundary: none
Main exports: Lookable, mem_indexedKeys_iff, StartExact, startExact_iff
-/
import GraphEngine.Proofs.FilterRouting

namespace GraphEngine

open NaivePlanner (startFilter whereFilters)

/-- The lookup can find the node under the property: a declaration of the
property is indexed, and the node does not hold a timestamp there. -/
structure Lookable (schema : Schema) (node : Label × NodeRow) (property : String) :
    Prop where
  indexed : ∃ nodeDef prop, schema.nodeDef node.1 = some nodeDef ∧
    prop ∈ nodeDef.properties ∧
    prop.name = property ∧ prop.indexed = true
  noTimestamp : ∀ micros, node.2.properties[property]? ≠ some (.timestamp micros)

section Index

variable [Chrono]

/-- Of a value that equals a literal, the index key is the literal's, unless the
value is a timestamp. -/
theorem propertyKey_iff {value : PropertyValue} {literal : Literal} {key : PropertyKey}
    (keyed : literalToPropertyKey literal = .ok key) : propertyKey value = some key ↔
      literalMatches value .eq literal = true ∧ ∀ micros, value ≠ .timestamp micros := by
  constructor
  · intro indexed
    refine ⟨literalMatches_of_key indexed keyed, ?_⟩
    rintro micros rfl
    cases indexed
    cases literal <;> cases keyed
  · rintro ⟨equal, noTimestamp⟩
    cases literal <;> cases keyed <;> cases value <;>
      simp_all [literalMatches, literalOrdering, propertyKey, ComparisonOp.accepts]

/-- A node is indexed under a filter's key if it has the label, satisfies the
filter and can be looked up. -/
theorem mem_indexedKeys_iff {schema : Schema} {node : Label × NodeRow} {label : String}
    {filter : PropertyFilter} {key : PropertyKey} (equality : filter.op = .eq)
    (keyed : literalToPropertyKey filter.value = .ok key) :
    ((label, filter.property), key) ∈ indexedKeys schema node ↔
      node.1.name = label ∧ evaluateFilter node.2.properties filter = true ∧
        Lookable schema node filter.property := by
  constructor
  · intro indexed
    obtain ⟨labelled, declared, value, stored, valueKey⟩ := (mem_indexedKeys _).mp indexed
    refine ⟨labelled, evaluateFilter_of_indexed equality keyed indexed, declared,
      fun micros isStored => ?_⟩
    rw [isStored] at stored
    cases stored
    exact ((propertyKey_iff keyed).mp valueKey).2 micros rfl
  · intro ⟨labelled, holds, declared, noTimestamp⟩
    rw [evaluateFilter] at holds
    split at holds
    case h_2 => cases holds
    case h_1 value stored =>
        rw [equality] at holds
        have valueKey := (propertyKey_iff keyed).mpr
          ⟨holds, fun micros same => noTimestamp micros (same ▸ stored)⟩
        exact (mem_indexedKeys _).mpr ⟨labelled, declared, value, stored, valueKey⟩

end Index

section Exact

variable [Chrono] {dataset : Dataset} {hasher : Partitioning} {partitions : PartitionMap}
variable {serve : GenerationHandle → IndexGeneration}

/-- The nodes bound are the nodes of the label whose record satisfies the
filter. -/
def StartExact (V : GraphView) (step : ResolveStart) (filter : PropertyFilter)
    (out : List Binding) : Prop :=
  ∀ v, (∃ b ∈ out, b.nodes[step.aliasName]? = some v) ↔
    ∃ record, V.nodeRecord v record ∧ record.label.name = step.labelOrType ∧
      evaluateFilter record.properties filter = true

omit [Chrono] in
/-- The nodes bound by a lookup are those indexed under its key. -/
theorem bound_iff {step : ResolveStart} {out : List Binding}
    (meets : ∀ b, b ∈ out ↔ Started
      (clusterView hasher (servingOf partitions serve)) (.resolveStart step) b)
    {v : NodeId} : (∃ b ∈ out, b.nodes[step.aliasName]? = some v) ↔
      (clusterView hasher (servingOf partitions serve)).started step.labelOrType
        step.property step.key v := by
  constructor
  · rintro ⟨b, member, bound⟩
    obtain ⟨w, started, rfl⟩ := (meets b).mp member
    rw [Binding.fromNode_nodes, if_pos rfl] at bound
    cases bound
    exact started
  · intro started
    exact ⟨_, (meets _).mpr ⟨v, started, rfl⟩, by rw [Binding.fromNode_nodes, if_pos rfl]⟩

/-- Of unique rows a record satisfies the filter where the row does. -/
theorem exists_record_iff (served : dataset.ServedBy hasher partitions serve)
    (reachable : FullyReachable hasher partitions) (unique : dataset.UniqueNodeIds)
    {label : String} {filter : PropertyFilter} {v : NodeId} :
    (∃ record, (clusterView hasher (servingOf partitions serve)).nodeRecord v record ∧
        record.label.name = label ∧ evaluateFilter record.properties filter = true) ↔
      ∃ node ∈ dataset.nodes, node.2.id = v ∧ node.1.name = label ∧
        evaluateFilter node.2.properties filter = true := by
  constructor
  · rintro ⟨record, recorded, labelled, holds⟩
    obtain ⟨node, member, id, rfl⟩ := served.nodeRecord_sound recorded
    exact ⟨node, member, id, labelled, holds⟩
  · rintro ⟨node, member, id, labelled, holds⟩
    exact ⟨_, served.nodeRecord_complete reachable unique ⟨node, member, id, rfl⟩,
      labelled, holds⟩

/-- A query's start lookup, under whatever enumeration orders, finds exactly the
nodes of its label that satisfy the filter it comes from if and only if all of
them can be looked up.

* `starts`: the plan begins with a lookup, not with a scan;
* `served`, `reachable`: every partition answers from what the builder makes of
  the tables;
* `unique`: a node has one row, so that its record is that of the row looked up.

A node cannot be looked up under a property that no declaration marks as
indexed, or that holds a timestamp, which the index keeps under another key than
the literal has. -/
theorem startExact_iff {query : Query} {queryPlan : QueryPlan}
    (planned : NaivePlanner.plan query = .ok queryPlan) {step : ResolveStart}
    (starts : queryPlan.steps.head? = some (.resolveStart step))
    (served : dataset.ServedBy hasher partitions serve)
    (reachable : FullyReachable hasher partitions) (unique : dataset.UniqueNodeIds) :
    ∃ filter, startLookup query = some filter ∧ filter.op = .eq ∧
      ((∀ out, ((inProcess hasher).broadcastResolve partitions
            (.resolveStart step)).Returns serve (.ok out) →
          StartExact (clusterView hasher (servingOf partitions serve)) step filter out) ↔
        ∀ node ∈ dataset.nodes, node.1.name = step.labelOrType →
          evaluateFilter node.2.properties filter = true →
            Lookable dataset.schema node filter.property) := by
  obtain ⟨first, segments, start, antiJoins, shape⟩ := planShape_of_plan planned
  rw [shape.planEq, List.head?_cons, Option.some.injEq] at starts
  obtain ⟨label, -, ⟨-, isAll⟩ | ⟨filter, key, found, equality, keyed, isLookup⟩⟩ :=
    start_cases shape.started
  · rw [starts] at isAll
    cases isAll
  rw [starts, PlanStep.resolveStart.injEq] at isLookup
  subst isLookup
  refine ⟨filter, ?_, equality, ?_⟩
  · rw [startLookup, shape.patternEq]
    dsimp only
    rw [found]
    rfl
  have isStart : (PlanStep.resolveStart
      ⟨first.aliasName, label.name, filter.property, key⟩).IsStart :=
    trivial
  have meets := broadcastResolve_safe hasher partitions serve isStart
  constructor
  · intro exact_ node member labelled holds
    obtain ⟨out, returns, post⟩ := meets.exists_ok
    have bound := (exact_ out returns node.2.id).mpr
      ((exists_record_iff served reachable unique).mpr
        ⟨node, member, rfl, labelled, holds⟩)
    obtain ⟨other, member', id, indexed⟩ :=
      served.started_sound ((bound_iff post).mp bound)
    rw [List.inj_on_of_nodup_map unique member' member id] at indexed
    exact ((mem_indexedKeys_iff equality keyed).mp indexed).2.2
  · intro lookable out returns v
    rw [bound_iff (meets.ok returns), exists_record_iff served reachable unique]
    constructor
    · intro started
      obtain ⟨node, member, id, indexed⟩ := served.started_sound started
      obtain ⟨labelled, holds, -⟩ := (mem_indexedKeys_iff equality keyed).mp indexed
      exact ⟨node, member, id, labelled, holds⟩
    · rintro ⟨node, member, id, labelled, holds⟩
      refine served.started_complete reachable ⟨node, member, id, ?_⟩
      exact (mem_indexedKeys_iff equality keyed).mpr
        ⟨labelled, holds, lookable node member labelled holds⟩

end Exact

/-! ### A text property and a timestamp -/

section

open scoped Social

theorem ann_lookable {node : Label × NodeRow} (member : node ∈ Social.dataset.nodes)
    (holds : evaluateFilter node.2.properties (named "Ann") = true) :
    Lookable Social.schema node "name" := by
  rw [Social.nodes_eq] at member
  rcases List.mem_cons.mp member with rfl | isPerson
  · cases holds
  · have people : ∃ id name, node = Social.somebody id name := by
      simp only [List.mem_cons, List.not_mem_nil, or_false] at isPerson
      rcases isPerson with rfl | rfl | rfl <;> exact ⟨_, _, rfl⟩
    obtain ⟨id, name, rfl⟩ := people
    have declared : Social.schema.nodeDef Social.person = some
        { label := Social.person
          properties :=
            [{ name := "name", ty := .string, optional := false, indexed := true }] } :=
      rfl
    refine ⟨⟨_, _, declared, List.mem_cons_self, rfl, rfl⟩, fun micros stored => ?_⟩
    have isText : (Social.somebody id name).2.properties["name"]? = some (.string name) :=
      Social.textual_self "name" name
    rw [isText] at stored
    cases stored

/-- `(a:Person {name: "Ann"})`, looked up. -/
def lookUpAnn : ResolveStart :=
  { aliasName := "a", labelOrType := "Person", property := "name", key := .string "Ann" }

/-- Ann is found by her name. -/
theorem annKnowsBob_startExact : ∃ out,
    ((inProcess Social.byParity).broadcastResolve (deployment Social.byParity)
      (.resolveStart lookUpAnn)).run
      (fun _ => Social.dataset.deployed Social.byParity) Social.inOrder 0 = .ok out ∧
    StartExact (clusterView Social.byParity
        (servingOf (deployment Social.byParity)
          (Social.dataset.deployed Social.byParity)))
      lookUpAnn (named "Ann") out := by
  obtain ⟨filter, looked, -, exactly⟩ := startExact_iff annKnowsBob_planned
    (rfl : annKnowsBobPlan.steps.head? = some (.resolveStart lookUpAnn))
    (served_deployment Social.dataset Social.byParity)
    (fullyReachable_deployment _) Social.uniqueNodeIds
  cases looked
  have found : ((inProcess Social.byParity).broadcastResolve (deployment Social.byParity)
      (.resolveStart lookUpAnn)).run
        (fun _ => Social.dataset.deployed Social.byParity) Social.inOrder 0 =
        .ok [Binding.fromNode "a" ⟨1⟩] := by decide +kernel
  refine ⟨_, found,
    exactly.mpr (fun node member _ holds => ann_lookable member holds) _ ?_⟩
  rw [← found]
  exact Client.returns_run _ _ _ _

end

namespace Persons

/-- The start of May 2024, in microseconds. -/
def may : Int := 1714521600000000

/-- That day written out. -/
scoped instance readsMay : Chrono :=
  ⟨fun text => if text = "2024-05-01T00:00:00Z" then some may else none⟩

/-- `@indexed joined: Timestamp`. -/
def joined : PropertyDef where
  name := "joined"
  ty := .timestamp
  optional := false
  indexed := true

/-- One person, who joined in May. -/
def newcomer : Dataset where
  schema := declaring [joined]
  labels := [Social.person]
  nodeRows _ :=
    [{ id := ⟨1⟩, properties := (∅ : Properties).insert "joined" (.timestamp may) }]
  edgeRows _ := []
  snapshot _ := { val := 1 }

theorem newcomer_conforms : newcomer.Conforms where
  node := by
    intro node member
    rw [List.mem_singleton.mp member]
    refine ⟨_, rfl, ?_, ?_⟩
    · intro prop listed _
      rw [List.mem_singleton.mp listed]
      simp [joined]
    · intro name value found
      rw [Std.ExtTreeMap.getElem?_insert] at found
      split at found
      case isTrue same =>
          cases found
          exact ⟨joined, List.mem_cons_self, Std.LawfulEqOrd.eq_of_compare same,
            .inl (.timestamp may)⟩
      case isFalse => simp at found
  edge := by
    intro edge member
    cases member

/-- `joined = "2024-05-01T00:00:00Z"`. -/
def inMay : PropertyFilter :=
  { property := "joined", op := .eq, value := .string "2024-05-01T00:00:00Z" }

/-- `MATCH (p:Person {joined: "2024-05-01T00:00:00Z"}) RETURN p`. -/
def joinedInMay : Query :=
  Social.matching
    [.node { Social.labelled "p" Social.person with propertyFilters := [inMay] }] "p"

/-- The newcomer satisfies the filter, is indexed under the day as a timestamp,
and is looked up under the day as a text: nobody is found. -/
theorem startExact_fails_timestamp :
    SchemaValidator.validate joinedInMay newcomer.schema = .ok () ∧
      newcomer.Conforms ∧ newcomer.UniqueNodeIds ∧
    newcomer.ServedBy Social.single (deployment Social.single)
      (newcomer.deployed Social.single) ∧
    FullyReachable Social.single (deployment Social.single) ∧
    ∃ queryPlan step filter out, NaivePlanner.plan joinedInMay = .ok queryPlan ∧
      queryPlan.steps.head? = some (.resolveStart step) ∧
        startLookup joinedInMay = some filter ∧
      ((inProcess Social.single).broadcastResolve (deployment Social.single)
        (.resolveStart step)).run
        (fun _ => newcomer.deployed Social.single) Social.inOrder 0 = .ok out ∧
      ¬ StartExact (clusterView Social.single
          (servingOf (deployment Social.single) (newcomer.deployed Social.single)))
            step filter out := by
  have served := served_deployment newcomer Social.single
  have reachable := fullyReachable_deployment Social.single
  have unique : newcomer.UniqueNodeIds := by
    unfold Dataset.UniqueNodeIds
    decide
  refine ⟨by decide, newcomer_conforms, unique, served, reachable, _, _, _, [],
    rfl, rfl, rfl,
    by decide +kernel, ?_⟩
  intro exactly
  have found := (exactly ⟨1⟩).mpr ((exists_record_iff served reachable unique).mpr
    ⟨_, List.mem_cons_self, rfl, rfl, by decide +kernel⟩)
  obtain ⟨b, ⟨⟩, -⟩ := found

end Persons

end GraphEngine
