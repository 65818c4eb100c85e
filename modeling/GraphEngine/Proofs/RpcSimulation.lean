/-
Module: GraphEngine.Proofs.RpcSimulation
Layer: Proofs
Purpose: The scatter-gather loop cannot tell two transports apart whose calls
  agree on what it reads of their replies: the bindings, in order, the union of
  what is finished and what continues elsewhere, and of a hydrated record only
  what filters and outer conditions read.
Trusted boundary: none
Main exports: SameReadings, PartitionRpc.Follows, PartitionRpc.Follows.execute
-/
import GraphEngine.Lib.ClientSimulation
import GraphEngine.Model.DistributedExecutor
import GraphEngine.Proofs.LocalHop

namespace GraphEngine

open Std (ExtTreeMap ExtTreeSet)

/-! ### Plans whose optional texts are not empty -/

def ExpandHop.TextsPresent (step : ExpandHop) : Prop :=
  step.toLabel ≠ some "" ∧ step.edgeType ≠ some "" ∧ step.edgeAlias ≠ some ""

def AntiJoinStep.TextsPresent (step : AntiJoinStep) : Prop :=
  step.edgeAlias ≠ some "" ∧ step.edgeType ≠ some ""

def PlanStep.TextsPresent : PlanStep → Prop
  | .expandHop step => step.TextsPresent
  | .antiJoin step => step.TextsPresent
  | .resolveStart _ | .resolveAll _ => True

/-- An optional text of the plan is not empty when it is present. -/
def QueryPlan.TextsPresent (plan : QueryPlan) : Prop :=
  ∀ step ∈ plan.steps, step.TextsPresent

/-- A round keeps the hop's edge type and at most its edge alias. -/
theorem ExpandHop.TextsPresent.roundStep {step : ExpandHop} (present : step.TextsPresent)
    (cursorAlias : String) (depth : Nat) :
    (ScatterGatherExecutor.roundStep step cursorAlias depth).TextsPresent := by
  have absent : none ≠ some "" := (Option.some_ne_none "").symm
  refine ⟨absent, present.2.1, ?_⟩
  rw [ScatterGatherExecutor.roundStep]
  split
  · exact present.2.2
  · exact absent

/-! ### What is read of a hydrated record -/

section Readings

variable [Chrono]

/-- No filter and no outer condition tells the two property maps apart. -/
structure SameReadings (left right : Properties) : Prop where
  filters : ∀ filter, evaluateFilter left filter = evaluateFilter right filter
  literals : ∀ property : String, (left[property]?).bind propertyValueToLiteral =
    (right[property]?).bind propertyValueToLiteral

theorem SameReadings.evaluateFilters {left right : Properties}
    (same : SameReadings left right) (filters : List PropertyFilter) :
    evaluateFilters left filters = evaluateFilters right filters := by
  have pointwise : evaluateFilter left = evaluateFilter right := funext same.filters
  rw [GraphEngine.evaluateFilters, GraphEngine.evaluateFilters, pointwise]

end Readings

section Maps

variable {κ ν : Type} [Ord κ] [Std.TransOrd κ] {R : ν → ν → Prop}

/-- Two maps with the same keys and related values. -/
def MapsAgree (R : ν → ν → Prop) (left right : ExtTreeMap κ ν compare) : Prop :=
  ∀ k : κ, Option.Rel R left[k]? right[k]?

theorem MapsAgree.empty : MapsAgree R (∅ : ExtTreeMap κ ν compare) ∅ := by
  intro k
  rw [Std.ExtTreeMap.getElem?_empty]
  exact .none

theorem MapsAgree.lookup {left right : ExtTreeMap κ ν compare}
    (agree : MapsAgree R left right) (k : κ) :
    (left[k]? = none ∧ right[k]? = none) ∨ ∃ v w, left[k]? = some v ∧
      right[k]? = some w ∧ R v w := by
  have entries := agree k
  generalize left[k]? = entry at entries ⊢
  generalize right[k]? = entry' at entries ⊢
  cases entries with
  | none => exact .inl ⟨rfl, rfl⟩
  | some related => exact .inr ⟨_, _, rfl, rfl, related⟩

theorem MapsAgree.mem_iff {left right : ExtTreeMap κ ν compare}
    (agree : MapsAgree R left right) (k : κ) : k ∈ left ↔ k ∈ right := by
  rw [Std.ExtTreeMap.mem_iff_isSome_getElem?, Std.ExtTreeMap.mem_iff_isSome_getElem?]
  rcases agree.lookup k with ⟨absent, absent'⟩ | ⟨v, w, found, found', -⟩
  · rw [absent, absent']
  · rw [found, found']
    exact Iff.rfl

theorem MapsAgree.union {left right more more' : ExtTreeMap κ ν compare}
    (agree : MapsAgree R left right) (agree' : MapsAgree R more more') :
    MapsAgree R (left ∪ more) (right ∪ more') := by
  intro k
  rw [Std.ExtTreeMap.getElem?_union, Std.ExtTreeMap.getElem?_union]
  rcases agree'.lookup k with ⟨absent, absent'⟩ | ⟨v, w, found, found', related⟩
  · rw [absent, absent']
    exact agree k
  · rw [found, found']
    exact .some related

/-- What two agreeing maps hold for an optional key, after a projection that
respects the relation. -/
theorem MapsAgree.bind_map {γ : Type} {S : γ → γ → Prop} {f : ν → γ}
    {left right : ExtTreeMap κ ν compare}
    (agree : MapsAgree (fun v w => S (f v) (f w)) left right) (key : Option κ) :
    Option.Rel S (key.bind fun k => (left[k]?).map f)
      (key.bind fun k => (right[k]?).map f) := by
  cases key with
  | none => exact .none
  | some k =>
      rw [Option.bind_some, Option.bind_some]
      rcases agree.lookup k with ⟨absent, absent'⟩ | ⟨v, w, found, found', related⟩
      · rw [absent, absent']
        exact .none
      · rw [found, found']
        exact .some related

end Maps

/-- Hydrated nodes of the same readings. -/
abbrev NodesAgree [Chrono] (left right : ExtTreeMap NodeId NodeRecord compare) : Prop :=
  MapsAgree (fun r r' => SameReadings r.properties r'.properties) left right

/-- Hydrated edges of the same readings. -/
abbrev EdgesAlike [Chrono] (left right : ExtTreeMap EdgeId EdgeRecord compare) : Prop :=
  MapsAgree (fun r r' => SameReadings r.properties r'.properties) left right

/-! ### What filters and outer conditions make of it -/

theorem passesFilters_congr [Chrono]
    {properties properties' : ExtTreeMap NodeId NodeRecord compare}
    (agree : NodesAgree properties properties') (step : ExpandHop) (binding : Binding) :
    ScatterGatherExecutor.passesFilters step properties binding =
      ScatterGatherExecutor.passesFilters step properties' binding := by
  rw [ScatterGatherExecutor.passesFilters, ScatterGatherExecutor.passesFilters]
  cases binding.nodes[step.toAlias]? with
  | none => rfl
  | some id =>
      rcases agree.lookup id
        with ⟨absent, absent'⟩ | ⟨record, record', found, found', same⟩
      · simp only [absent, absent']
      · simp only [found, found']
        exact same.evaluateFilters step.filters

/-- The literal of an outer reference, if the record has a value that can be
turned into one. -/
def outerLiteral (condition : OuterCondition) (properties : Properties) :
    Option Literal :=
  (properties[condition.outer.property]?).bind propertyValueToLiteral

theorem resolve_eq_outerLiteral (hydrated : ScatterGatherExecutor.Hydrated)
    (binding : Binding) (condition : OuterCondition) :
    hydrated.resolve binding condition =
      ((hydrated.properties binding condition.outer.aliasName).bind
        (outerLiteral condition)).map
        fun literal => { property := condition.property, op := condition.op,
                         value := literal } := by
  rw [ScatterGatherExecutor.Hydrated.resolve]
  cases hydrated.properties binding condition.outer.aliasName with
  | none => rfl
  | some properties =>
      simp only [Option.bind_eq_bind, Option.bind_some, outerLiteral]
      cases properties[condition.outer.property]? with
      | none => rfl
      | some value =>
          simp only [Option.bind_some]
          cases propertyValueToLiteral value with
          | none => rfl
          | some literal => rfl

section Hydrated

variable [Chrono]
variable {nodes nodes' : ExtTreeMap NodeId NodeRecord compare}
variable (nodesAgree : NodesAgree nodes nodes')
variable {edges edges' : ExtTreeMap EdgeId EdgeRecord compare}
variable (edgesAlike : EdgesAlike edges edges')

include nodesAgree edgesAlike

theorem properties_rel (outerIsEdge : ExtTreeMap String Bool compare)
    (binding : Binding) (aliasName : String) :
    Option.Rel SameReadings
      ((ScatterGatherExecutor.Hydrated.mk outerIsEdge nodes edges).properties
        binding aliasName)
      ((ScatterGatherExecutor.Hydrated.mk outerIsEdge nodes' edges').properties
        binding aliasName) := by
  rw [ScatterGatherExecutor.Hydrated.properties,
    ScatterGatherExecutor.Hydrated.properties]
  simp only
  split
  · exact edgesAlike.bind_map _
  · exact nodesAgree.bind_map _

/-- A condition is resolved alike over records of the same readings. -/
theorem resolve_congr (outerIsEdge : ExtTreeMap String Bool compare) (binding : Binding) :
    (ScatterGatherExecutor.Hydrated.mk outerIsEdge nodes edges).resolve binding =
      (ScatterGatherExecutor.Hydrated.mk outerIsEdge nodes' edges').resolve binding := by
  funext condition
  rw [resolve_eq_outerLiteral, resolve_eq_outerLiteral]
  have related :=
    properties_rel nodesAgree edgesAlike outerIsEdge binding condition.outer.aliasName
  generalize ScatterGatherExecutor.Hydrated.properties _ binding
    condition.outer.aliasName = entry
    at related ⊢
  generalize ScatterGatherExecutor.Hydrated.properties _ binding
    condition.outer.aliasName = entry'
    at related ⊢
  cases related with
  | none => rfl
  | some same => exact congrArg (Option.map _) (same.literals condition.outer.property)

theorem bucketByConditions_congr (outerIsEdge : ExtTreeMap String Bool compare)
    (step : AntiJoinStep) (frontier : List Binding) :
    ScatterGatherExecutor.bucketByConditions ⟨outerIsEdge, nodes, edges⟩ step frontier =
      ScatterGatherExecutor.bucketByConditions
        ⟨outerIsEdge, nodes', edges'⟩ step frontier := by
  simp only [ScatterGatherExecutor.bucketByConditions,
    ScatterGatherExecutor.Hydrated.resolveAll, resolve_congr nodesAgree edgesAlike]

end Hydrated

/-! ### Hydration -/

section Hydration

variable {Lost : Fault → Prop} {left right : PartitionRpc} (hasher : Partitioning)
variable (partitions : PartitionMap)

section Nodes

variable {R : NodeRecord → NodeRecord → Prop}
variable (each : ∀ replica ids, Client.Similar Lost (MapsAgree R)
  (left.getNodeProperties replica ids) (right.getNodeProperties replica ids))

include each

/-- Calls that answer with agreeing records fetch agreeing records. -/
theorem getNodeProperties_agree (ids : List NodeId) : Client.Similar Lost (MapsAgree R)
    ((⟨left, hasher⟩ : ScatterGatherExecutor).getNodeProperties partitions ids)
    ((⟨right, hasher⟩ : ScatterGatherExecutor).getNodeProperties partitions ids) := by
  rw [ScatterGatherExecutor.getNodeProperties, ScatterGatherExecutor.getNodeProperties]
  apply Client.Similar.bindSame
  intro groups
  apply Client.Similar.foldlM groups MapsAgree.empty
  intro properties properties' group _ agree
  cases pickReplica partitions group.1 with
  | none => exact .pure agree
  | some replica =>
      apply (each replica group.2).bind
      intro found found' agree'
      exact .pure (agree.union agree')

theorem hydrateNodes_agree (ids : ExtTreeSet NodeId compare) :
    Client.Similar Lost (MapsAgree R)
    ((⟨left, hasher⟩ : ScatterGatherExecutor).hydrateNodes partitions ids)
    ((⟨right, hasher⟩ : ScatterGatherExecutor).hydrateNodes partitions ids) := by
  rw [ScatterGatherExecutor.hydrateNodes, ScatterGatherExecutor.hydrateNodes]
  cases ids.isEmpty with
  | true => exact .pure MapsAgree.empty
  | false =>
      apply Client.Similar.bindSame
      intro ids
      exact getNodeProperties_agree hasher partitions each ids

end Nodes

section Edges

variable {R : EdgeRecord → EdgeRecord → Prop}
variable (each : ∀ replica ids, Client.Similar Lost (MapsAgree R)
  (left.getEdgeProperties replica ids) (right.getEdgeProperties replica ids))

include each

/-- Both runs find the same edges on every partition, so they ask the next one
for the same ids. -/
theorem getEdgeProperties_agree (ids : List EdgeId) : Client.Similar Lost (MapsAgree R)
    ((⟨left, hasher⟩ : ScatterGatherExecutor).getEdgeProperties partitions ids)
    ((⟨right, hasher⟩ : ScatterGatherExecutor).getEdgeProperties partitions ids) := by
  rw [ScatterGatherExecutor.getEdgeProperties, ScatterGatherExecutor.getEdgeProperties]
  apply Client.Similar.bindSame
  intro keys
  apply Client.Similar.bind
    (R := fun acc acc' => MapsAgree R acc.1 acc'.1 ∧ acc.2 = acc'.2)
  · apply Client.Similar.foldlM keys
    · exact ⟨MapsAgree.empty, rfl⟩
    · intro acc acc' partition _ agree
      obtain ⟨found, remaining⟩ := acc
      obtain ⟨found', remaining'⟩ := acc'
      obtain ⟨alike, same⟩ := agree
      cases same
      simp only
      cases remaining.isEmpty with
      | true => exact .pure ⟨alike, rfl⟩
      | false =>
          cases pickReplica partitions partition with
          | none => exact .pure ⟨alike, rfl⟩
          | some replica =>
              apply Client.Similar.bindSame
              intro batch
              apply (each replica batch).bind
              intro more more' alike'
              have filtered : (remaining.filter fun id => id ∉ more) =
                  remaining.filter fun id => id ∉ more' := by
                simp only [alike'.mem_iff]
              exact .pure ⟨alike.union alike', filtered⟩
  · intro outcome outcome' agree
    exact .pure agree.1

theorem hydrateEdges_agree (ids : ExtTreeSet EdgeId compare) :
    Client.Similar Lost (MapsAgree R)
    ((⟨left, hasher⟩ : ScatterGatherExecutor).hydrateEdges partitions ids)
    ((⟨right, hasher⟩ : ScatterGatherExecutor).hydrateEdges partitions ids) := by
  rw [ScatterGatherExecutor.hydrateEdges, ScatterGatherExecutor.hydrateEdges]
  cases ids.isEmpty with
  | true => exact .pure MapsAgree.empty
  | false =>
      apply Client.Similar.bindSame
      intro ids
      exact getEdgeProperties_agree hasher partitions each ids

end Edges

end Hydration

/-! ### The simulation -/

/-- Every call of `left` that is not lost is answered as `right` answers it.
Records may differ where no query can tell: in values that are not sent.  Of an
expansion the bindings count, not which of them continue elsewhere. -/
structure PartitionRpc.Follows [Chrono] (Lost : Fault → Prop)
    (left right : PartitionRpc) : Prop where
  resolveStart : ∀ replica step,
    Client.Similar Lost (· = ·) (left.resolveStart replica step)
      (right.resolveStart replica step)
  resolveAll : ∀ replica step,
    Client.Similar Lost (· = ·) (left.resolveAll replica step)
      (right.resolveAll replica step)
  expandHop : ∀ replica (step : ExpandHop), step.TextsPresent → ∀ frontier,
    Client.Similar Lost (fun found found' => found.all = found'.all)
      (left.expandHop replica (.expandHop step) frontier)
      (right.expandHop replica (.expandHop step) frontier)
  getNodeProperties : ∀ replica ids,
    Client.Similar Lost NodesAgree (left.getNodeProperties replica ids)
      (right.getNodeProperties replica ids)
  getEdgeProperties : ∀ replica ids,
    Client.Similar Lost EdgesAlike (left.getEdgeProperties replica ids)
      (right.getEdgeProperties replica ids)
  checkAntiJoin : ∀ replica (step : AntiJoinStep), step.TextsPresent →
    ∀ conditions frontier,
    Client.Similar Lost (· = ·) (left.checkAntiJoin replica step conditions frontier)
      (right.checkAntiJoin replica step conditions frontier)

namespace PartitionRpc.Follows

variable [Chrono] {Lost : Fault → Prop} {left right : PartitionRpc}
variable (follows : left.Follows Lost right)
variable (hasher : Partitioning) (partitions : PartitionMap)

include follows

/-! ### Start resolution -/

theorem resolveOn (replica : ReplicaEndpoint) (step : PlanStep) :
    Client.Similar Lost (· = ·)
      ((⟨left, hasher⟩ : ScatterGatherExecutor).resolveOn replica step)
      ((⟨right, hasher⟩ : ScatterGatherExecutor).resolveOn replica step) := by
  cases step with
  | resolveStart step => exact follows.resolveStart replica _
  | resolveAll step => exact follows.resolveAll replica _
  | expandHop step => exact .fail _ _
  | antiJoin step => exact .fail _ _

theorem broadcastResolve (step : PlanStep) :
    Client.Similar Lost (· = ·)
      ((⟨left, hasher⟩ : ScatterGatherExecutor).broadcastResolve partitions step)
      ((⟨right, hasher⟩ : ScatterGatherExecutor).broadcastResolve partitions step) := by
  rw [ScatterGatherExecutor.broadcastResolve, ScatterGatherExecutor.broadcastResolve]
  apply Client.Similar.bindSame
  intro keys
  apply Client.Similar.foldlM keys rfl
  intro merged _ partition _ same
  cases same
  cases pickReplica partitions partition with
  | none => exact .pure rfl
  | some replica =>
      apply (follows.resolveOn hasher replica step).bindEq
      intro bindings
      exact .pure rfl

/-! ### Hops -/

theorem oneRound {step : ExpandHop} (present : step.TextsPresent)
    (frontier : List Binding) :
    Client.Similar Lost (· = ·)
      ((⟨left, hasher⟩ : ScatterGatherExecutor).oneRound partitions step frontier)
      ((⟨right, hasher⟩ : ScatterGatherExecutor).oneRound partitions step frontier) := by
  rw [ScatterGatherExecutor.oneRound, ScatterGatherExecutor.oneRound]
  apply Client.Similar.bindSame
  intro byPartition
  apply Client.Similar.bindSame
  intro groups
  apply Client.Similar.collect
  intro group _
  cases pickReplica partitions group.1 with
  | none => exact .pure rfl
  | some replica =>
      apply (follows.expandHop replica step present group.2).bind
      intro found found' same
      exact .pure same

theorem hopRounds {step : ExpandHop} (present : step.TextsPresent)
    (remaining depth : Nat) (cursorAlias : String) (current accepted : List Binding) :
    Client.Similar Lost (· = ·)
      ((⟨left, hasher⟩ : ScatterGatherExecutor).hopRounds partitions step remaining
        depth cursorAlias
        current accepted)
      ((⟨right, hasher⟩ : ScatterGatherExecutor).hopRounds partitions step remaining
        depth cursorAlias
        current accepted) := by
  induction remaining generalizing depth cursorAlias current accepted with
  | zero => exact .pure rfl
  | succ remaining inductionHypothesis =>
      rw [ScatterGatherExecutor.hopRounds, ScatterGatherExecutor.hopRounds]
      by_cases finished : current = []
      · rw [if_pos finished, if_pos finished]
        exact .pure rfl
      · rw [if_neg finished, if_neg finished]
        apply (follows.oneRound hasher partitions
          (present.roundStep cursorAlias depth) current).bindEq
        intro next
        exact inductionHypothesis _ _ _ _

/-! ### Hydration -/

theorem hydratedNodes (ids : List NodeId) :
    Client.Similar Lost NodesAgree
      ((⟨left, hasher⟩ : ScatterGatherExecutor).getNodeProperties partitions ids)
      ((⟨right, hasher⟩ : ScatterGatherExecutor).getNodeProperties partitions ids) :=
  getNodeProperties_agree hasher partitions follows.getNodeProperties ids

/-! ### Filters -/

theorem filterFrontier (step : ExpandHop) (frontier : List Binding) :
    Client.Similar Lost (· = ·)
      ((⟨left, hasher⟩ : ScatterGatherExecutor).filterFrontier partitions step frontier)
      ((⟨right, hasher⟩ : ScatterGatherExecutor).filterFrontier partitions step
        frontier) := by
  rw [ScatterGatherExecutor.filterFrontier, ScatterGatherExecutor.filterFrontier]
  by_cases nothing : step.filters = [] ∨ frontier = []
  · rw [if_pos nothing, if_pos nothing]
    exact .pure rfl
  · rw [if_neg nothing, if_neg nothing]
    apply Client.Similar.bindSame
    intro ids
    apply (follows.hydratedNodes hasher partitions ids).bind
    intro properties properties' agree
    apply Client.Similar.pure
    apply List.filter_congr
    intro binding _
    exact passesFilters_congr agree step binding

/-! ### Anti-joins -/

theorem hydrateNodes (ids : ExtTreeSet NodeId compare) :
    Client.Similar Lost NodesAgree
      ((⟨left, hasher⟩ : ScatterGatherExecutor).hydrateNodes partitions ids)
      ((⟨right, hasher⟩ : ScatterGatherExecutor).hydrateNodes partitions ids) :=
  hydrateNodes_agree hasher partitions follows.getNodeProperties ids

theorem hydrateEdges (ids : ExtTreeSet EdgeId compare) :
    Client.Similar Lost EdgesAlike
      ((⟨left, hasher⟩ : ScatterGatherExecutor).hydrateEdges partitions ids)
      ((⟨right, hasher⟩ : ScatterGatherExecutor).hydrateEdges partitions ids) :=
  hydrateEdges_agree hasher partitions follows.getEdgeProperties ids

theorem conditionGroups (step : AntiJoinStep) (sample : Binding)
    (frontier : List Binding) :
    Client.Similar Lost (· = ·)
      ((⟨left, hasher⟩ : ScatterGatherExecutor).conditionGroups partitions step
        sample frontier)
      ((⟨right, hasher⟩ : ScatterGatherExecutor).conditionGroups partitions step
        sample frontier) := by
  rw [ScatterGatherExecutor.conditionGroups, ScatterGatherExecutor.conditionGroups]
  by_cases literal : step.outerConditions = []
  · rw [if_pos literal, if_pos literal]
    exact .pure rfl
  · rw [if_neg literal, if_neg literal]
    apply Client.Similar.bindSame
    intro outerIsEdge
    apply (follows.hydrateNodes hasher partitions _).bind
    intro nodes nodes' nodesAgree
    apply (follows.hydrateEdges hasher partitions _).bind
    intro edges edges' edgesAlike
    exact .pure (bucketByConditions_congr nodesAgree edgesAlike outerIsEdge step frontier)

theorem checkGroup {step : AntiJoinStep} (present : step.TextsPresent)
    (group : List PropertyFilter × List Binding) :
    Client.Similar Lost (· = ·)
      ((⟨left, hasher⟩ : ScatterGatherExecutor).checkGroup partitions step group)
      ((⟨right, hasher⟩ : ScatterGatherExecutor).checkGroup partitions step group) := by
  rw [ScatterGatherExecutor.checkGroup, ScatterGatherExecutor.checkGroup]
  apply Client.Similar.bindSame
  intro byPartition
  apply Client.Similar.bindSame
  intro parts
  apply Client.Similar.collect
  intro part _
  cases pickReplica partitions part.1 with
  | none => exact .pure rfl
  | some replica => exact follows.checkAntiJoin replica step present group.1 part.2

theorem executeAntiJoin {step : AntiJoinStep} (present : step.TextsPresent)
    (frontier : List Binding) :
    Client.Similar Lost (· = ·)
      ((⟨left, hasher⟩ : ScatterGatherExecutor).executeAntiJoin partitions step frontier)
      ((⟨right, hasher⟩ : ScatterGatherExecutor).executeAntiJoin partitions step
        frontier) := by
  cases frontier with
  | nil => exact .pure rfl
  | cons sample rest =>
      rw [ScatterGatherExecutor.executeAntiJoin, ScatterGatherExecutor.executeAntiJoin]
      apply (follows.conditionGroups hasher partitions step sample _).bindEq
      intro groups
      apply Client.Similar.collect
      intro group _
      exact follows.checkGroup hasher partitions present group

/-! ### The whole plan -/

theorem runStep {step : PlanStep} (present : step.TextsPresent)
    (frontier : List Binding) :
    Client.Similar Lost (· = ·)
      ((⟨left, hasher⟩ : ScatterGatherExecutor).runStep partitions frontier step)
      ((⟨right, hasher⟩ : ScatterGatherExecutor).runStep partitions frontier step) := by
  cases step with
  | expandHop step =>
      rw [ScatterGatherExecutor.runStep, ScatterGatherExecutor.runStep]
      apply (follows.hopRounds hasher partitions present _ _ _ _ _).bindEq
      intro expanded
      exact follows.filterFrontier hasher partitions step expanded
  | antiJoin step => exact follows.executeAntiJoin hasher partitions present frontier
  | resolveStart step => exact .fail _ _
  | resolveAll step => exact .fail _ _

/-- The steps after the first. -/
theorem runSteps {rest : List PlanStep} (present : ∀ step ∈ rest, step.TextsPresent)
    (start : List Binding) :
    Client.Similar Lost (· = ·)
      (rest.foldlM ((⟨left, hasher⟩ : ScatterGatherExecutor).runStep partitions) start)
      (rest.foldlM
        ((⟨right, hasher⟩ : ScatterGatherExecutor).runStep partitions) start) := by
  apply Client.Similar.foldlM rest rfl
  intro frontier _ step member same
  cases same
  exact follows.runStep hasher partitions (present step member) frontier

/-- The steps after the first, and the last deduplication. -/
theorem laterSteps {rest : List PlanStep}
    (present : ∀ step ∈ rest, step.TextsPresent) (start : List Binding) :
    Client.Similar Lost (· = ·)
      (do
        let frontier ← rest.foldlM
          ((⟨left, hasher⟩ : ScatterGatherExecutor).runStep partitions) start
        pure (dedup frontier))
      (do
        let frontier ← rest.foldlM
          ((⟨right, hasher⟩ : ScatterGatherExecutor).runStep partitions) start
        pure (dedup frontier)) := by
  apply (follows.runSteps hasher partitions present start).bindEq
  intro frontier
  exact .pure rfl

/-- The whole plan: whatever the cells hold and whatever the enumeration orders
are, the two executors stay in step until a call is lost. -/
theorem execute {plan : QueryPlan} (present : plan.TextsPresent) :
    Client.Similar Lost (· = ·)
      ((⟨left, hasher⟩ : ScatterGatherExecutor).execute partitions plan)
      ((⟨right, hasher⟩ : ScatterGatherExecutor).execute partitions plan) := by
  obtain ⟨steps, project⟩ := plan
  cases steps with
  | nil => exact .fail _ _
  | cons first rest =>
      have presentRest : ∀ step ∈ rest, step.TextsPresent := fun step member =>
        present step (List.mem_cons_of_mem first member)
      cases first with
      | resolveStart step =>
          exact (follows.broadcastResolve hasher partitions _).bindEq
            (follows.laterSteps hasher partitions presentRest)
      | resolveAll step =>
          exact (follows.broadcastResolve hasher partitions _).bindEq
            (follows.laterSteps hasher partitions presentRest)
      | expandHop step => exact .fail _ _
      | antiJoin step => exact .fail _ _

end PartitionRpc.Follows

end GraphEngine
