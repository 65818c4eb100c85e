/-
Module: GraphEngine.Proofs.Homogeneity
Layer: Proofs
Purpose: After every step of a plan all bindings of the frontier bind the
  aliases of the steps executed, and no others, whatever the replicas serve
  while the plan runs.  What one binding says of an alias is then right for all.
Trusted boundary: none
Main exports: Binding.Binds, Homogeneous, frontierAfter, frontierAfter_always,
  FrontiersHomogeneous, frontiersHomogeneous_of_execute
-/
import GraphEngine.Model.QueryService
import GraphEngine.Proofs.AntiJoin
import GraphEngine.Proofs.HopExtensions
import GraphEngine.Proofs.Transparency

namespace GraphEngine

open Std (ExtTreeMap)
open GraphServiceImpl (aliasKind aliasIsEdge)
open ScatterGatherExecutor

/-! ### Aliases of a binding -/

/-- The binding binds these node aliases and these edge aliases, and no others. -/
structure Binding.Binds (b : Binding) (nodes edges : List String) : Prop where
  nodes_iff : ∀ x, x ∈ b.nodes ↔ x ∈ nodes
  edges_iff : ∀ x, x ∈ b.edges ↔ x ∈ edges

theorem Binding.binds_fromNode (aliasName : String) (v : NodeId) :
    (Binding.fromNode aliasName v).Binds [aliasName] [] where
  nodes_iff x := by rw [Binding.mem_fromNode_nodes, List.mem_singleton, eq_comm]
  edges_iff x := by simp

/-- A hop adds its target and its edge alias. -/
theorem Extends.binds {step : ExpandHop} {P : NodeId → Prop} {b b' : Binding}
    {nodes edges : List String} (extended : Extends step P b b')
    (binds : b.Binds nodes edges) :
    b'.Binds (nodes ++ [step.toAlias]) (edges ++ step.edgeAlias.toList) := by
  obtain ⟨v, e, -, rfl⟩ := extended
  constructor
  · intro x
    rw [Binding.extend_nodes, Binding.mem_bindNode_nodes, binds.nodes_iff,
      List.mem_append, List.mem_singleton, or_comm, eq_comm]
  · intro x
    rw [Binding.mem_extend_edges, binds.edges_iff, List.mem_append, Option.mem_toList,
      or_comm]

/-- A further round binds nothing new. -/
theorem Extends.binds_again {step : ExpandHop} {cursorAlias : String} {depth : Nat}
    (later : depth ≠ 1) {P : NodeId → Prop} {b b' : Binding}
    {nodes edges : List String}
    (extended : Extends (roundStep step cursorAlias depth) P b b')
    (binds : b.Binds (nodes ++ [step.toAlias]) edges) :
    b'.Binds (nodes ++ [step.toAlias]) edges := by
  have once := extended.binds binds
  simp only [roundStep, if_neg later, Option.toList_none, List.append_nil] at once
  constructor
  · intro x
    rw [once.nodes_iff]
    simp
  · exact once.edges_iff

/-- All bindings of the frontier bind the aliases of these steps. -/
def Homogeneous (steps : List PlanStep) (frontier : List Binding) : Prop :=
  ∀ b ∈ frontier,
    b.Binds (steps.flatMap PlanStep.nodeAliases) (steps.flatMap PlanStep.edgeAliases)

/-! ### Steps in process -/

section InProcess

variable [Chrono] (hasher : Partitioning) (partitions : PartitionMap)

/-- The bindings a start hands out bind what the start binds. -/
theorem resolveOn_always (replica : ReplicaEndpoint) (step : PlanStep) :
    ((inProcess hasher).resolveOn replica step).Always (Homogeneous [step]) := by
  cases step with
  | resolveStart step =>
      apply Client.Always.bind (Client.Always.acquire _)
      intro generation _
      apply Client.Always.pure
      intro b member
      obtain ⟨v, -, rfl⟩ := List.mem_map.mp member
      exact Binding.binds_fromNode step.aliasName v
  | resolveAll step =>
      apply Client.Always.bind (Client.Always.acquire _)
      intro generation _
      apply Client.Always.bind (Client.Always.unordered _)
      intro records _
      apply Client.Always.pure
      intro b member
      obtain ⟨entry, -, rfl⟩ := List.mem_map.mp member
      exact Binding.binds_fromNode step.aliasName entry.1
  | expandHop step => exact Client.Always.fail _
  | antiJoin step => exact Client.Always.fail _

/-- The start step binds its alias. -/
theorem broadcastResolve_always (step : PlanStep) :
    ((inProcess hasher).broadcastResolve partitions step).Always
      (Homogeneous [step]) := by
  apply Client.Always.bind (Client.Always.unordered _)
  intro keys _
  apply Client.Always.foldlM
  · intro b impossible
    cases impossible
  · intro partition _ merged earlier
    split
    · exact Client.Always.pure earlier
    · apply Client.Always.bind (resolveOn_always hasher _ step)
      intro found here
      apply Client.Always.pure
      intro b member
      cases mem_of_mem_appendUnseen bindingKey member with
      | inl old => exact earlier b old
      | inr new => exact here b new

omit [Chrono] in
/-- Routing only groups the bindings of a frontier. -/
theorem groups_always (frontier : List Binding) (aliasName : String) :
    (raiseError (groupByOwningNodePartition hasher frontier aliasName)).Always
      fun groups =>
      ∀ group ∈ groups.toList, ∀ b ∈ group.2, b ∈ frontier := by
  apply Client.Always.ofExcept
  intro groups grouped group listed b member
  by_cases bound : ∀ b ∈ frontier, aliasName ∈ b.nodes
  · rw [groupByOwningNodePartition_ok hasher bound] at grouped
    cases grouped
    rw [(mem_toList_groupByKey.mp listed).1] at member
    exact (List.mem_filter.mp member).1
  · simp only [not_forall] at bound
    obtain ⟨other, inFrontier, unbound⟩ := bound
    rw [groupByOwningNodePartition_error hasher inFrontier unbound] at grouped
    cases grouped

/-- A round hands on extensions of its frontier. -/
theorem oneRound_always (step : ExpandHop) (frontier : List Binding) :
    ((inProcess hasher).oneRound partitions step frontier).Always fun out =>
      ∀ b' ∈ out, ∃ b ∈ frontier, Extends step (fun _ => True) b b' := by
  apply Client.Always.bind (groups_always hasher frontier step.fromAlias)
  intro byPartition within
  apply Client.Always.bind (Client.Always.unordered _)
  intro groups perm
  apply Client.Always.collect
  intro group listed
  split
  · exact Client.Always.pure (by simp)
  · apply Client.Always.bind (SimpleLocalExecutor.expandHop_always _ step group.2)
    intro found extended
    apply Client.Always.pure
    intro b' member
    obtain ⟨b, inGroup, related⟩ := extended b' member
    exact ⟨b, within group (perm.mem_iff.mp listed) b inGroup, related⟩

/-- The rounds after the first. -/
theorem hopRounds_always {step : ExpandHop} {nodes edges : List String}
    (remaining : Nat) {depth : Nat} (later : depth ≠ 1) (positive : 0 < depth)
    {current accepted : List Binding}
    (currentBinds : ∀ b ∈ current, b.Binds (nodes ++ [step.toAlias]) edges)
    (acceptedBinds : ∀ b ∈ accepted, b.Binds (nodes ++ [step.toAlias]) edges) :
    ((inProcess hasher).hopRounds partitions step remaining depth step.toAlias current
      accepted).Always fun out =>
      ∀ b ∈ out, b.Binds (nodes ++ [step.toAlias]) edges := by
  induction remaining generalizing depth current accepted with
  | zero => exact Client.Always.pure acceptedBinds
  | succ remaining inductionHypothesis =>
      rw [hopRounds]
      split
      · exact Client.Always.pure acceptedBinds
      · apply Client.Always.bind (oneRound_always hasher partitions _ current)
        intro next extended
        have nextBinds : ∀ b ∈ next, b.Binds (nodes ++ [step.toAlias]) edges := by
          intro b' member
          obtain ⟨b, inCurrent, related⟩ := extended b' member
          exact related.binds_again later (currentBinds b inCurrent)
        apply inductionHypothesis (by omega) (by omega) nextBinds
        split
        · intro b member
          cases mem_of_mem_appendUnseen bindingKey member with
          | inl old => exact acceptedBinds b old
          | inr new => exact nextBinds b new
        · exact acceptedBinds

/-- A hop adds its target and its edge alias. -/
theorem scatterGatherHop_always {step : ExpandHop} {nodes edges : List String}
    {frontier : List Binding} (binds : ∀ b ∈ frontier, b.Binds nodes edges) :
    ((inProcess hasher).scatterGatherHop partitions step frontier).Always fun out =>
      ∀ b ∈ out, b.Binds (nodes ++ [step.toAlias]) (edges ++ step.edgeAlias.toList) := by
  rw [scatterGatherHop]
  cases step.hops.max with
  | zero => exact Client.Always.pure (by simp)
  | succ remaining =>
      rw [hopRounds]
      split
      · exact Client.Always.pure (by simp)
      · apply Client.Always.bind (oneRound_always hasher partitions _ frontier)
        intro next extended
        have nextBinds : ∀ b ∈ next,
            b.Binds (nodes ++ [step.toAlias]) (edges ++ step.edgeAlias.toList) := by
          intro b' member
          obtain ⟨b, inFrontier, related⟩ := extended b' member
          exact related.binds (binds b inFrontier)
        apply hopRounds_always hasher partitions remaining (by omega) (by omega) nextBinds
        split
        · intro b member
          cases mem_of_mem_appendUnseen bindingKey member with
          | inl impossible => cases impossible
          | inr new => exact nextBinds b new
        · simp

/-- Filtering only drops bindings. -/
theorem filterFrontier_always (step : ExpandHop) (frontier : List Binding) :
    ((inProcess hasher).filterFrontier partitions step frontier).Always fun out =>
      ∀ b ∈ out, b ∈ frontier := by
  rw [filterFrontier]
  split
  · exact Client.Always.pure fun b member => member
  · apply Client.Always.bind (Client.Always.unordered _)
    intro ids _
    apply Client.Always.bind (Client.Always.trivial _)
    intro properties _
    exact Client.Always.pure fun b member => (List.mem_filter.mp member).1

/-- The condition groups hold bindings of the frontier. -/
theorem conditionGroups_always (step : AntiJoinStep) (sample : Binding)
    (frontier : List Binding) :
    ((inProcess hasher).conditionGroups partitions step sample frontier).Always
      fun groups =>
      ∀ group ∈ groups, ∀ b ∈ group.2, b ∈ frontier := by
  rw [conditionGroups]
  split
  · apply Client.Always.pure
    intro group listed b member
    rw [List.mem_singleton.mp listed] at member
    exact member
  · apply Client.Always.bind (Client.Always.trivial _)
    intro outerIsEdge _
    apply Client.Always.bind (Client.Always.trivial _)
    intro nodeProps _
    apply Client.Always.bind (Client.Always.trivial _)
    intro edgeProps _
    apply Client.Always.pure
    intro group listed b member
    have content :=
      (bucketByConditions_spec ⟨outerIsEdge, nodeProps, edgeProps⟩ step frontier).1
    exact (List.mem_filter.mp
      (content.mem_iff.mp (List.mem_flatMap.mpr ⟨group, listed, member⟩))).1

/-- The survivors of a group are bindings of the group. -/
theorem checkGroup_always (step : AntiJoinStep)
    (group : List PropertyFilter × List Binding) :
    ((inProcess hasher).checkGroup partitions step group).Always fun out =>
      ∀ b ∈ out, b ∈ group.2 := by
  apply Client.Always.bind (groups_always hasher group.2 step.fromAlias)
  intro byPartition within
  apply Client.Always.bind (Client.Always.unordered _)
  intro parts perm
  apply Client.Always.collect
  intro part listed
  split
  · exact Client.Always.pure (by simp)
  · apply Client.Always.bind (Client.Always.acquire _)
    intro generation _
    apply Client.Always.collect
    intro b inPart
    have inGroup := within part (perm.mem_iff.mp listed) b inPart
    rw [SimpleLocalExecutor.checkBinding]
    split
    · exact Client.Always.fail _
    · split
      · exact Client.Always.fail _
      · split
        · exact Client.Always.pure (by simp)
        · exact Client.Always.pure (by simpa using inGroup)

/-- The survivors of an anti-join are bindings of the frontier. -/
theorem executeAntiJoin_always (step : AntiJoinStep) (frontier : List Binding) :
    ((inProcess hasher).executeAntiJoin partitions step frontier).Always fun out =>
      ∀ b ∈ out, b ∈ frontier := by
  cases frontier with
  | nil => exact Client.Always.pure fun b member => member
  | cons sample rest =>
      apply Client.Always.bind
        (conditionGroups_always hasher partitions step sample (sample :: rest))
      intro groups within
      apply Client.Always.collect
      intro group listed
      exact (checkGroup_always hasher partitions step group).imp fun out kept b member =>
        within group listed b (kept b member)

/-- One step more. -/
theorem runStep_always {steps : List PlanStep} {frontier : List Binding}
    (same : Homogeneous steps frontier) (step : PlanStep) :
    ((inProcess hasher).runStep partitions frontier step).Always
      (Homogeneous (steps ++ [step])) := by
  cases step with
  | expandHop hop =>
      apply Client.Always.bind (scatterGatherHop_always hasher partitions same)
      intro expanded binds
      apply (filterFrontier_always hasher partitions hop expanded).imp
      intro out kept b member
      rw [List.flatMap_append, List.flatMap_append, List.flatMap_singleton,
        List.flatMap_singleton]
      exact binds b (kept b member)
  | antiJoin antiJoin =>
      apply (executeAntiJoin_always hasher partitions antiJoin frontier).imp
      intro out kept b member
      have noNodes : PlanStep.nodeAliases (.antiJoin antiJoin) = [] := rfl
      have noEdges : PlanStep.edgeAliases (.antiJoin antiJoin) = [] := rfl
      rw [List.flatMap_append, List.flatMap_append, List.flatMap_singleton,
        List.flatMap_singleton, noNodes, noEdges, List.append_nil, List.append_nil]
      exact same b (kept b member)
  | resolveStart step => exact Client.Always.fail _
  | resolveAll step => exact Client.Always.fail _

/-- The frontier after some steps of a plan, the first of them a start. -/
def frontierAfter (executor : ScatterGatherExecutor) (partitions : PartitionMap)
    (first : PlanStep) (done : List PlanStep) : Exec (List Binding) := do
  let start ← executor.broadcastResolve partitions first
  done.foldlM (executor.runStep partitions) start

/-- All bindings of a frontier bind the same aliases, those of the steps so far,
whatever the cells hold. -/
theorem frontierAfter_always (first : PlanStep) (done : List PlanStep) :
    (frontierAfter (inProcess hasher) partitions first done).Always
      (Homogeneous (first :: done)) := by
  have later : ∀ steps frontier, Homogeneous steps frontier →
      (done.foldlM ((inProcess hasher).runStep partitions) frontier).Always
        (Homogeneous (steps ++ done)) := by
    induction done with
    | nil =>
        intro steps frontier same
        rw [List.append_nil]
        exact Client.Always.pure same
    | cons step rest inductionHypothesis =>
        intro steps frontier same
        rw [List.foldlM_cons, ← List.singleton_append, ← List.append_assoc]
        apply Client.Always.bind (runStep_always hasher partitions same step)
        exact inductionHypothesis (steps ++ [step])
  exact Client.Always.bind (broadcastResolve_always hasher partitions first)
    (later [first])

end InProcess

/-! ### Steps over either transport -/

section Transports

variable [Chrono] (hasher : Partitioning) (partitions : PartitionMap)

/-- Calls are run in process, or cross a framed transport with a plan whose
optional texts survive the wire. -/
def Carries (rpc : PartitionRpc) (steps : List PlanStep) : Prop :=
  rpc = inProcessRpc ∨ ∃ transport : Transport, transport.Framed ∧
    (∀ step ∈ steps, step.TextsPresent) ∧
    rpc = grpcPartitionRpc transport

variable {hasher partitions}

/-- Whatever the replicas serve while the plan runs, every frontier is
homogeneous. -/
theorem homogeneous_frontierAfter {rpc : PartitionRpc} {first : PlanStep}
    {done : List PlanStep} (carries : Carries rpc (first :: done)) :
    (frontierAfter ⟨rpc, hasher⟩ partitions first done).Always
      (Homogeneous (first :: done)) := by
  rcases carries with rfl | ⟨transport, framed, present, rfl⟩
  · exact frontierAfter_always hasher partitions first done
  · have follows := grpcPartitionRpc_follows framed
    have similar := (follows.broadcastResolve hasher partitions first).bindEq
      (follows.runSteps hasher partitions fun step member =>
        present step (List.mem_cons_of_mem first member))
    exact similar.always (frontierAfter_always hasher partitions first done)

end Transports

/-! ### One binding speaks for all -/

section Samples

variable {nodes edges : List String}

/-- Two bindings with the same aliases classify alike. -/
theorem classifyOuter_congr {sample b : Binding}
    (sampleBinds : sample.Binds nodes edges) (binds : b.Binds nodes edges)
    (conditions : List OuterCondition) :
    classifyOuter sample conditions = classifyOuter b conditions := by
  simp only [classifyOuter, sampleBinds.nodes_iff, sampleBinds.edges_iff,
    binds.nodes_iff, binds.edges_iff]

/-- The first binding that has an alias has it as all bindings do. -/
theorem aliasKind_eq {bindings : List Binding}
    (binds : ∀ b ∈ bindings, b.Binds nodes edges) (nonempty : bindings ≠ [])
    (x : String) : aliasKind bindings x =
      if x ∈ edges then some true else if x ∈ nodes then some false else none := by
  induction bindings with
  | nil => exact absurd rfl nonempty
  | cons b rest inductionHypothesis =>
      have here := binds b List.mem_cons_self
      have later := inductionHypothesis fun other member =>
        binds other (List.mem_cons_of_mem b member)
      rw [aliasKind, List.findSome?_cons]
      simp only [here.edges_iff, here.nodes_iff]
      by_cases edge : x ∈ edges
      · simp only [edge, if_true]
      by_cases node : x ∈ nodes
      · simp only [edge, node, if_false, if_true]
      · simp only [edge, node, if_false] at later ⊢
        cases rest with
        | nil => rfl
        | cons other rest => exact later (List.cons_ne_nil _ _)

/-- Each alias asked for is known as the first binding that has it has it. -/
theorem getElem?_aliasIsEdge (project : List ReturnItem) (orderBy : Option OrderBy)
    (bindings : List Binding) (x : String) :
    (aliasIsEdge project orderBy bindings)[x]? =
      if x ∈ project.map ReturnItem.aliasName ++
        (orderBy.map OrderBy.aliasName).toList then aliasKind bindings x
      else none := by
  rw [aliasIsEdge]
  generalize project.map ReturnItem.aliasName ++
    (orderBy.map OrderBy.aliasName).toList = aliases
  induction aliases using List.reverseRecOn generalizing x with
  | nil => simp
  | append_singleton aliases a inductionHypothesis =>
      rw [List.foldl_append, List.foldl_cons, List.foldl_nil]
      generalize aliases.foldl _ (∅ : ExtTreeMap String Bool compare) =
        known at inductionHypothesis ⊢
      by_cases last : a = x
      · subst last
        rw [if_pos (List.mem_append_right _ (List.mem_singleton_self a))]
        split
        case isTrue seen =>
          -- only an alias asked for before is known
          have found := inductionHypothesis a
          rw [Std.ExtTreeMap.mem_iff_isSome_getElem?, found] at seen
          rw [found]
          split at seen
          case isTrue earlier => rw [if_pos earlier]
          case isFalse => cases seen
        case isFalse fresh =>
          cases kind : aliasKind bindings a with
          | some kind => rw [Std.ExtTreeMap.getElem?_insert_self]
          | none => exact Std.ExtTreeMap.getElem?_eq_none fresh
      · have members : x ∈ aliases ++ [a] ↔ x ∈ aliases := by simp [Ne.symm last]
        simp only [members]
        rw [← inductionHypothesis x]
        split
        case isTrue => rfl
        case isFalse =>
          cases aliasKind bindings a with
          | some kind =>
              have distinct : ¬ compare a x = .eq :=
                fun same => last (Std.LawfulEqOrd.eq_of_compare same)
              exact (Std.ExtTreeMap.getElem?_insert).trans (if_neg distinct)
          | none => rfl

/-- An alias asked for is taken for an edge exactly when a binding, whichever,
has it as an edge. -/
theorem isEdge_aliasIsEdge {bindings : List Binding}
    (binds : ∀ b ∈ bindings, b.Binds nodes edges) {b : Binding}
    (member : b ∈ bindings) {project : List ReturnItem} {orderBy : Option OrderBy}
    {x : String}
    (asked : x ∈ project.map ReturnItem.aliasName ++
      (orderBy.map OrderBy.aliasName).toList) :
    isEdge (aliasIsEdge project orderBy bindings) x = decide (x ∈ b.edges) := by
  rw [isEdge, getElem?_aliasIsEdge, if_pos asked,
    aliasKind_eq binds (List.ne_nil_of_mem member)]
  simp only [(binds b member).edges_iff]
  by_cases edge : x ∈ edges
  · simp [edge]
  · by_cases node : x ∈ nodes
    · simp [edge, node]
    · simp [edge, node]

end Samples

/-! ### Every run of a plan -/

section Runs

variable [Chrono]

/-- Every frontier of every run binds the aliases of the steps executed, so that
the classification of an outer alias from one binding is that from any other,
and a projected or sort alias is an edge in all rows or in none. -/
structure FrontiersHomogeneous (executor : ScatterGatherExecutor)
    (partitions : PartitionMap) (queryPlan : QueryPlan) : Prop where
  frontier : ∀ first done later, queryPlan.steps = first :: done ++ later →
    ∀ serve order time frontier,
    (frontierAfter executor partitions first done).run serve order time = .ok frontier →
      Homogeneous (first :: done) frontier
  outer : ∀ first done later, queryPlan.steps = first :: done ++ later →
    ∀ serve order time frontier,
    (frontierAfter executor partitions first done).run serve order time = .ok frontier →
      ∀ sample ∈ frontier, ∀ b ∈ frontier, ∀ conditions,
        classifyOuter sample conditions = classifyOuter b conditions
  returned : ∀ serve order time bindings,
    (executor.execute partitions queryPlan).run serve order time = .ok bindings →
    Homogeneous queryPlan.steps bindings ∧
    ∀ project orderBy, ∀ x ∈ project.map ReturnItem.aliasName ++
      (orderBy.map OrderBy.aliasName).toList,
      ∀ b ∈ bindings, isEdge (aliasIsEdge project orderBy bindings) x =
        decide (x ∈ b.edges)

variable {rpc : PartitionRpc} {hasher : Partitioning} {partitions : PartitionMap}
variable {queryPlan : QueryPlan}

/-- The run of a plan that begins with a start passes through each of its
frontiers. -/
theorem execute_eq_frontierAfter (executor : ScatterGatherExecutor)
    {first : PlanStep} {done later : List PlanStep}
    (split : queryPlan.steps = first :: done ++ later)
    (starts : (∃ step, first = .resolveStart step) ∨
      ∃ step, first = .resolveAll step) :
    executor.execute partitions queryPlan =
      (do
        let frontier ← frontierAfter executor partitions first done
        let last ← later.foldlM (executor.runStep partitions) frontier
        pure (dedup last)) := by
  rw [execute, split, List.cons_append]
  rcases starts with ⟨step, rfl⟩ | ⟨step, rfl⟩
  · simp only [List.foldlM_append, frontierAfter, bind_assoc]
  · simp only [List.foldlM_append, frontierAfter, bind_assoc]

/-- What a plan returns is its last frontier without duplicates. -/
theorem execute_always (carries : Carries rpc queryPlan.steps) :
    (execute ⟨rpc, hasher⟩ partitions queryPlan).Always
      (Homogeneous queryPlan.steps) := by
  have deduplicated : ∀ first rest, queryPlan.steps = first :: rest →
      ((∃ step, first = .resolveStart step) ∨ ∃ step, first = .resolveAll step) →
        (execute ⟨rpc, hasher⟩ partitions queryPlan).Always
          (Homogeneous queryPlan.steps) := by
    intro first rest split starts
    have whole : queryPlan.steps = first :: rest ++ [] := by rw [split, List.append_nil]
    rw [execute_eq_frontierAfter _ whole starts, split]
    rw [split] at carries
    apply Client.Always.bind (homogeneous_frontierAfter carries)
    intro frontier same
    apply Client.Always.pure
    intro b member
    cases mem_of_mem_appendUnseen bindingKey member with
    | inl impossible => cases impossible
    | inr inFrontier => exact same b inFrontier
  cases steps : queryPlan.steps with
  | nil =>
      rw [execute, steps]
      exact Client.Always.fail _
  | cons first rest =>
      rw [← steps]
      cases first with
      | resolveStart step => exact deduplicated _ rest steps (.inl ⟨step, rfl⟩)
      | resolveAll step => exact deduplicated _ rest steps (.inr ⟨step, rfl⟩)
      | expandHop step =>
          rw [execute, steps]
          exact Client.Always.fail _
      | antiJoin step =>
          rw [execute, steps]
          exact Client.Always.fail _

/-- A prefix of a plan is carried when the plan is. -/
theorem Carries.earlier {steps later : List PlanStep}
    (carries : Carries rpc (steps ++ later)) : Carries rpc steps := by
  rcases carries with inProcess | ⟨transport, framed, present, same⟩
  · exact .inl inProcess
  · exact .inr ⟨transport, framed, fun step member =>
      present step (List.mem_append_left later member), same⟩

/-- In every run of every plan all frontiers are homogeneous: their bindings
have the same aliases.  The cells may be swapped between any two reads and may
hold anything.  `carries` says how calls are made: in process, or over a network
whose framing bounds a message and which keeps the texts of the plan apart from
ones left out. -/
theorem frontiersHomogeneous_of_execute (hasher : Partitioning)
    (partitions : PartitionMap) (carries : Carries rpc queryPlan.steps) :
    FrontiersHomogeneous ⟨rpc, hasher⟩ partitions queryPlan := by
  have same : ∀ first done later, queryPlan.steps = first :: done ++ later →
      ∀ serve order time frontier,
      (frontierAfter ⟨rpc, hasher⟩ partitions first done).run serve order time =
        .ok frontier →
        Homogeneous (first :: done) frontier := by
    intro first done later split serve order time frontier ends
    rw [split] at carries
    exact (homogeneous_frontierAfter carries.earlier).run ends
  constructor
  case frontier => exact same
  case outer =>
    intro first done later split serve order time frontier ends sample inFrontier b
      member conditions
    have homogeneous := same first done later split serve order time frontier ends
    exact classifyOuter_congr (homogeneous sample inFrontier)
      (homogeneous b member) conditions
  case returned =>
    intro serve order time bindings ends
    have homogeneous := (execute_always carries).run ends
    exact ⟨homogeneous, fun project orderBy x asked b member =>
      isEdge_aliasIsEdge homogeneous member asked⟩

end Runs

section

open scoped Social

/-- The acquaintances of everybody, in process. -/
theorem acquaintances_homogeneous :
    FrontiersHomogeneous (inProcess Social.byParity)
      (deployment Social.byParity) Social.acquaintancesPlan :=
  frontiersHomogeneous_of_execute Social.byParity (deployment Social.byParity) (.inl rfl)

end

end GraphEngine
