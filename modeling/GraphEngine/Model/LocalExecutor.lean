/-
Module: GraphEngine.Model.LocalExecutor
Layer: Model
Purpose: Plan steps run against the generation of one partition: start
  resolution, breadth-first expansion over the adjacency, and the anti-join
  check.
Trusted boundary: none
Main exports: SimpleLocalExecutor.resolveStart, SimpleLocalExecutor.resolveAll,
  SimpleLocalExecutor.expandHop, SimpleLocalExecutor.checkAntiJoin
-/
import GraphEngine.Model.FilterEval
import GraphEngine.Model.Planner

namespace GraphEngine

open Std (ExtTreeMap ExtTreeSet)

/-- An untyped step takes every edge. -/
def typeMatches (edgeType : Option String) (entry : AdjacencyEntry) : Bool :=
  match edgeType with
  | some t => decide (entry.edgeType.name = t)
  | none => true

/-- The adjacency of a node in one direction. -/
def IndexGeneration.neighbors (generation : IndexGeneration) (direction : Direction)
    (node : NodeId) : List AdjacencyEntry :=
  match direction with
  | .outgoing => generation.topology.outNeighbors node
  | .incoming => generation.topology.inNeighbors node

namespace SimpleLocalExecutor

/-! ### Start resolution -/

/-- The bindings of the nodes that the index has under the key. -/
def resolveStart (index : GenerationHandle) : PlanStep → Exec (List Binding)
  | .resolveStart step => do
      let generation ← index.acquire
      pure ((generation.properties.lookupEq step.labelOrType step.property step.key).map
        (Binding.fromNode step.aliasName))
  | _ => raise (.unknownAlias "resolve_start called with a non-ResolveStart step")

/-- The bindings of all nodes of a label, in the order of the map. -/
def resolveAll (index : GenerationHandle) : PlanStep → Exec (List Binding)
  | .resolveAll step => do
      let generation ← index.acquire
      let records ← Client.unordered generation.nodeRecords.toList
      pure ((records.filter fun entry => entry.2.label.name = step.label).map fun entry =>
        Binding.fromNode step.aliasName entry.1)
  | _ => raise (.unknownAlias "resolve_all called with a non-ResolveAll step")

/-! ### Expansion -/

/-- What the expansion of one binding has found: the nodes of the depth being
explored, the nodes already handed out, and the bindings handed out. -/
structure HopState where
  next : ExtTreeSet NodeId compare
  seen : ExtTreeSet NodeId compare
  found : Frontier

/-- Follow one adjacency entry.  With an edge alias every entry yields its own
binding; without one a remote node is handed out once and a local node waits for
the end of the depth. -/
def visitEntry (step : ExpandHop) (binding : Binding) (state : HopState)
    (entry : AdjacencyEntry) : HopState :=
  if typeMatches step.edgeType entry then
    match entry.dstLocal with
    | some dst =>
        let next := state.next.insert dst
        if step.edgeAlias.isSome then
          { state with
            next := next
            found :=
              { state.found with
                localBindings := state.found.localBindings ++
                  [binding.extend step.toAlias dst step.edgeAlias entry.edgeId] } }
        else { state with next := next }
    | none =>
        match entry.dstRemote with
        | some remoteRef =>
            if step.edgeAlias.isSome ∨ remoteRef.node ∉ state.seen then
              { state with
                seen :=
                  if step.edgeAlias.isSome then state.seen
                    else state.seen.insert remoteRef.node
                found :=
                  { state.found with
                    remote := state.found.remote ++
                      [(remoteRef,
                        binding.extend step.toAlias remoteRef.node step.edgeAlias
                          entry.edgeId)] } }
            else state
        | none => state
  else state

/-- Hand out a local node reached at an accepted depth. -/
def acceptNode (step : ExpandHop) (binding : Binding) (state : HopState)
    (node : NodeId) : HopState :=
  if node ∈ state.seen then state
  else
    { state with
      seen := state.seen.insert node
      found :=
        { state.found with
          localBindings :=
            state.found.localBindings ++ [binding.bindNode step.toAlias node] } }

/-- Explore the neighbors of every node of one depth. -/
def visitNodes (generation : IndexGeneration) (step : ExpandHop) (binding : Binding)
    (state : HopState) (nodes : List NodeId) : HopState :=
  nodes.foldl
    (fun state node => (generation.neighbors step.direction node).foldl
      (visitEntry step binding) state)
    { state with next := ∅ }

/-- One depth: explore the current nodes and, without an edge alias and once
`hops.min` is reached, hand out the local nodes found. -/
def exploreDepth (generation : IndexGeneration) (step : ExpandHop)
    (binding : Binding) (depth : Nat) (current : ExtTreeSet NodeId compare)
    (state : HopState) : Exec HopState := do
  let nodes ← Client.unordered current.toList
  let visited := visitNodes generation step binding state nodes
  if step.edgeAlias.isNone ∧ step.hops.min ≤ depth then do
    let targets ← Client.unordered visited.next.toList
    pure (targets.foldl (acceptNode step binding) visited)
  else pure visited

/-- The depths `depth, depth + 1, ...`, at most `remaining` of them, stopping at
the first empty one. -/
def expandDepths (generation : IndexGeneration) (step : ExpandHop)
    (binding : Binding) :
    (remaining depth : Nat) → (current : ExtTreeSet NodeId compare) →
      HopState → Exec HopState
  | 0, _, _, state => pure state
  | remaining + 1, depth, current, state => do
      let explored ← exploreDepth generation step binding depth current state
      if explored.next.isEmpty then pure explored
      else
        expandDepths generation step binding remaining (depth + 1) explored.next explored

/-- The expansion of one binding; nodes handed out are remembered per binding. -/
def expandBinding (generation : IndexGeneration) (step : ExpandHop) (binding : Binding) :
    Exec Frontier :=
  match binding.nodes[step.fromAlias]? with
  | none => raise (.unknownAlias step.fromAlias)
  | some start => do
      let state ← expandDepths generation step binding step.hops.max 1
        ((∅ : ExtTreeSet NodeId compare).insert start) ⟨∅, ∅, ⟨[], []⟩⟩
      pure state.found

/-! ### Filters through the property index -/

/-- The nodes of a label that pass one filter by the index; `<>` has no lookup,
so it fails. -/
def propertyFilterMatches (properties : PropertyIndex) (label : String)
    (filter : PropertyFilter) : Except Fault (ExtTreeSet NodeId compare) := do
  let key ← (literalToPropertyKey filter.value).mapError Fault.panic
  let ids ←
    match filter.op with
    | .eq => .ok (properties.lookupEq label filter.property key)
    | .gt => .ok (properties.lookupRange label filter.property (.excluded key) .unbounded)
    | .gte =>
        .ok (properties.lookupRange label filter.property (.included key) .unbounded)
    | .lt => .ok (properties.lookupRange label filter.property .unbounded (.excluded key))
    | .lte =>
        .ok (properties.lookupRange label filter.property .unbounded (.included key))
    | .ne =>
        .error (.error (.unknownAlias
          s!"WHERE ... <> on property {filter.property} is not supported in v1"))
  .ok (ExtTreeSet.ofList ids compare)

/-- The nodes that every filter allows; `none` before the first filter. -/
def allowedNodes (properties : PropertyIndex) (label : String)
    (filters : List PropertyFilter) :
    Except Fault (Option (ExtTreeSet NodeId compare)) :=
  filters.foldlM
    (fun allowed filter => do
      let found ← propertyFilterMatches properties label filter
      match allowed with
      | none => .ok (some found)
      | some previous => .ok (some (previous.filter fun id => id ∈ found)))
    none

/-- Keep the bindings whose target satisfies every filter, by way of the
property index. -/
def applyFilters (properties : PropertyIndex) (toLabel : Option String)
    (toAlias : String) (filters : List PropertyFilter) (bindings : List Binding) :
    Except Fault (List Binding) :=
  if filters = [] then .ok bindings
  else
    match toLabel with
    | none => .ok bindings
    | some label => do
        let allowed ← allowedNodes properties label filters
        bindings.filterM fun binding =>
          match binding.nodes[toAlias]? with
          | some id => .ok (decide (id ∈ allowed.getD ∅))
          | none => .error (.panic "no entry found for key")

/-- Expand every binding of a frontier. -/
def expandFrontier (generation : IndexGeneration) (step : ExpandHop)
    (frontier : List Binding) : Exec Frontier :=
  frontier.foldlM
    (fun acc binding => do
      let found ← expandBinding generation step binding
      pure
        { localBindings := acc.localBindings ++ found.localBindings
          remote := acc.remote ++ found.remote })
    ⟨[], []⟩

/-- One call: expand every binding, then keep what passes the filters of the
hop. -/
def expandHop (index : GenerationHandle) (planStep : PlanStep) (frontier : List Binding) :
    Exec Frontier :=
  match planStep with
  | .expandHop step => do
      let generation ← index.acquire
      let found ← expandFrontier generation step frontier
      let filtered ← Client.ofExcept
        (applyFilters generation.properties step.toLabel step.toAlias step.filters
          found.localBindings)
      pure { localBindings := filtered, remote := found.remote }
  | _ => raise (.unknownAlias "expand_hop called with a non-ExpandHop step")

/-! ### Anti-join -/

variable [Chrono]

/-- Does an adjacency entry lead to a node? -/
def landsOn (entry : AdjacencyEntry) (node : NodeId) : Bool :=
  decide (entry.dstLocal = some node) ||
    decide (entry.dstRemote.map RemoteRef.node = some node)

/-- Some edge of the step's type between the two nodes has a record that
satisfies every condition. -/
def candidateExists (generation : IndexGeneration) (step : AntiJoinStep)
    (conditions : List PropertyFilter) (fromNode toNode : NodeId) : Bool :=
  (generation.neighbors step.direction fromNode).any fun entry =>
    typeMatches step.edgeType entry && landsOn entry toNode &&
      match generation.edgeRecords[entry.edgeId]? with
      | some record => evaluateFilters record.properties conditions
      | none => false

/-- A binding survives if no candidate is found for it. -/
def checkBinding (generation : IndexGeneration) (step : AntiJoinStep)
    (conditions : List PropertyFilter) (binding : Binding) : Exec (List Binding) :=
  match binding.nodes[step.fromAlias]? with
  | none => raise (.unknownAlias step.fromAlias)
  | some fromNode =>
      match binding.nodes[step.toAlias]? with
      | none => raise (.unknownAlias step.toAlias)
      | some toNode =>
          if candidateExists generation step conditions fromNode toNode then pure []
          else pure [binding]

/-- The bindings for which no matching edge exists. -/
def checkAntiJoin (index : GenerationHandle) (step : AntiJoinStep)
    (conditions : List PropertyFilter) (frontier : List Binding) :
    Exec (List Binding) := do
  let generation ← index.acquire
  Client.collect (checkBinding generation step conditions) frontier

end SimpleLocalExecutor

end GraphEngine
