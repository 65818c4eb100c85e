/-
Module: GraphEngine.Model.DistributedExecutor
Layer: Model
Purpose: The coordinator's scatter-gather loop: start resolution is broadcast,
  every hop is a sequence of single-hop rounds routed by node, filters and outer
  conditions are evaluated over hydrated records, and anti-joins are dispatched
  per condition group and partition.
Trusted boundary: `PartitionRpc` is the interface of the transport; nothing is
  assumed of it here
Main exports: PartitionRpc, ScatterGatherExecutor.execute, bindingKey
-/
import GraphEngine.Model.Cluster
import GraphEngine.Model.LocalExecutor
import Mathlib.Data.List.Sort

namespace GraphEngine

open Std (ExtTreeMap ExtTreeSet)

/-- Coordinator to replica calls. -/
structure PartitionRpc where
  resolveStart : ReplicaEndpoint → PlanStep → Exec (List Binding)
  resolveAll : ReplicaEndpoint → PlanStep → Exec (List Binding)
  expandHop : ReplicaEndpoint → PlanStep → List Binding → Exec Frontier
  getNodeProperties : ReplicaEndpoint → List NodeId →
    Exec (ExtTreeMap NodeId NodeRecord compare)
  getEdgeProperties : ReplicaEndpoint → List EdgeId →
    Exec (ExtTreeMap EdgeId EdgeRecord compare)
  checkAntiJoin : ReplicaEndpoint → AntiJoinStep → List PropertyFilter → List Binding →
    Exec (List Binding)

/-! ### Deduplication -/

/-- `(kind, alias, id)`; the kind keeps node and edge aliases apart. -/
abbrev KeyTriple := Nat × String × Nat

/-- The order of triples that a binding's key is sorted by. -/
def KeyTriple.le (a b : KeyTriple) : Bool :=
  (compareLex (compareOn Prod.fst)
    (compareLex (compareOn fun t : KeyTriple => t.2.1)
      (compareOn fun t : KeyTriple => t.2.2)) a b).isLE

/-- The triples of a binding, in the order in which the maps are iterated. -/
def bindingTriples (nodes : List (String × NodeId)) (edges : List (String × EdgeId)) :
    List KeyTriple :=
  nodes.map (fun entry => (0, entry.1, entry.2.val)) ++
    edges.map (fun entry => (1, entry.1, entry.2.val))

/-- Sorted key of a binding. -/
def bindingKey (binding : Binding) : List KeyTriple :=
  (bindingTriples binding.nodes.toList binding.edges.toList).insertionSort fun a b =>
    KeyTriple.le a b = true

/-- The first of every class of bindings with one key, in the order in which
they come. -/
def dedup (bindings : List Binding) : List Binding := appendUnseen bindingKey [] bindings

/-! ### Routing -/

/-- Groups a frontier by the partition that owns each binding's `aliasName`
node. -/
def groupByOwningNodePartition (hasher : Partitioning) (frontier : List Binding)
    (aliasName : String) :
    Except ExecutionError (ExtTreeMap PartitionId (List Binding) compare) :=
  frontier.foldlM
    (fun groups binding =>
      match binding.nodes[aliasName]? with
      | some node => .ok (pushGroup groups (hasher.partition node) binding)
      | none => .error (.unknownAlias aliasName))
    ∅

/-- The ids by the partition that owns them, one call each. -/
def groupIdsByPartition (hasher : Partitioning) (ids : List NodeId) :
    ExtTreeMap PartitionId (List NodeId) compare :=
  groupByKey hasher.partition ids

/-- The literal a stored value can be turned into, if there is one. -/
def propertyValueToLiteral : PropertyValue → Option Literal
  | .int64 v => some (.int64 v)
  | .float64 v => some (.float64 v)
  | .bool v => some (.bool v)
  | .string v => some (.string v)
  | .timestamp _ | .bytes _ | .list _ | .null => none

/-- Return the error of a pure computation. -/
def raiseError {α : Type} (x : Except ExecutionError α) : Exec α :=
  Client.ofExcept (x.mapError Fault.error)

/-- `ScatterGatherExecutor<R>`. -/
structure ScatterGatherExecutor where
  rpc : PartitionRpc
  hasher : Partitioning

namespace ScatterGatherExecutor

variable (executor : ScatterGatherExecutor) (partitions : PartitionMap)

/-! ### Start resolution -/

/-- The call that matches the variant of the first step. -/
def resolveOn (replica : ReplicaEndpoint) (step : PlanStep) : Exec (List Binding) :=
  match step with
  | .resolveStart _ => executor.rpc.resolveStart replica step
  | .resolveAll _ => executor.rpc.resolveAll replica step
  | .expandHop _ | .antiJoin _ =>
      Client.fail
        (.panic "broadcast_resolve is only ever called with the plan's first step")

/-- Ask every partition and merge what each one finds. -/
def broadcastResolve (step : PlanStep) : Exec (List Binding) := do
  let keys ← Client.unordered partitions.replicasByPartition.keys
  keys.foldlM
    (fun merged partition =>
      match pickReplica partitions partition with
      | none => pure merged
      | some replica => do
          let bindings ← executor.resolveOn replica step
          pure (appendUnseen bindingKey merged bindings))
    []

/-! ### Hops -/

/-- One network round: route every binding by its source node, advance it one
hop, and merge what comes back, local or remote.  A partition without a healthy
replica contributes nothing. -/
def oneRound (roundStep : ExpandHop) (frontier : List Binding) : Exec (List Binding) := do
  let byPartition ← raiseError
      (groupByOwningNodePartition executor.hasher frontier roundStep.fromAlias)
  let groups ← Client.unordered byPartition.toList
  Client.collect
    (fun group =>
      match pickReplica partitions group.1 with
      | none => pure []
      | some replica => do
          let result ← executor.rpc.expandHop replica (.expandHop roundStep) group.2
          pure (result.localBindings ++ result.remote.map Prod.snd))
    groups

/-- The single-hop, unfiltered step of one round.  Only the first round carries
the edge alias. -/
def roundStep (step : ExpandHop) (cursorAlias : String) (depth : Nat) : ExpandHop :=
  { fromAlias := cursorAlias
    toAlias := step.toAlias
    toLabel := none
    edgeType := step.edgeType
    direction := step.direction
    hops := { min := 1, max := 1 }
    filters := []
    edgeAlias := if depth = 1 then step.edgeAlias else none }

/-- The rounds `depth, depth + 1, ...`, at most `remaining` of them, while there
is a frontier. -/
def hopRounds (step : ExpandHop) : (remaining depth : Nat) → (cursorAlias : String) →
    (current accepted : List Binding) → Exec (List Binding)
  | 0, _, _, _, accepted => pure accepted
  | remaining + 1, depth, cursorAlias, current, accepted =>
      if current = [] then pure accepted
      else do
        let next ← executor.oneRound partitions (roundStep step cursorAlias depth) current
        hopRounds step remaining (depth + 1) step.toAlias next
          (if step.hops.min ≤ depth then appendUnseen bindingKey accepted next
            else accepted)

/-- A hop with a call to a partition for every depth: first to last depth, and
the survivors of the filters at the end. -/
def scatterGatherHop (step : ExpandHop) (frontier : List Binding) : Exec (List Binding) :=
  executor.hopRounds partitions step step.hops.max 1 step.fromAlias frontier []

/-! ### Hydration -/

/-- The records of some nodes, asked of the partitions that own them. -/
def getNodeProperties (ids : List NodeId) :
    Exec (ExtTreeMap NodeId NodeRecord compare) := do
  let groups ← Client.unordered (groupIdsByPartition executor.hasher ids).toList
  groups.foldlM
    (fun properties group =>
      match pickReplica partitions group.1 with
      | none => pure properties
      | some replica => do
          let found ← executor.rpc.getNodeProperties replica group.2
          pure (properties ∪ found))
    ∅

/-- Ask every partition for the edges not found yet: an edge's owner cannot be
told from its id. -/
def getEdgeProperties (ids : List EdgeId) :
    Exec (ExtTreeMap EdgeId EdgeRecord compare) := do
  let keys ← Client.unordered partitions.replicasByPartition.keys
  let outcome ← keys.foldlM
    (fun (acc : ExtTreeMap EdgeId EdgeRecord compare × ExtTreeSet EdgeId
        compare) partition =>
      if acc.2.isEmpty then pure acc
      else
        match pickReplica partitions partition with
        | none => pure acc
        | some replica => do
            let batch ← Client.unordered acc.2.toList
            let found ← executor.rpc.getEdgeProperties replica batch
            pure (acc.1 ∪ found, acc.2.filter fun id => id ∉ found))
    (∅, ExtTreeSet.ofList ids compare)
  pure outcome.1

/-! ### Filters -/

variable [Chrono]

/-- Does the hydrated record of a binding's target satisfy every filter?  A
record that could not be fetched does not. -/
def passesFilters (step : ExpandHop) (properties : ExtTreeMap NodeId NodeRecord compare)
    (binding : Binding) : Bool :=
  match binding.nodes[step.toAlias]? with
  | none => false
  | some id =>
      match properties[id]? with
      | none => false
      | some record => evaluateFilters record.properties step.filters

/-- The bindings whose target passes the filters of the hop, judged by the
properties the partitions hand out. -/
def filterFrontier (step : ExpandHop) (frontier : List Binding) : Exec (List Binding) :=
  if step.filters = [] ∨ frontier = [] then pure frontier
  else do
    let targets :=
      ExtTreeSet.ofList (frontier.filterMap fun b => b.nodes[step.toAlias]?) compare
    let ids ← Client.unordered targets.toList
    let properties ← executor.getNodeProperties partitions ids
    pure (frontier.filter (passesFilters step properties))

/-! ### Anti-joins -/

/-- Is each outer alias an edge or a node?  Read off one binding of the
frontier. -/
def classifyOuter (sample : Binding) (conditions : List OuterCondition) :
    Except ExecutionError (ExtTreeMap String Bool compare) :=
  conditions.foldlM
    (fun outerIsEdge condition =>
      if condition.outer.aliasName ∈ sample.edges then
        .ok (outerIsEdge.insert condition.outer.aliasName true)
      else if condition.outer.aliasName ∈ sample.nodes then
        .ok (outerIsEdge.insert condition.outer.aliasName false)
      else .error (.unknownAlias condition.outer.aliasName))
    ∅

/-- Whether an alias of the outer query is read as that of an edge. -/
def isEdge (outerIsEdge : ExtTreeMap String Bool compare) (aliasName : String) : Bool :=
  outerIsEdge[aliasName]?.getD false

/-- The node ids to hydrate. -/
def nodeIdsNeeded (outerIsEdge : ExtTreeMap String Bool compare) (step : AntiJoinStep)
    (frontier : List Binding) : ExtTreeSet NodeId compare :=
  ExtTreeSet.ofList
    (frontier.flatMap fun binding =>
      step.outerConditions.filterMap fun condition =>
        if isEdge outerIsEdge condition.outer.aliasName then none
        else binding.nodes[condition.outer.aliasName]?) compare

/-- The edge ids to hydrate. -/
def edgeIdsNeeded (outerIsEdge : ExtTreeMap String Bool compare) (step : AntiJoinStep)
    (frontier : List Binding) : ExtTreeSet EdgeId compare :=
  ExtTreeSet.ofList
    (frontier.flatMap fun binding =>
      step.outerConditions.filterMap fun condition =>
        if isEdge outerIsEdge condition.outer.aliasName then
          binding.edges[condition.outer.aliasName]?
        else none) compare

/-- The hydrated records that outer references are resolved against. -/
structure Hydrated where
  outerIsEdge : ExtTreeMap String Bool compare
  nodeProps : ExtTreeMap NodeId NodeRecord compare
  edgeProps : ExtTreeMap EdgeId EdgeRecord compare

/-- The properties of what a binding binds an outer alias to. -/
def Hydrated.properties (hydrated : Hydrated) (binding : Binding) (aliasName : String) :
    Option Properties :=
  if isEdge hydrated.outerIsEdge aliasName then
    (binding.edges[aliasName]?).bind fun id =>
      (hydrated.edgeProps[id]?).map EdgeRecord.properties
  else
    (binding.nodes[aliasName]?).bind fun id =>
      (hydrated.nodeProps[id]?).map NodeRecord.properties

/-- An outer condition with its outer side replaced by a literal, when it can
be. -/
def Hydrated.resolve (hydrated : Hydrated) (binding : Binding)
    (condition : OuterCondition) : Option PropertyFilter := do
  let properties ← hydrated.properties binding condition.outer.aliasName
  let value ← properties[condition.outer.property]?
  let literal ← propertyValueToLiteral value
  pure { property := condition.property, op := condition.op, value := literal }

/-- The full condition list of a binding; a binding with an unresolvable
condition has none. -/
def Hydrated.resolveAll (hydrated : Hydrated) (step : AntiJoinStep) (binding : Binding) :
    Option (List PropertyFilter) :=
  (step.outerConditions.mapM (hydrated.resolve binding)).map (step.literalConditions ++ ·)

/-- Put a binding into the bucket of its condition list; an unresolvable binding
is dropped. -/
def pushResolved (resolved : Option (List PropertyFilter)) (binding : Binding)
    (groups : List (List PropertyFilter × List Binding)) :
    List (List PropertyFilter × List Binding) :=
  match resolved with
  | some conditions => pushBucket PropertyFilter.listBeq conditions binding groups
  | none => groups

/-- Bindings with equal condition lists share a bucket. -/
def bucketByConditions (hydrated : Hydrated) (step : AntiJoinStep)
    (frontier : List Binding) : List (List PropertyFilter × List Binding) :=
  frontier.foldl (fun groups binding =>
    pushResolved (hydrated.resolveAll step binding) binding groups) []

/-- The records of the outer nodes, fetched when there are any. -/
def hydrateNodes (ids : ExtTreeSet NodeId compare) :
    Exec (ExtTreeMap NodeId NodeRecord compare) :=
  if ids.isEmpty then pure ∅
  else do
    let ids ← Client.unordered ids.toList
    executor.getNodeProperties partitions ids

/-- The records of the outer edges, fetched when there are any. -/
def hydrateEdges (ids : ExtTreeSet EdgeId compare) :
    Exec (ExtTreeMap EdgeId EdgeRecord compare) :=
  if ids.isEmpty then pure ∅
  else do
    let ids ← Client.unordered ids.toList
    executor.getEdgeProperties partitions ids

/-- The frontier in groups of bindings whose outer conditions resolve alike,
once what these refer to has been fetched. -/
def resolveAndGroupByCondition (step : AntiJoinStep) (sample : Binding)
    (frontier : List Binding) : Exec (List (List PropertyFilter × List Binding)) := do
  let outerIsEdge ← raiseError (classifyOuter sample step.outerConditions)
  let nodeProps ← executor.hydrateNodes partitions
      (nodeIdsNeeded outerIsEdge step frontier)
  let edgeProps ← executor.hydrateEdges partitions
      (edgeIdsNeeded outerIsEdge step frontier)
  pure (bucketByConditions ⟨outerIsEdge, nodeProps, edgeProps⟩ step frontier)

/-- One `check_anti_join` call per partition of a condition group. -/
def checkGroup (step : AntiJoinStep) (group : List PropertyFilter × List Binding) :
    Exec (List Binding) := do
  let byPartition ← raiseError
      (groupByOwningNodePartition executor.hasher group.2 step.fromAlias)
  let parts ← Client.unordered byPartition.toList
  Client.collect
    (fun part =>
      match pickReplica partitions part.1 with
      | none => pure []
      | some replica => executor.rpc.checkAntiJoin replica step group.1 part.2)
    parts

/-- The condition groups of a frontier; without outer conditions there is a
single one. -/
def conditionGroups (step : AntiJoinStep) (sample : Binding) (frontier : List Binding) :
    Exec (List (List PropertyFilter × List Binding)) :=
  if step.outerConditions = [] then pure [(step.literalConditions, frontier)]
  else executor.resolveAndGroupByCondition partitions step sample frontier

/-- The bindings for which no candidate is found, one scatter for every group of
bindings with the same conditions. -/
def executeAntiJoin (step : AntiJoinStep) (frontier : List Binding) :
    Exec (List Binding) :=
  match frontier with
  | [] => pure []
  | sample :: _ => do
      let groups ← executor.conditionGroups partitions step sample frontier
      Client.collect (executor.checkGroup partitions step) groups

/-! ### The whole plan -/

/-- One step after the first. -/
def runStep (frontier : List Binding) (step : PlanStep) : Exec (List Binding) :=
  match step with
  | .expandHop hop => do
      let expanded ← executor.scatterGatherHop partitions hop frontier
      executor.filterFrontier partitions hop expanded
  | .antiJoin antiJoin => executor.executeAntiJoin partitions antiJoin frontier
  | .resolveStart _ | .resolveAll _ =>
      raise (.unknownAlias "ResolveStart/ResolveAll can only be the first plan step")

/-- `ScatterGatherExecutor::execute`. -/
def execute (plan : QueryPlan) : Exec (List Binding) :=
  match plan.steps with
  | [] =>
      raise (.unknownAlias "a plan always has at least a ResolveStart/ResolveAll step")
  | .expandHop _ :: _ | .antiJoin _ :: _ =>
      raise (.unknownAlias "a plan's first step must be ResolveStart or ResolveAll")
  | first :: rest => do
      let start ← executor.broadcastResolve partitions first
      let frontier ← rest.foldlM (executor.runStep partitions) start
      pure (dedup frontier)

end ScatterGatherExecutor

/-! ### The in-process transport -/

/-- The records of a generation for a list of ids; unknown ids are skipped. -/
def recordsOf {κ ν : Type} [Ord κ] [Std.TransOrd κ] (records : ExtTreeMap κ ν compare)
    (ids : List κ) : ExtTreeMap κ ν compare :=
  collectMap (ids.filterMap fun id => (records[id]?).map fun record => (id, record))

/-- Calls that run the local executor directly on the replica's generation
handle. -/
def inProcessRpc [Chrono] : PartitionRpc where
  resolveStart replica step := SimpleLocalExecutor.resolveStart replica.handle step
  resolveAll replica step := SimpleLocalExecutor.resolveAll replica.handle step
  expandHop replica step frontier :=
    SimpleLocalExecutor.expandHop replica.handle step frontier
  getNodeProperties replica ids := do
    let generation ← replica.handle.acquire
    pure (recordsOf generation.nodeRecords ids)
  getEdgeProperties replica ids := do
    let generation ← replica.handle.acquire
    pure (recordsOf generation.edgeRecords ids)
  checkAntiJoin replica step conditions frontier :=
    SimpleLocalExecutor.checkAntiJoin replica.handle step conditions frontier

end GraphEngine
