/-
Module: GraphEngine.Model.Plan
Layer: Model
Purpose: Query plans, the bindings that are threaded through a plan, and the
  programs that executors run.
Trusted boundary: none
Main exports: PlanStep, AntiJoinStep, QueryPlan, Binding, Frontier,
  ExecutionError, Exec
-/
import GraphEngine.Lib.Client
import GraphEngine.Model.Dsl
import GraphEngine.Model.Index

namespace GraphEngine

open Std (ExtTreeMap)

/-! ### Plans -/

/-- Resolve the initial binding set through the property index. -/
structure ResolveStart where
  aliasName : String
  labelOrType : String
  property : String
  key : PropertyKey
deriving DecidableEq, Repr

/-- Resolve the initial binding set to every node of a label. -/
structure ResolveAll where
  aliasName : String
  label : String
deriving DecidableEq, Repr

/-- Expand from one alias to another, `hops.min` to `hops.max` hops deep. -/
structure ExpandHop where
  fromAlias : String
  toAlias : String
  toLabel : Option String
  edgeType : Option String
  direction : Direction
  hops : HopRange
  filters : List PropertyFilter
  edgeAlias : Option String
deriving DecidableEq, Repr

/-- `(candidate_edge_property, op, outer_alias.outer_property)`. -/
structure OuterCondition where
  property : String
  op : ComparisonOp
  outer : PropertyRef
deriving DecidableEq, Repr

/-- The correlated existence check that a `NOT EXISTS` compiles into. -/
structure AntiJoinStep where
  fromAlias : String
  toAlias : String
  direction : Direction
  edgeAlias : Option String
  edgeType : Option String
  literalConditions : List PropertyFilter
  outerConditions : List OuterCondition
deriving DecidableEq, Repr

/-- The steps of a plan: a start, hops and anti-joins. -/
inductive PlanStep where
  | resolveStart (step : ResolveStart)
  | resolveAll (step : ResolveAll)
  | expandHop (step : ExpandHop)
  | antiJoin (step : AntiJoinStep)
deriving DecidableEq, Repr

/-- The steps of a plan in the order in which they run. -/
structure QueryPlan where
  steps : List PlanStep
  project : List ReturnItem
deriving DecidableEq, Repr

/-! ### Bindings -/

/-- One partial match in progress: which node and which edge every alias is
bound to. -/
structure Binding where
  nodes : ExtTreeMap String NodeId compare
  edges : ExtTreeMap String EdgeId compare

namespace Binding

/-- A binding is the node and the edge of every alias. -/
theorem ext_parts {a b : Binding} (nodes : a.nodes = b.nodes)
    (edges : a.edges = b.edges) : a = b := by
  cases a; cases b; cases nodes; cases edges; rfl

instance : DecidableEq Binding := fun a b =>
  if both : (a.nodes == b.nodes) = true ∧ (a.edges == b.edges) = true then
    .isTrue (ext_parts (eq_of_beq both.1) (eq_of_beq both.2))
  else
    .isFalse fun same =>
      both (by rw [same]; exact ⟨beq_self_eq_true _, beq_self_eq_true _⟩)

/-- A binding with exactly one node bound. -/
def fromNode (aliasName : String) (node : NodeId) : Binding :=
  { nodes := (∅ : ExtTreeMap String NodeId compare).insert aliasName node, edges := ∅ }

/-- Bind an alias to a node, in place of what it had. -/
def bindNode (b : Binding) (aliasName : String) (node : NodeId) : Binding :=
  { b with nodes := b.nodes.insert aliasName node }

/-- Bind an alias to an edge, in place of what it had. -/
def bindEdge (b : Binding) (aliasName : String) (edge : EdgeId) : Binding :=
  { b with edges := b.edges.insert aliasName edge }

/-- The binding one hop further: the target alias bound to `node`, the edge
alias, if any, to `edge`. -/
def extend (b : Binding) (toAlias : String) (node : NodeId) (edgeAlias : Option String)
    (edge : EdgeId) : Binding :=
  match edgeAlias with
  | some aliasName => (b.bindNode toAlias node).bindEdge aliasName edge
  | none => b.bindNode toAlias node

@[simp] theorem fromNode_nodes (aliasName other : String) (node : NodeId) :
    (fromNode aliasName node).nodes[other]? = if aliasName = other then some node
      else none := by
  simp [fromNode, Std.ExtTreeMap.getElem?_insert]

@[simp] theorem fromNode_edges (aliasName other : String) (node : NodeId) :
    (fromNode aliasName node).edges[other]? = none := by
  simp [fromNode]

@[simp] theorem bindNode_nodes (b : Binding) (aliasName other : String) (node : NodeId) :
    (b.bindNode aliasName node).nodes[other]? =
      if aliasName = other then some node else b.nodes[other]? := by
  simp [bindNode, Std.ExtTreeMap.getElem?_insert]

@[simp] theorem bindNode_edges (b : Binding) (aliasName : String) (node : NodeId) :
    (b.bindNode aliasName node).edges = b.edges := rfl

@[simp] theorem bindEdge_nodes (b : Binding) (aliasName : String) (edge : EdgeId) :
    (b.bindEdge aliasName edge).nodes = b.nodes := rfl

@[simp] theorem bindEdge_edges (b : Binding) (aliasName other : String) (edge : EdgeId) :
    (b.bindEdge aliasName edge).edges[other]? =
      if aliasName = other then some edge else b.edges[other]? := by
  simp [bindEdge, Std.ExtTreeMap.getElem?_insert]

@[simp] theorem extend_nodes (b : Binding) (toAlias : String) (node : NodeId)
    (edgeAlias : Option String) (edge : EdgeId) :
    (b.extend toAlias node edgeAlias edge).nodes = (b.bindNode toAlias node).nodes := by
  cases edgeAlias <;> rfl

@[simp] theorem extend_edges (b : Binding) (toAlias : String) (node : NodeId)
    (edgeAlias : Option String) (edge : EdgeId) (other : String) :
    (b.extend toAlias node edgeAlias edge).edges[other]? =
      if edgeAlias = some other then some edge else b.edges[other]? := by
  cases edgeAlias with
  | none => simp [extend]
  | some aliasName => simp [extend]

@[simp] theorem mem_fromNode_nodes (aliasName other : String) (node : NodeId) :
    other ∈ (fromNode aliasName node).nodes ↔ aliasName = other := by
  simp [fromNode]

@[simp] theorem mem_fromNode_edges (aliasName other : String) (node : NodeId) :
    other ∉ (fromNode aliasName node).edges := by
  simp [fromNode]

@[simp] theorem mem_bindNode_nodes (b : Binding) (aliasName other : String)
    (node : NodeId) :
    other ∈ (b.bindNode aliasName node).nodes ↔ aliasName = other ∨ other ∈ b.nodes := by
  simp [bindNode]

@[simp] theorem mem_extend_edges (b : Binding) (toAlias : String) (node : NodeId)
    (edgeAlias : Option String) (edge : EdgeId) (other : String) :
    other ∈ (b.extend toAlias node edgeAlias edge).edges ↔ edgeAlias = some other ∨
      other ∈ b.edges := by
  cases edgeAlias with
  | none => simp [extend]
  | some aliasName => simp [extend, bindEdge]

/-- An alias is bound as a node exactly where it has one. -/
theorem mem_nodes_iff (b : Binding) (x : String) :
    x ∈ b.nodes ↔ ∃ v, b.nodes[x]? = some v := by
  rw [Std.ExtTreeMap.mem_iff_isSome_getElem?, Option.isSome_iff_exists]

/-- An alias is bound as an edge exactly where it has one. -/
theorem mem_edges_iff (b : Binding) (x : String) :
    x ∈ b.edges ↔ ∃ e, b.edges[x]? = some e := by
  rw [Std.ExtTreeMap.mem_iff_isSome_getElem?, Option.isSome_iff_exists]

end Binding

/-- The bindings of one hop: finished here, or continuing on another partition. -/
structure Frontier where
  localBindings : List Binding
  remote : List (RemoteRef × Binding)
deriving DecidableEq

/-! ### Programs -/

/-- The errors of an execution. -/
inductive ExecutionError where
  | noIndex
  | unknownAlias (aliasName : String)
  | rpc (reason : String)
deriving DecidableEq, Repr

/-- `ExecutionError::to_string`. -/
def ExecutionError.display : ExecutionError → String
  | .noIndex => "index generation unavailable"
  | .unknownAlias aliasName => "plan step referenced unknown alias: " ++ aliasName
  | .rpc reason => "partition RPC failed: " ++ reason

/-- How a program ends without a result. -/
inductive Fault where
  | error (error : ExecutionError)
  | panic (message : String)
deriving DecidableEq, Repr

/-- A program of a query: it reads the generation handles of partition replicas
and meets the iteration orders of hash maps and hash sets. -/
abbrev Exec (α : Type) := Client GenerationHandle IndexGeneration Fault α

/-- Snapshot the currently served generation. -/
def GenerationHandle.acquire (handle : GenerationHandle) : Exec IndexGeneration :=
  Client.acquire handle

/-- Return an execution error. -/
def raise {α : Type} (error : ExecutionError) : Exec α := Client.fail (.error error)

end GraphEngine
