/-
Module: GraphEngine.Model.QueryService
Layer: Model
Purpose: The coordinator's `ExecuteQuery`: parse, validate, plan, execute, then
  classify the aliases, hydrate, sort, cut and project the bindings.
Trusted boundary: the parser's report and the printing of validation errors are
  parameters, and so is what discovery finds; metrics are left out
Main exports: sortBy, comparePropertyValues, sortBindingsByProperty,
  aliasIsEdge, executeQuery
-/
import GraphEngine.Lib.StableSort
import GraphEngine.Model.DslParser
import GraphEngine.Model.GrpcTransport
import GraphEngine.Model.Validator

namespace GraphEngine

open Std (ExtTreeMap ExtTreeSet)
open ScatterGatherExecutor (isEdge)

/-! ### Sorting -/

/-- `slice::sort_by`: a stable sort when the comparator is a total preorder on
the slice.  Under any other comparator the order is unspecified, and the sort
may panic. -/
def sortBy {α : Type} (cmp : α → α → Ordering) (l : List α) : Exec (List α) :=
  if TotalPreorderOn cmp l then pure (stableSort cmp l)
  else do
    let outcomes ← Client.unordered [false, true]
    if outcomes.head? = some true then
      Client.fail (.panic
        "user-provided comparison function does not correctly implement a total order")
    else Client.unordered l

namespace GraphServiceImpl

/-- Orders two values of one declared scalar type.  A null sorts after any
concrete value. -/
def comparePropertyValues : PropertyValue → PropertyValue → Ordering
  | .null, .null => .eq
  | .null, _ => .gt
  | _, .null => .lt
  | .int64 a, .int64 b => compare a b
  | .float64 a, .float64 b => (a.partialCmp b).getD .eq
  | .bool a, .bool b => compare a b
  | .string a, .string b => compare a b
  | .timestamp a, .timestamp b => compare a b
  | .bytes a, .bytes b => compare a b
  | _, _ => .eq

/-- The alias kinds and the records that a result set is sorted and projected
by. -/
structure Hydration where
  aliasIsEdge : ExtTreeMap String Bool compare
  nodeProperties : ExtTreeMap NodeId NodeRecord compare
  edgeProperties : ExtTreeMap EdgeId EdgeRecord compare

/-- The value of `alias.property` in a row, if the alias is bound, its record is
there and has the property. -/
def Hydration.value (hydration : Hydration) (aliasName property : String)
    (binding : Binding) : Option PropertyValue :=
  if isEdge hydration.aliasIsEdge aliasName then do
    let id ← binding.edges[aliasName]?
    let record ← hydration.edgeProperties[id]?
    record.properties[property]?
  else do
    let id ← binding.nodes[aliasName]?
    let record ← hydration.nodeProperties[id]?
    record.properties[property]?

/-- The value that a row is sorted by. -/
def sortKey (hydration : Hydration) (orderBy : OrderBy) (binding : Binding) :
    Option PropertyValue :=
  hydration.value orderBy.aliasName orderBy.property binding

/-- A row without a sort key sorts after every row that has one. -/
def compareKeys : Option PropertyValue → Option PropertyValue → Ordering
  | some a, some b => comparePropertyValues a b
  | some _, none => .lt
  | none, some _ => .gt
  | none, none => .eq

/-- The comparison that the rows are sorted by; the direction applies to the
combined ordering. -/
def compareBindings (hydration : Hydration) (orderBy : OrderBy) (a b : Binding) :
    Ordering :=
  let ordering := compareKeys (sortKey hydration orderBy a) (sortKey hydration orderBy b)
  match orderBy.direction with
  | .asc => ordering
  | .desc => ordering.swap

/-- The bindings sorted by the property of the `ORDER BY` clause. -/
def sortBindingsByProperty (hydration : Hydration) (orderBy : OrderBy)
    (bindings : List Binding) : Exec (List Binding) :=
  sortBy (compareBindings hydration orderBy) bindings

/-! ### Aliases -/

/-- Is the alias an edge or a node?  Read off the first binding that has it. -/
def aliasKind (bindings : List Binding) (aliasName : String) : Option Bool :=
  bindings.findSome? fun b =>
    if aliasName ∈ b.edges then some true
    else if aliasName ∈ b.nodes then some false
    else none

/-- The kinds of the projected aliases and of the sort alias, as far as a
binding has them. -/
def aliasIsEdge (project : List ReturnItem) (orderBy : Option OrderBy)
    (bindings : List Binding) : ExtTreeMap String Bool compare :=
  (project.map ReturnItem.aliasName ++ (orderBy.map OrderBy.aliasName).toList).foldl
    (fun known aliasName =>
      if aliasName ∈ known then known
      else
        match aliasKind bindings aliasName with
        | some kind => known.insert aliasName kind
        | none => known)
    ∅

/-- The node an item of the `RETURN` clause is about. -/
def resolveNodeId (item : ReturnItem) (aliasIsEdge : ExtTreeMap String Bool compare)
    (binding : Binding) : Option NodeId :=
  if isEdge aliasIsEdge item.aliasName then none else binding.nodes[item.aliasName]?

/-- The edge an item of the `RETURN` clause is about. -/
def resolveEdgeId (item : ReturnItem) (aliasIsEdge : ExtTreeMap String Bool compare)
    (binding : Binding) : Option EdgeId :=
  if isEdge aliasIsEdge item.aliasName then binding.edges[item.aliasName]? else none

/-- The nodes to hydrate: those projected and, when the sort alias is a node,
those sorted by. -/
def neededNodeIds (aliasIsEdge : ExtTreeMap String Bool compare)
    (project : List ReturnItem) (orderBy : Option OrderBy) (bindings : List Binding) :
    ExtTreeSet NodeId compare :=
  ExtTreeSet.ofList
    (bindings.flatMap (fun binding => project.filterMap fun item =>
        resolveNodeId item aliasIsEdge binding) ++
      orderBy.toList.flatMap fun orderBy =>
        if isEdge aliasIsEdge orderBy.aliasName then []
        else bindings.filterMap fun binding => binding.nodes[orderBy.aliasName]?) compare

/-- The edges to hydrate: those projected and, when the sort alias is an edge,
those sorted by. -/
def neededEdgeIds (aliasIsEdge : ExtTreeMap String Bool compare)
    (project : List ReturnItem) (orderBy : Option OrderBy) (bindings : List Binding) :
    ExtTreeSet EdgeId compare :=
  ExtTreeSet.ofList
    (bindings.flatMap (fun binding => project.filterMap fun item =>
        resolveEdgeId item aliasIsEdge binding) ++
      orderBy.toList.flatMap fun orderBy =>
        if isEdge aliasIsEdge orderBy.aliasName then
          bindings.filterMap fun binding => binding.edges[orderBy.aliasName]?
        else []) compare

/-! ### Projection -/

/-- A row of the answer, as it is sent. -/
structure QueryResult where
  projection : ExtTreeMap String ProtoValue compare
  properties : ExtTreeMap String NodeProperties compare
  edgeProperties : ExtTreeMap String EdgeProperties compare

/-- An unsigned id, bit-cast. -/
def int64Value (id : Nat) : ProtoValue := ⟨some (.int64Value (BitVec.ofNat 64 id).toInt)⟩

/-- Lists and nulls have no variant on the wire. -/
def propertyValueToProto : PropertyValue → Option ProtoValue
  | .int64 v => some ⟨some (.int64Value v)⟩
  | .float64 v => some ⟨some (.float64Value v)⟩
  | .bool v => some ⟨some (.boolValue v)⟩
  | .string v => some ⟨some (.stringValue v)⟩
  | .timestamp v => some ⟨some (.timestampValue v)⟩
  | .bytes v => some ⟨some (.bytesValue v)⟩
  | .list _ | .null => none

/-- A node's record as it is sent to the client. -/
def nodeRecordToProto (record : NodeRecord) : NodeProperties :=
  { label := record.label.name
    fields := record.properties.filterMap fun _ value => propertyValueToProto value }

/-- An edge's record as it is sent to the client. -/
def edgeRecordToProto (record : EdgeRecord) : EdgeProperties :=
  { edgeType := record.edgeType.name
    fields := record.properties.filterMap fun _ value => propertyValueToProto value }

/-- Add a bare alias to a row: its id and, if there is one, its whole record.
An alias is read as an edge or as a node by what the first binding makes of it. -/
def projectAlias (hydration : Hydration) (binding : Binding) (row : QueryResult)
    (aliasName : String) : QueryResult :=
  if isEdge hydration.aliasIsEdge aliasName then
    match binding.edges[aliasName]? with
    | none => row
    | some id =>
        { row with
          projection := row.projection.insert aliasName (int64Value id.val)
          edgeProperties :=
            match hydration.edgeProperties[id]? with
            | some record =>
                row.edgeProperties.insert aliasName (edgeRecordToProto record)
            | none => row.edgeProperties }
  else
    match binding.nodes[aliasName]? with
    | none => row
    | some id =>
        { row with
          projection := row.projection.insert aliasName (int64Value id.val)
          properties :=
            match hydration.nodeProperties[id]? with
            | some record => row.properties.insert aliasName (nodeRecordToProto record)
            | none => row.properties }

/-- Add one item to a row; a property is keyed by `alias.property`. -/
def projectItem (hydration : Hydration) (binding : Binding) (row : QueryResult)
    (item : ReturnItem) : QueryResult :=
  match item.property with
  | none => projectAlias hydration binding row item.aliasName
  | some property =>
      match (hydration.value item.aliasName property binding).bind
        propertyValueToProto with
      | some value =>
          { row with
              projection :=
                row.projection.insert (item.aliasName ++ "." ++ property) value }
      | none => row

/-- The row of a binding: every item of the `RETURN` clause in order. -/
def projectBinding (hydration : Hydration) (project : List ReturnItem)
    (binding : Binding) : QueryResult :=
  project.foldl (projectItem hydration binding) ⟨∅, ∅, ∅⟩

/-! ### The service -/

end GraphServiceImpl

/-- The schema served and the executor that queries run on. -/
structure GraphServiceImpl where
  schema : Schema
  executor : ScatterGatherExecutor

/-- What others contribute to an answer: the report of a text that cannot be
parsed, the printing of validation errors, and the cluster membership or why it
is not known. -/
structure Surroundings where
  report : String → Nat × String
  validationText : List ValidationError → String
  currentMap : Except String PartitionMap

/-- How a query ends without results. -/
inductive QueryFault where
  | invalidArgument (message : String)
  | unavailable (message : String)
  | internal (message : String)
  | panic (message : String)
deriving DecidableEq, Repr

/-- A fault of the executor as the service reports it. -/
def QueryFault.ofFault : Fault → QueryFault
  | .error e => .internal e.display
  | .panic message => .panic message

/-- `DslError::to_string`. -/
def DslError.display : DslError → String
  | .syntaxError pos message =>
      "syntax error at position " ++ toString pos ++ ": " ++ message

namespace GraphServiceImpl

variable (service : GraphServiceImpl)

/-- Sort when an order is asked for. -/
def applyOrderBy (hydration : Hydration) (orderBy : Option OrderBy)
    (bindings : List Binding) : Exec (List Binding) :=
  match orderBy with
  | some orderBy => sortBindingsByProperty hydration orderBy bindings
  | none => pure bindings

/-- Truncate when a limit is given. -/
def applyLimit (limit : Option Nat) (bindings : List Binding) : List Binding :=
  match limit with
  | some n => bindings.take n
  | none => bindings

/-- From the gathered bindings to the rows. -/
def respond (partitions : PartitionMap) (query : Query) (project : List ReturnItem)
    (bindings : List Binding) : Exec (List QueryResult) := do
  let kinds := aliasIsEdge project query.orderBy bindings
  let nodeProperties ← service.executor.hydrateNodes partitions
    (neededNodeIds kinds project query.orderBy bindings)
  let edgeProperties ← service.executor.hydrateEdges partitions
    (neededEdgeIds kinds project query.orderBy bindings)
  let hydration : Hydration := ⟨kinds, nodeProperties, edgeProperties⟩
  let sorted ← applyOrderBy hydration query.orderBy bindings
  pure ((applyLimit query.limit sorted).map (projectBinding hydration project))

/-- `execute_query`: parse, validate, plan, ask discovery for the map, execute,
and make the rows of what is found.  A panic of the parser or the planner ends
the call, and so does every error. -/
def executeQuery [Chrono] (surroundings : Surroundings) (dsl : String) :
    Client GenerationHandle IndexGeneration QueryFault (List QueryResult) := do
  let parsed ← Client.ofExcept
      ((PestParser.parse surroundings.report dsl).mapError QueryFault.panic)
  let query ← Client.ofExcept
    (parsed.mapError fun e => QueryFault.invalidArgument ("syntax error: " ++ e.display))
  Client.ofExcept ((SchemaValidator.validate query service.schema).mapError fun errors =>
    QueryFault.invalidArgument
      ("query failed validation: " ++ surroundings.validationText errors))
  let plan ← Client.ofExcept ((NaivePlanner.plan query).mapError QueryFault.panic)
  let partitions ← Client.ofExcept
    (surroundings.currentMap.mapError fun reason =>
      QueryFault.unavailable ("cluster discovery failed: " ++ reason))
  let bindings ← (service.executor.execute partitions plan).mapError QueryFault.ofFault
  (service.respond partitions query plan.project bindings).mapError QueryFault.ofFault

end GraphServiceImpl

end GraphEngine
