/-
Module: GraphEngine.Model.GrpcTransport
Layer: Model
Purpose: The gRPC transport of the coordinator's calls: the wire messages, the
  partition node's service, which decodes a request, runs the local executor and
  encodes what it returns, and the coordinator's client, which encodes a call
  and decodes the reply.  Encoders and decoders exist once in each of the two
  programs.
Trusted boundary: `Transport` stands for prost and tonic; it delivers a message
  unchanged or fails the call
Main exports: Transport, PartitionServiceImpl, GrpcPartitionRpc,
  grpcPartitionRpc
-/
import GraphEngine.Model.DistributedExecutor

namespace GraphEngine

open Std (ExtTreeMap)

/-! ### Wire messages -/

/-- `value::Kind`. -/
inductive ProtoKind where
  | int64Value (value : Int)
  | float64Value (value : F64)
  | boolValue (value : Bool)
  | stringValue (value : String)
  | timestampValue (value : Int)
  | bytesValue (value : List UInt8)
deriving DecidableEq, Repr

/-- A value of a message; the `oneof` may be unset. -/
structure ProtoValue where
  kind : Option ProtoKind
deriving DecidableEq, Repr

/-- The comparisons of a message, numbered from `0` on the wire. -/
inductive ProtoComparisonOp where
  | eq | ne | lt | lte | gt | gte
deriving DecidableEq, Repr

/-- The enum's number on the wire. -/
def ProtoComparisonOp.code : ProtoComparisonOp → Int
  | .eq => 0
  | .ne => 1
  | .lt => 2
  | .lte => 3
  | .gt => 4
  | .gte => 5

/-- `ProtoComparisonOp::try_from`. -/
def ProtoComparisonOp.ofCode : Int → Option ProtoComparisonOp
  | 0 => some .eq
  | 1 => some .ne
  | 2 => some .lt
  | 3 => some .lte
  | 4 => some .gt
  | 5 => some .gte
  | _ => none

/-- A filter of a message: the comparison is a number, which may be none of
those that are known. -/
structure ProtoPropertyFilter where
  property : String
  op : Int
  value : Option ProtoValue
deriving DecidableEq, Repr

/-- A binding of a message. -/
structure ProtoBinding where
  nodeIdsByAlias : ExtTreeMap String Nat compare
  edgeIdsByAlias : ExtTreeMap String Nat compare

/-- The arguments of `ResolveStart`. -/
structure ResolveStartRequest where
  aliasName : String
  labelOrType : String
  property : String
  key : Option ProtoValue

/-- The arguments of `ResolveAll`. -/
structure ResolveAllRequest where
  aliasName : String
  label : String

/-- An empty label, edge type or edge alias stands for none. -/
structure ExpandHopRequest where
  frontier : List ProtoBinding
  fromAlias : String
  toAlias : String
  toLabel : String
  edgeType : String
  incoming : Bool
  hopMin : Nat
  hopMax : Nat
  filters : List ProtoPropertyFilter
  edgeAlias : String

/-- An empty edge type or edge alias stands for none. -/
structure CheckAntiJoinRequest where
  frontier : List ProtoBinding
  fromAlias : String
  toAlias : String
  edgeAlias : String
  edgeType : String
  incoming : Bool
  conditions : List ProtoPropertyFilter

/-- Which entries of the request's frontier survive. -/
structure CheckAntiJoinResponse where
  survivingIndices : List Nat

/-- A node's record as it is sent. -/
structure NodeProperties where
  label : String
  fields : ExtTreeMap String ProtoValue compare

/-- An edge's record as it is sent. -/
structure EdgeProperties where
  edgeType : String
  fields : ExtTreeMap String ProtoValue compare

/-- The nodes whose records are asked for. -/
structure GetNodePropertiesRequest where
  nodeIds : List Nat

/-- The records that the partition has. -/
structure GetNodePropertiesResponse where
  properties : ExtTreeMap Nat NodeProperties compare

/-- The edges whose records are asked for. -/
structure GetEdgePropertiesRequest where
  edgeIds : List Nat

/-- The records that the partition has. -/
structure GetEdgePropertiesResponse where
  properties : ExtTreeMap Nat EdgeProperties compare

/-- Everything that crosses the wire between the coordinator and a partition
node. -/
inductive Message where
  | resolveStart (request : ResolveStartRequest)
  | resolveAll (request : ResolveAllRequest)
  | expandHop (request : ExpandHopRequest)
  | checkAntiJoin (request : CheckAntiJoinRequest)
  | getNodeProperties (request : GetNodePropertiesRequest)
  | getEdgeProperties (request : GetEdgePropertiesRequest)
  | streamItem (binding : ProtoBinding)
  | antiJoinChecked (response : CheckAntiJoinResponse)
  | nodeProperties (response : GetNodePropertiesResponse)
  | edgeProperties (response : GetEdgePropertiesResponse)

/-! ### Statuses -/

/-- The codes that the service answers with. -/
inductive StatusCode where
  | invalidArgument
  | internal
deriving DecidableEq, Repr

/-- The status of a call that fails, as far as the executor tells statuses
apart. -/
structure Status where
  code : StatusCode
  message : String
deriving DecidableEq, Repr

/-- What the request says cannot be read. -/
def Status.invalidArgument (message : String) : Status := ⟨.invalidArgument, message⟩

/-- The handler failed on a request that can be read. -/
def Status.internal (message : String) : Status := ⟨.internal, message⟩

/-- How a handler ends without a reply. -/
inductive HandlerFault where
  | status (status : Status)
  | panic (message : String)
deriving DecidableEq, Repr

/-- `map_err(|e| Status::internal(e.to_string()))`. -/
def HandlerFault.ofFault : Fault → HandlerFault
  | .error e => .status (.internal e.display)
  | .panic message => .panic message

/-- A handler of the service: it reads the generation handles of its process. -/
abbrev Handler (α : Type) := Client GenerationHandle IndexGeneration HandlerFault α

/-- The answer to a request that could not be decoded is the decoder's status. -/
def Handler.decoded {α : Type} (decoding : Except Status α) : Handler α :=
  Client.ofExcept (decoding.mapError HandlerFault.status)

/-- `(!text.is_empty()).then_some(text)`. -/
def nonEmptyText (text : String) : Option String :=
  if text.isEmpty then none else some text

/-! ### The service of a partition node -/

/-- The service over the generation handle of its process. -/
structure PartitionServiceImpl where
  generation : GenerationHandle

namespace PartitionServiceImpl

/-- The encoder of bindings on the server's side. -/
def bindingToProto (binding : Binding) : ProtoBinding :=
  { nodeIdsByAlias := binding.nodes.map fun _ id => id.val
    edgeIdsByAlias := binding.edges.map fun _ id => id.val }

/-- The decoder of bindings on the server's side. -/
def protoBindingToBinding (proto : ProtoBinding) : Binding :=
  { nodes := proto.nodeIdsByAlias.map fun _ id => ⟨id⟩
    edges := proto.edgeIdsByAlias.map fun _ id => ⟨id⟩ }

/-- The bindings of a streamed reply, one message each. -/
def bindingsToStream (bindings : List Binding) : List ProtoBinding :=
  bindings.map bindingToProto

/-- Lists and nulls have no variant on the wire. -/
def propertyValueToProto : PropertyValue → Option ProtoValue
  | .int64 v => some ⟨some (.int64Value v)⟩
  | .float64 v => some ⟨some (.float64Value v)⟩
  | .bool v => some ⟨some (.boolValue v)⟩
  | .string v => some ⟨some (.stringValue v)⟩
  | .timestamp v => some ⟨some (.timestampValue v)⟩
  | .bytes v => some ⟨some (.bytesValue v)⟩
  | .list _ | .null => none

/-- The encoder of a node's record; values without a literal are left out. -/
def nodeRecordToProto (record : NodeRecord) : NodeProperties :=
  { label := record.label.name
    fields := record.properties.filterMap fun _ value => propertyValueToProto value }

/-- The encoder of an edge's record. -/
def edgeRecordToProto (record : EdgeRecord) : EdgeProperties :=
  { edgeType := record.edgeType.name
    fields := record.properties.filterMap fun _ value => propertyValueToProto value }

/-- The key of a lookup, out of the value of a request. -/
def protoValueToPropertyKey (value : ProtoValue) : Except Status PropertyKey :=
  match value.kind with
  | some (.int64Value v) => .ok (.int64 v)
  | some (.boolValue v) => .ok (.bool v)
  | some (.stringValue v) => .ok (.string v)
  | some (.timestampValue v) => .ok (.timestamp v)
  | some (.float64Value _) | some (.bytesValue _) =>
      .error (.invalidArgument "PropertyIndex has no key variant for float/bytes values")
  | none => .error (.invalidArgument "missing Value.kind")

/-- The literal of a filter, out of the value of a request. -/
def protoValueToLiteral (value : ProtoValue) : Except Status Literal :=
  match value.kind with
  | some (.int64Value v) => .ok (.int64 v)
  | some (.float64Value v) => .ok (.float64 v)
  | some (.boolValue v) => .ok (.bool v)
  | some (.stringValue v) => .ok (.string v)
  | some (.timestampValue _) | some (.bytesValue _) =>
      .error (.invalidArgument
        "WHERE filters don't support timestamp/bytes literals in v1")
  | none => .error (.invalidArgument "missing Value.kind")

/-- The comparison of a number of the wire. -/
def protoComparisonOpToOp (op : Int) : Except Status ComparisonOp :=
  match ProtoComparisonOp.ofCode op with
  | some .eq => .ok .eq
  | some .ne => .ok .ne
  | some .lt => .ok .lt
  | some .lte => .ok .lte
  | some .gt => .ok .gt
  | some .gte => .ok .gte
  | none => .error (.invalidArgument "unknown ComparisonOp")

/-- The filter of a request. -/
def protoFilterToPropertyFilter (proto : ProtoPropertyFilter) :
    Except Status PropertyFilter := do
  let op ← protoComparisonOpToOp proto.op
  match proto.value with
  | none => .error (.invalidArgument "missing filter value")
  | some value => do
      let literal ← protoValueToLiteral value
      .ok { property := proto.property, op := op, value := literal }

/-- The direction that the request's flag stands for. -/
def direction (incoming : Bool) : Direction := if incoming then .incoming else .outgoing

/-! #### Handlers -/

variable (service : PartitionServiceImpl)

/-- The handler of `ResolveStart`. -/
def resolveStart (request : ResolveStartRequest) : Handler (List ProtoBinding) := do
  let value ← Handler.decoded (match request.key with
    | some value => .ok value
    | none => .error (.invalidArgument "missing key"))
  let key ← Handler.decoded (protoValueToPropertyKey value)
  let step : ResolveStart :=
    { aliasName := request.aliasName
      labelOrType := request.labelOrType
      property := request.property
      key := key }
  let bindings ← (SimpleLocalExecutor.resolveStart service.generation
    (.resolveStart step)).mapError HandlerFault.ofFault
  pure (bindingsToStream bindings)

/-- The handler of `ResolveAll`. -/
def resolveAll (request : ResolveAllRequest) : Handler (List ProtoBinding) := do
  let step : ResolveAll := { aliasName := request.aliasName, label := request.label }
  let bindings ← (SimpleLocalExecutor.resolveAll service.generation
    (.resolveAll step)).mapError HandlerFault.ofFault
  pure (bindingsToStream bindings)

/-- The handler of `ExpandHop`.  The bindings that continue in another partition
join the stream of those that are finished here, and are not told apart in it. -/
def expandHop (request : ExpandHopRequest) : Handler (List ProtoBinding) := do
  let frontier := request.frontier.map protoBindingToBinding
  let filters ← Handler.decoded (request.filters.mapM protoFilterToPropertyFilter)
  let step : ExpandHop :=
    { fromAlias := request.fromAlias
      toAlias := request.toAlias
      toLabel := nonEmptyText request.toLabel
      edgeType := nonEmptyText request.edgeType
      direction := direction request.incoming
      hops := { min := request.hopMin, max := request.hopMax }
      filters := filters
      edgeAlias := nonEmptyText request.edgeAlias }
  let result ← (SimpleLocalExecutor.expandHop service.generation (.expandHop step)
    frontier).mapError HandlerFault.ofFault
  pure (bindingsToStream (result.localBindings ++ result.remote.map Prod.snd))

/-- The positions of the survivors in the frontier, found by equality and cut to
32 bits. -/
def survivingIndices (frontier survivors : List Binding) : List Nat :=
  frontier.zipIdx.filterMap fun entry =>
    if entry.1 ∈ survivors then some (entry.2 % 2 ^ 32) else none

/-- The handler of `CheckAntiJoin`.  It answers with the positions, in the
frontier of the request, of the bindings that survive. -/
def checkAntiJoin [Chrono] (request : CheckAntiJoinRequest) :
    Handler CheckAntiJoinResponse := do
  let frontier := request.frontier.map protoBindingToBinding
  let conditions ← Handler.decoded (request.conditions.mapM protoFilterToPropertyFilter)
  let step : AntiJoinStep :=
    { fromAlias := request.fromAlias
      toAlias := request.toAlias
      direction := direction request.incoming
      edgeAlias := nonEmptyText request.edgeAlias
      edgeType := nonEmptyText request.edgeType
      literalConditions := []
      outerConditions := [] }
  let survivors ← (SimpleLocalExecutor.checkAntiJoin service.generation step conditions
    frontier).mapError HandlerFault.ofFault
  pure { survivingIndices := survivingIndices frontier survivors }

/-- The handler of `GetNodeProperties`. -/
def getNodeProperties (request : GetNodePropertiesRequest) :
    Handler GetNodePropertiesResponse := do
  let generation ← Client.acquire service.generation
  pure { properties := collectMap (request.nodeIds.filterMap fun id =>
    (generation.nodeRecords[(⟨id⟩ : NodeId)]?).map fun record =>
      (id, nodeRecordToProto record)) }

/-- The handler of `GetEdgeProperties`. -/
def getEdgeProperties (request : GetEdgePropertiesRequest) :
    Handler GetEdgePropertiesResponse := do
  let generation ← Client.acquire service.generation
  pure { properties := collectMap (request.edgeIds.filterMap fun id =>
    (generation.edgeRecords[(⟨id⟩ : EdgeId)]?).map fun record =>
      (id, edgeRecordToProto record)) }

end PartitionServiceImpl

/-! ### The network -/

/-- What the client is told by the framework: why no channel to a replica can be
opened, why a message was not delivered, and how it prints the end of a
handler. -/
structure Transport where
  connect : ReplicaEndpoint → Except String Unit
  deliver : Message → Except String Unit
  statusText : Status → String
  panicText : String → String

namespace Transport

variable (transport : Transport)

/-- `GrpcPartitionRpc::client`. -/
def client (replica : ReplicaEndpoint) : Exec Unit :=
  raiseError ((transport.connect replica).mapError ExecutionError.rpc)

/-- A message of either side on its way. -/
def send (message : Message) : Exec Unit :=
  raiseError ((transport.deliver message).mapError ExecutionError.rpc)

/-- `map_err(|e| ExecutionError::Rpc(e.to_string()))`. -/
def reported : HandlerFault → Fault
  | .status status => .error (.rpc (transport.statusText status))
  | .panic message => .error (.rpc (transport.panicText message))

/-- Let the service handle a delivered request. -/
def handle {α : Type} (handler : Handler α) : Exec α :=
  handler.mapError transport.reported

/-- Receive a stream item by item. -/
def collect (stream : List ProtoBinding) : Exec (List ProtoBinding) :=
  Client.collect (fun item => do transport.send (.streamItem item); pure [item]) stream

end Transport

/-! ### The client of the coordinator -/

namespace GrpcPartitionRpc

/-- The encoder of keys on the executor's side. -/
def propertyKeyToProto : PropertyKey → ProtoValue
  | .int64 v => ⟨some (.int64Value v)⟩
  | .bool v => ⟨some (.boolValue v)⟩
  | .string v => ⟨some (.stringValue v)⟩
  | .timestamp v => ⟨some (.timestampValue v)⟩

/-- The encoder of literals on the executor's side. -/
def literalToProto : Literal → ProtoValue
  | .int64 v => ⟨some (.int64Value v)⟩
  | .float64 v => ⟨some (.float64Value v)⟩
  | .bool v => ⟨some (.boolValue v)⟩
  | .string v => ⟨some (.stringValue v)⟩

/-- The encoder of comparisons. -/
def comparisonOpToProto : ComparisonOp → ProtoComparisonOp
  | .eq => .eq
  | .ne => .ne
  | .lt => .lt
  | .lte => .lte
  | .gt => .gt
  | .gte => .gte

/-- The encoder of filters. -/
def propertyFilterToProto (filter : PropertyFilter) : ProtoPropertyFilter :=
  { property := filter.property
    op := (comparisonOpToProto filter.op).code
    value := some (literalToProto filter.value) }

/-- The encoder of bindings on the executor's side. -/
def bindingToProto (binding : Binding) : ProtoBinding :=
  { nodeIdsByAlias := binding.nodes.map fun _ id => id.val
    edgeIdsByAlias := binding.edges.map fun _ id => id.val }

/-- The decoder of bindings on the executor's side. -/
def protoBindingToBinding (proto : ProtoBinding) : Binding :=
  { nodes := proto.nodeIdsByAlias.map fun _ id => ⟨id⟩
    edges := proto.edgeIdsByAlias.map fun _ id => ⟨id⟩ }

/-- The value of a record as it comes back, nothing if the `oneof` is unset. -/
def protoValueToPropertyValue (value : ProtoValue) : Option PropertyValue :=
  match value.kind with
  | some (.int64Value v) => some (.int64 v)
  | some (.float64Value v) => some (.float64 v)
  | some (.boolValue v) => some (.bool v)
  | some (.stringValue v) => some (.string v)
  | some (.timestampValue v) => some (.timestamp v)
  | some (.bytesValue v) => some (.bytes v)
  | none => none

/-- The decoder of a node's record: values that are unset are left out. -/
def protoNodePropertiesToRecord (proto : NodeProperties) : NodeRecord :=
  { label := ⟨proto.label⟩
    properties := proto.fields.filterMap fun _ value => protoValueToPropertyValue value }

/-- The decoder of an edge's record. -/
def protoEdgePropertiesToRecord (proto : EdgeProperties) : EdgeRecord :=
  { edgeType := ⟨proto.edgeType⟩
    properties := proto.fields.filterMap fun _ value => protoValueToPropertyValue value }

/-! #### Calls -/

variable (transport : Transport)

/-- The service that listens at a replica's address. -/
def service (replica : ReplicaEndpoint) : PartitionServiceImpl := ⟨replica.handle⟩

/-- The request of a start resolution. -/
def resolveStartRequest (step : ResolveStart) : ResolveStartRequest :=
  { aliasName := step.aliasName
    labelOrType := step.labelOrType
    property := step.property
    key := some (propertyKeyToProto step.key) }

/-- `ResolveStart` as the executor calls it. -/
def resolveStart (replica : ReplicaEndpoint) (step : PlanStep) : Exec (List Binding) :=
  match step with
  | .resolveStart step => do
      transport.client replica
      let request := resolveStartRequest step
      transport.send (.resolveStart request)
      let stream ← transport.handle ((service replica).resolveStart request)
      let bindings ← transport.collect stream
      pure (bindings.map protoBindingToBinding)
  | _ => raise (.rpc "resolve_start called with a non-ResolveStart step")

/-- `ResolveAll` as the executor calls it. -/
def resolveAll (replica : ReplicaEndpoint) (step : PlanStep) : Exec (List Binding) :=
  match step with
  | .resolveAll step => do
      transport.client replica
      let request : ResolveAllRequest :=
        { aliasName := step.aliasName, label := step.label }
      transport.send (.resolveAll request)
      let stream ← transport.handle ((service replica).resolveAll request)
      let bindings ← transport.collect stream
      pure (bindings.map protoBindingToBinding)
  | _ => raise (.rpc "resolve_all called with a non-ResolveAll step")

/-- The request of a hop. -/
def expandHopRequest (step : ExpandHop) (frontier : List Binding) : ExpandHopRequest :=
  { frontier := frontier.map bindingToProto
    fromAlias := step.fromAlias
    toAlias := step.toAlias
    toLabel := step.toLabel.getD ""
    edgeType := step.edgeType.getD ""
    incoming := decide (step.direction = .incoming)
    hopMin := step.hops.min
    hopMax := step.hops.max
    filters := step.filters.map propertyFilterToProto
    edgeAlias := step.edgeAlias.getD "" }

/-- `ExpandHop` as the executor calls it: all bindings of the reply count as
local ones. -/
def expandHop (replica : ReplicaEndpoint) (planStep : PlanStep)
    (frontier : List Binding) : Exec Frontier :=
  match planStep with
  | .expandHop step => do
      transport.client replica
      let request := expandHopRequest step frontier
      transport.send (.expandHop request)
      let stream ← transport.handle ((service replica).expandHop request)
      let bindings ← transport.collect stream
      pure { localBindings := bindings.map protoBindingToBinding, remote := [] }
  | _ => raise (.rpc "expand_hop called with a non-ExpandHop step")

/-- The request of an anti-join check. -/
def checkAntiJoinRequest (step : AntiJoinStep) (conditions : List PropertyFilter)
    (frontier : List Binding) : CheckAntiJoinRequest :=
  { frontier := frontier.map bindingToProto
    fromAlias := step.fromAlias
    toAlias := step.toAlias
    edgeAlias := step.edgeAlias.getD ""
    edgeType := step.edgeType.getD ""
    incoming := decide (step.direction = .incoming)
    conditions := conditions.map propertyFilterToProto }

/-- `CheckAntiJoin` as the executor calls it. -/
def checkAntiJoin [Chrono] (replica : ReplicaEndpoint) (step : AntiJoinStep)
    (conditions : List PropertyFilter) (frontier : List Binding) :
    Exec (List Binding) := do
  transport.client replica
  let request := checkAntiJoinRequest step conditions frontier
  transport.send (.checkAntiJoin request)
  let response ← transport.handle ((service replica).checkAntiJoin request)
  transport.send (.antiJoinChecked response)
  pure (response.survivingIndices.filterMap fun i => frontier[i]?)

/-- `GetNodeProperties` as the executor calls it. -/
def getNodeProperties (replica : ReplicaEndpoint) (ids : List NodeId) :
    Exec (ExtTreeMap NodeId NodeRecord compare) := do
  transport.client replica
  let request : GetNodePropertiesRequest := { nodeIds := ids.map NodeId.val }
  transport.send (.getNodeProperties request)
  let response ← transport.handle ((service replica).getNodeProperties request)
  transport.send (.nodeProperties response)
  pure (collectMap (response.properties.toList.map fun entry =>
    (⟨entry.1⟩, protoNodePropertiesToRecord entry.2)))

/-- `GetEdgeProperties` as the executor calls it. -/
def getEdgeProperties (replica : ReplicaEndpoint) (ids : List EdgeId) :
    Exec (ExtTreeMap EdgeId EdgeRecord compare) := do
  transport.client replica
  let request : GetEdgePropertiesRequest := { edgeIds := ids.map EdgeId.val }
  transport.send (.getEdgeProperties request)
  let response ← transport.handle ((service replica).getEdgeProperties request)
  transport.send (.edgeProperties response)
  pure (collectMap (response.properties.toList.map fun entry =>
    (⟨entry.1⟩, protoEdgePropertiesToRecord entry.2)))

end GrpcPartitionRpc

/-- The calls over a transport. -/
def grpcPartitionRpc [Chrono] (transport : Transport) : PartitionRpc where
  resolveStart := GrpcPartitionRpc.resolveStart transport
  resolveAll := GrpcPartitionRpc.resolveAll transport
  expandHop := GrpcPartitionRpc.expandHop transport
  getNodeProperties := GrpcPartitionRpc.getNodeProperties transport
  getEdgeProperties := GrpcPartitionRpc.getEdgeProperties transport
  checkAntiJoin := GrpcPartitionRpc.checkAntiJoin transport

end GraphEngine
