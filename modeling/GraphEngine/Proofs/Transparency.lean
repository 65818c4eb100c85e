/-
Module: GraphEngine.Proofs.Transparency
Layer: Proofs
Purpose: The gRPC transport is transparent: a plan run over it ends as the same
  plan run in process does, unless the framework fails to complete a call, and
  then it ends with that call's error.
Trusted boundary: `Transport.Framed` is the limit that the length prefix of a
  message sets
Main exports: grpcPartitionRpc_follows, execute_transparent
-/
import GraphEngine.Proofs.GroupedAntiJoin
import GraphEngine.Proofs.WireCodec

namespace GraphEngine

open Std (ExtTreeMap)

/-! ### Calls that the framework does not complete -/

namespace Transport

variable (transport : Transport)

/-- The fault of a call to a replica that cannot be reached, or of one whose
request or reply is not delivered. -/
inductive Lost : Fault → Prop where
  | unconnected {replica : ReplicaEndpoint} {reason : String}
      (refused : transport.connect replica = .error reason) : Lost (.error (.rpc reason))
  | undelivered {message : Message} {reason : String}
      (dropped : transport.deliver message = .error reason) : Lost (.error (.rpc reason))

/-- A message's length prefix has four bytes and an entry of a frontier takes
two at least, so the positions in a delivered frontier have 32 bits. -/
def Framed : Prop :=
  ∀ request, transport.deliver (.checkAntiJoin request) = .ok () →
    request.frontier.length ≤ 2 ^ 32

variable {transport} {α β γ : Type} {R : α → β → Prop} {prog : Exec β}

/-- A connection that fails is lost, and one that succeeds makes no difference. -/
theorem client_bind (replica : ReplicaEndpoint) {body : Unit → Exec α}
    (rest : Client.Similar transport.Lost R (body ()) prog) :
    Client.Similar transport.Lost R (transport.client replica >>= body) prog := by
  rw [client]
  cases connected : transport.connect replica with
  | ok _ => exact rest
  | error reason => exact .lost (.unconnected connected)

/-- A request that does not arrive is lost, and one that does makes no
difference. -/
theorem send_bind (message : Message) {body : Unit → Exec α}
    (rest : transport.deliver message = .ok () →
      Client.Similar transport.Lost R (body ()) prog) :
    Client.Similar transport.Lost R (transport.send message >>= body) prog := by
  rw [send]
  cases delivered : transport.deliver message with
  | ok _ => exact rest delivered
  | error reason => exact .lost (.undelivered delivered)

/-- Either some item of a stream is lost, or the stream arrives. -/
theorem collect_bind (stream : List ProtoBinding) {body : List ProtoBinding → Exec α}
    (rest : Client.Similar transport.Lost R (body stream) prog) :
    Client.Similar transport.Lost R (transport.collect stream >>= body) prog := by
  rw [collect]
  induction stream generalizing body with
  | nil => exact rest
  | cons item stream inductionHypothesis =>
      rw [Client.collect, bind_assoc, bind_assoc]
      apply send_bind
      intro _
      rw [Client.pure_bind, bind_assoc]
      apply inductionHypothesis
      exact rest

/-- The service's answer to a delivered request is the local executor's,
encoded. -/
theorem handle_bind {localProg : Exec γ} {α' : Type} {encode : γ → α'}
    {body : α' → Exec α} {Q : γ → β → Prop}
    (answered : Client.Similar (fun _ => False) Q localProg prog)
    (decoded : ∀ c b, Q c b →
      Client.Similar transport.Lost R (body (encode c)) (pure b)) :
    Client.Similar transport.Lost R
      (transport.handle (localProg.mapError HandlerFault.ofFault >>= fun c =>
          pure (encode c)) >>= body)
      prog := by
  rw [handle, Client.mapError_bind, Client.mapError_mapError, bind_assoc]
  apply (answered.mapErrorLeft _).bindLeft
  intro c b related
  exact decoded c b related

end Transport

/-! ### Handlers -/

theorem Handler.decoded_ok {α : Type} (a : α) :
    Handler.decoded (.ok a) = (pure a : Handler α) := rfl

namespace GrpcPartitionRpc

variable (replica : ReplicaEndpoint)

/-- The handler of a lookup, asked by the executor, calls the local executor
with the step as it was. -/
theorem resolveStart_handler (step : ResolveStart) :
    (service replica).resolveStart (resolveStartRequest step) =
      (SimpleLocalExecutor.resolveStart replica.handle (.resolveStart step)).mapError
        HandlerFault.ofFault >>= fun bindings =>
          pure (PartitionServiceImpl.bindingsToStream bindings) := by
  simp only [PartitionServiceImpl.resolveStart, resolveStartRequest,
    decode_encode_key, Handler.decoded_ok, Client.pure_bind]
  rfl

/-- The handler of a hop calls the local executor with the step as it was. -/
theorem expandHop_handler {step : ExpandHop} (present : step.TextsPresent)
    (frontier : List Binding) :
    (service replica).expandHop (expandHopRequest step frontier) =
      (SimpleLocalExecutor.expandHop replica.handle (.expandHop step) frontier).mapError
        HandlerFault.ofFault >>= fun found =>
          pure (PartitionServiceImpl.bindingsToStream found.all) := by
  simp only [PartitionServiceImpl.expandHop, expandHopRequest, accepted_frontier,
    decode_encode_filters, Handler.decoded_ok, Client.pure_bind,
    nonEmptyText_getD present.1, nonEmptyText_getD present.2.1,
    nonEmptyText_getD present.2.2, direction_flag]
  rfl

/-- The handler of an anti-join check calls the local executor with the step and
the conditions as they were. -/
theorem checkAntiJoin_handler [Chrono] {step : AntiJoinStep}
    (present : step.TextsPresent) (conditions : List PropertyFilter)
    (frontier : List Binding) :
    (service replica).checkAntiJoin (checkAntiJoinRequest step conditions frontier) =
      (SimpleLocalExecutor.checkAntiJoin replica.handle step conditions frontier).mapError
        HandlerFault.ofFault >>= fun survivors =>
          pure { survivingIndices := PartitionServiceImpl.survivingIndices frontier
                   survivors } := by
  simp only [PartitionServiceImpl.checkAntiJoin, checkAntiJoinRequest,
    accepted_frontier, decode_encode_filters, Handler.decoded_ok, Client.pure_bind,
    nonEmptyText_getD present.1, nonEmptyText_getD present.2, direction_flag]
  rfl

/-! ### Calls -/

variable {transport : Transport}

/-- A lookup over the network gives what one in process gives, or is lost. -/
theorem resolveStart_similar (step : PlanStep) :
    Client.Similar transport.Lost (· = ·) (resolveStart transport replica step)
      (SimpleLocalExecutor.resolveStart replica.handle step) := by
  cases step with
  | resolveStart step =>
      rw [resolveStart]
      apply Transport.client_bind
      apply Transport.send_bind
      intro _
      rw [resolveStart_handler]
      apply Transport.handle_bind (Client.Similar.refl _)
      intro bindings _ same
      cases same
      apply Transport.collect_bind
      exact .pure (received_stream bindings)
  | resolveAll step => exact .fail _ _
  | expandHop step => exact .fail _ _
  | antiJoin step => exact .fail _ _

/-- A scan over the network gives what one in process gives, or is lost. -/
theorem resolveAll_similar (step : PlanStep) :
    Client.Similar transport.Lost (· = ·) (resolveAll transport replica step)
      (SimpleLocalExecutor.resolveAll replica.handle step) := by
  cases step with
  | resolveAll step =>
      rw [resolveAll]
      apply Transport.client_bind
      apply Transport.send_bind
      intro _
      rw [PartitionServiceImpl.resolveAll]
      apply Transport.handle_bind (Client.Similar.refl _)
      intro bindings _ same
      cases same
      apply Transport.collect_bind
      exact .pure (received_stream bindings)
  | resolveStart step => exact .fail _ _
  | expandHop step => exact .fail _ _
  | antiJoin step => exact .fail _ _

/-- What continues elsewhere arrives behind what is finished, and the loop joins
the two in that order. -/
theorem expandHop_similar {step : ExpandHop} (present : step.TextsPresent)
    (frontier : List Binding) :
    Client.Similar transport.Lost (fun found found' => found.all = found'.all)
      (expandHop transport replica (.expandHop step) frontier)
      (SimpleLocalExecutor.expandHop replica.handle (.expandHop step) frontier) := by
  rw [expandHop]
  apply Transport.client_bind
  apply Transport.send_bind
  intro _
  rw [expandHop_handler replica present]
  apply Transport.handle_bind (Client.Similar.refl _)
  intro found _ same
  cases same
  apply Transport.collect_bind
  apply Client.Similar.pure
  rw [Frontier.all, received_stream, List.map_nil, List.append_nil]

/-! ### Hydrated records -/

/-- A node's record as the coordinator receives it. -/
def receivedNode (record : NodeRecord) : NodeRecord :=
  protoNodePropertiesToRecord (PartitionServiceImpl.nodeRecordToProto record)

/-- An edge's record as the coordinator receives it. -/
def receivedEdge (record : EdgeRecord) : EdgeRecord :=
  protoEdgePropertiesToRecord (PartitionServiceImpl.edgeRecordToProto record)

/-- Records of nodes over the network are those in process up to what cannot be
sent, or are lost. -/
theorem getNodeProperties_similar [Chrono] {R : NodeRecord → NodeRecord → Prop}
    (decoded : ∀ record, R (receivedNode record) record) (ids : List NodeId) :
    Client.Similar transport.Lost (MapsAgree R) (getNodeProperties transport replica ids)
      (inProcessRpc.getNodeProperties replica ids) := by
  rw [getNodeProperties]
  apply Transport.client_bind
  apply Transport.send_bind
  intro _
  have answered : Client.Similar (fun _ => False)
      (fun (generation : IndexGeneration) found =>
        found = recordsOf generation.nodeRecords ids)
      replica.handle.acquire (inProcessRpc.getNodeProperties replica ids) :=
    .read fun generation => .done (.ok rfl)
  apply Transport.handle_bind answered
  intro generation found same
  cases same
  apply Transport.send_bind
  intro _
  apply Client.Similar.pure
  apply mapsAgree_decodedReply NodeId.val NodeId.mk (fun _ => rfl) (fun _ => rfl)
  exact decoded

/-- Records of edges over the network are those in process up to what cannot be
sent, or are lost. -/
theorem getEdgeProperties_similar [Chrono] {R : EdgeRecord → EdgeRecord → Prop}
    (decoded : ∀ record, R (receivedEdge record) record) (ids : List EdgeId) :
    Client.Similar transport.Lost (MapsAgree R) (getEdgeProperties transport replica ids)
      (inProcessRpc.getEdgeProperties replica ids) := by
  rw [getEdgeProperties]
  apply Transport.client_bind
  apply Transport.send_bind
  intro _
  have answered : Client.Similar (fun _ => False)
      (fun (generation : IndexGeneration) found =>
        found = recordsOf generation.edgeRecords ids)
      replica.handle.acquire (inProcessRpc.getEdgeProperties replica ids) :=
    .read fun generation => .done (.ok rfl)
  apply Transport.handle_bind answered
  intro generation found same
  cases same
  apply Transport.send_bind
  intro _
  apply Client.Similar.pure
  apply mapsAgree_decodedReply EdgeId.val EdgeId.mk (fun _ => rfl) (fun _ => rfl)
  exact decoded

/-! ### Anti-joins -/

/-- An anti-join check over the network gives what one in process gives, or is
lost. -/
theorem checkAntiJoin_similar [Chrono] (framed : transport.Framed)
    {step : AntiJoinStep} (present : step.TextsPresent)
    (conditions : List PropertyFilter) (frontier : List Binding) :
    Client.Similar transport.Lost (· = ·)
      (checkAntiJoin transport replica step conditions frontier)
      (inProcessRpc.checkAntiJoin replica step conditions frontier) := by
  rw [checkAntiJoin]
  apply Transport.client_bind
  apply Transport.send_bind
  intro delivered
  have fits := framed _ delivered
  rw [checkAntiJoinRequest, List.length_map] at fits
  rw [checkAntiJoin_handler replica present]
  have answered : Client.Similar (fun _ => False)
      (fun survivors survivors' => survivors = survivors' ∧
        ∃ keep, survivors = frontier.filter keep)
      (SimpleLocalExecutor.checkAntiJoin replica.handle step conditions frontier)
      (inProcessRpc.checkAntiJoin replica step conditions frontier) := by
    apply Client.Similar.bindSame replica.handle.acquire
    intro generation
    by_cases unanchored : ∃ b ∈ frontier, ¬ Anchored step b
    · rcases collect_checkBinding_unanchored generation step conditions unanchored
        with ⟨fault, fails⟩
      rw [fails]
      exact .fail fault fault
    · have anchored : ∀ b ∈ frontier, Anchored step b := fun b member =>
        not_not.mp fun lacking => unanchored ⟨b, member, lacking⟩
      rw [collect_checkBinding_anchored generation step conditions anchored]
      exact .pure ⟨rfl, _, rfl⟩
  apply Transport.handle_bind answered
  intro survivors survivors' related
  obtain ⟨same, keep, kept⟩ := related
  cases same
  apply Transport.send_bind
  intro _
  apply Client.Similar.pure
  rw [kept]
  exact filterMap_survivingIndices fits keep

end GrpcPartitionRpc

/-! ### The transport as a whole -/

section Transparency

variable [Chrono] {transport : Transport}

/-- Every call over the transport that the framework completes is answered as in
process. -/
theorem grpcPartitionRpc_follows (framed : transport.Framed) :
    (grpcPartitionRpc transport).Follows transport.Lost inProcessRpc where
  resolveStart replica step := GrpcPartitionRpc.resolveStart_similar replica step
  resolveAll replica step := GrpcPartitionRpc.resolveAll_similar replica step
  expandHop replica _ present frontier :=
    GrpcPartitionRpc.expandHop_similar replica present frontier
  getNodeProperties replica ids := by
    apply GrpcPartitionRpc.getNodeProperties_similar
    intro record
    exact sameReadings_onWire (getElem?_decodedFields record.properties)
  getEdgeProperties replica ids := by
    apply GrpcPartitionRpc.getEdgeProperties_similar
    intro record
    exact sameReadings_onWire (getElem?_decodedFields record.properties)
  checkAntiJoin replica _ present conditions frontier :=
    GrpcPartitionRpc.checkAntiJoin_similar replica framed present conditions frontier

/-- The coordinator whose calls go over a transport. -/
abbrev overGrpc (transport : Transport) (hasher : Partitioning) : ScatterGatherExecutor :=
  ⟨grpcPartitionRpc transport, hasher⟩

/-- The gRPC transport is transparent: whatever generations the replicas serve
and whatever orders the maps are enumerated in, a plan over it gives the same
bindings in the same order as in process, or fails as it does, unless the
framework leaves a call unfinished.

* `framed`: a request that is delivered has a frontier of at most `2 ^ 32`
  bindings, since the length prefix of a message has four bytes;
* `present`: an optional text of the plan is not the empty text, which the wire
  format uses for one that is left out.  Plans of parsed queries are so, an
  identifier having a character. -/
theorem execute_transparent (framed : transport.Framed) (hasher : Partitioning)
    (partitions : PartitionMap) {plan : QueryPlan} (present : plan.TextsPresent)
    (serve : Nat → GenerationHandle → IndexGeneration)
    (order : Nat → (size : Nat) → Equiv.Perm (Fin size)) (time : Nat) :
    (∃ fault, ((overGrpc transport hasher).execute partitions plan).run serve order
      time = .error fault ∧
        transport.Lost fault) ∨
      Client.SameClass (· = ·)
        (((overGrpc transport hasher).execute partitions plan).run serve order time)
        (((inProcess hasher).execute partitions plan).run serve order time) :=
  ((grpcPartitionRpc_follows framed).execute hasher partitions present).sameClass_run
    serve order time

end Transparency

/-! ### A transport that carries what fits -/

/-- Every replica can be reached; an anti-join request is refused when it
exceeds the length prefix. -/
def lanTransport : Transport where
  connect _ := .ok ()
  deliver
    | .checkAntiJoin request =>
        if request.frontier.length ≤ 2 ^ 32 then .ok ()
          else .error "message length too large"
    | _ => .ok ()
  statusText status := status.message
  panicText message := message

theorem framed_lanTransport : lanTransport.Framed := by
  intro request delivered
  by_cases fits : request.frontier.length ≤ 2 ^ 32
  · exact fits
  · simp only [lanTransport, if_neg fits] at delivered
    cases delivered

section

open scoped Social

/-- The example query without the pairs whose first person introduced them. -/
def introductionsPlan : QueryPlan :=
  { Social.acquaintancesPlan with
      steps := Social.acquaintancesPlan.steps ++ [.antiJoin introducedBySelf] }

theorem introductions_textsPresent : introductionsPlan.TextsPresent := by
  intro step member
  simp only [introductionsPlan, Social.acquaintancesPlan, List.mem_append, List.mem_cons,
    List.not_mem_nil, or_false] at member
  rcases member with (rfl | rfl) | rfl
  · trivial
  · exact ⟨by decide, by decide, by decide⟩
  · exact ⟨by decide, by decide⟩

/-- The answer over the network, hydration and anti-join included, is the one in
process. -/
theorem introductions_transparent :
    ((overGrpc lanTransport Social.byParity).execute
      (deployment Social.byParity) introductionsPlan).run
      (fun _ => Social.dataset.deployed Social.byParity) Social.inOrder 0 =
        .ok [Social.pair 2 4] ∧
    ((∃ fault,
        ((overGrpc lanTransport Social.byParity).execute (deployment Social.byParity)
        introductionsPlan).run
          (fun _ => Social.dataset.deployed Social.byParity) Social.inOrder 0 =
          .error fault ∧ lanTransport.Lost fault) ∨
      Client.SameClass (· = ·)
        (((overGrpc lanTransport Social.byParity).execute (deployment Social.byParity)
          introductionsPlan).run
            (fun _ => Social.dataset.deployed Social.byParity) Social.inOrder 0)
        (((inProcess Social.byParity).execute
            (deployment Social.byParity) introductionsPlan).run
          (fun _ => Social.dataset.deployed Social.byParity) Social.inOrder 0)) :=
  ⟨by decide +kernel,
    execute_transparent framed_lanTransport Social.byParity (deployment Social.byParity)
      introductions_textsPresent
        (fun _ => Social.dataset.deployed Social.byParity) Social.inOrder 0⟩

end

end GraphEngine
