/-
Module: GraphEngine.Proofs.QueryReads
Layer: Proofs
Purpose: What a query reads of the cluster.  Every call reads the generation of
  its replica once, and of it nothing but the graph; so a query costs a number
  of calls that the plan and the partitions bound whatever the data, and a
  rebuild that leaves the graph as it was makes no difference to it.
Trusted boundary: none
Main exports: SameGraph, PartitionRpc.OneRead, inProcess_oneRead, grpc_oneRead,
  executeQuery_reads, executeQuery_readCount_le
-/
import GraphEngine.Lib.ClientReads
import GraphEngine.Model.QueryService
import GraphEngine.Proofs.Homogeneity
import GraphEngine.Proofs.PlannerTotality
import GraphEngine.Proofs.Transparency
import GraphEngine.Spec.SameService
import Mathlib.Algebra.BigOperators.Ring.Finset

namespace GraphEngine

open Std (ExtTreeMap ExtTreeSet)
open Client (ReadsWithin)
open ScatterGatherExecutor (roundStep)

/-! ### What a call reads -/

/-- Two generations that differ in their metadata alone. -/
def SameGraph (generation generation' : IndexGeneration) : Prop :=
  ∃ genMeta, generation' = { generation with genMeta := genMeta }

/-- The handle of the replica that some partition's calls go to. -/
def Picked (partitions : PartitionMap) (handle : GenerationHandle) : Prop :=
  ∃ partition replica, pickReplica partitions partition = some replica ∧
    replica.handle = handle

/-- Every call to a replica whose handle is in `C` reads once, blind to the
difference between generations that `E` relates. -/
structure PartitionRpc.OneRead (C : GenerationHandle → Prop)
    (E : IndexGeneration → IndexGeneration → Prop) (rpc : PartitionRpc) : Prop where
  resolveStart : ∀ replica : ReplicaEndpoint, C replica.handle → ∀ step,
    ReadsWithin C E (rpc.resolveStart replica step) 1
  resolveAll : ∀ replica : ReplicaEndpoint, C replica.handle → ∀ step,
    ReadsWithin C E (rpc.resolveAll replica step) 1
  expandHop : ∀ replica : ReplicaEndpoint, C replica.handle → ∀ step frontier,
    ReadsWithin C E (rpc.expandHop replica step frontier) 1
  getNodeProperties : ∀ replica : ReplicaEndpoint, C replica.handle → ∀ ids,
    ReadsWithin C E (rpc.getNodeProperties replica ids) 1
  getEdgeProperties : ∀ replica : ReplicaEndpoint, C replica.handle → ∀ ids,
    ReadsWithin C E (rpc.getEdgeProperties replica ids) 1
  checkAntiJoin : ∀ replica : ReplicaEndpoint, C replica.handle →
    ∀ step conditions frontier,
    ReadsWithin C E (rpc.checkAntiJoin replica step conditions frontier) 1

/-! ### Local execution -/

section Local

variable {C : GenerationHandle → Prop} {handle : GenerationHandle} (allowed : C handle)

section Congruence

variable {generation generation' : IndexGeneration}
variable (same : SameService generation generation')

include same

theorem visitNodes_congr (step : ExpandHop) (binding : Binding)
    (state : SimpleLocalExecutor.HopState) (nodes : List NodeId) :
    SimpleLocalExecutor.visitNodes generation step binding state nodes =
      SimpleLocalExecutor.visitNodes generation' step binding state nodes := by
  simp only [SimpleLocalExecutor.visitNodes, same.neighbors_eq]

/-- Exploration looks at the adjacency alone. -/
theorem expandDepths_congr (step : ExpandHop) (binding : Binding)
    (remaining depth : Nat) (current : ExtTreeSet NodeId compare)
    (state : SimpleLocalExecutor.HopState) :
    SimpleLocalExecutor.expandDepths generation step binding remaining depth
      current state =
      SimpleLocalExecutor.expandDepths generation' step binding remaining depth
        current state := by
  induction remaining generalizing depth current state with
  | zero => rfl
  | succ remaining inductionHypothesis =>
      rw [SimpleLocalExecutor.expandDepths, SimpleLocalExecutor.expandDepths]
      have explore : SimpleLocalExecutor.exploreDepth generation step binding depth
          current state =
          SimpleLocalExecutor.exploreDepth generation' step binding depth
            current state := by
        simp only [SimpleLocalExecutor.exploreDepth, visitNodes_congr same]
      rw [explore]
      apply bind_congr
      intro explored
      rw [inductionHypothesis]

theorem expandFrontier_congr (step : ExpandHop) (frontier : List Binding) :
    SimpleLocalExecutor.expandFrontier generation step frontier =
      SimpleLocalExecutor.expandFrontier generation' step frontier := by
  have each (binding : Binding) :
      SimpleLocalExecutor.expandBinding generation step binding =
      SimpleLocalExecutor.expandBinding generation' step binding := by
    simp only [SimpleLocalExecutor.expandBinding, expandDepths_congr same]
  simp only [SimpleLocalExecutor.expandFrontier, each]

/-- The nodes enumerated and their labels. -/
theorem labels_congr :
    (generation.nodeRecords.toList.map fun entry => (entry.1, entry.2.label)) =
    generation'.nodeRecords.toList.map fun entry => (entry.1, entry.2.label) := by
  have labels : (generation.nodeRecords.map fun _ record => record.label) =
      generation'.nodeRecords.map fun _ record => record.label := by
    apply Std.ExtTreeMap.ext_getElem?
    intro v
    rw [Std.ExtTreeMap.getElem?_map, Std.ExtTreeMap.getElem?_map]
    exact same.label_eq v
  have lists := congrArg Std.ExtTreeMap.toList labels
  rwa [Std.ExtTreeMap.toList_map, Std.ExtTreeMap.toList_map] at lists

/-- The program that enumerates the nodes of a label. -/
theorem labelled_congr {α : Type} (body : List (NodeId × Label) → Exec α) :
    (Client.unordered generation.nodeRecords.toList >>= fun met =>
      body (met.map fun entry => (entry.1, entry.2.label))) =
      Client.unordered generation'.nodeRecords.toList >>= fun met =>
        body (met.map fun entry => (entry.1, entry.2.label)) := by
  rw [Client.unordered_map_bind, Client.unordered_map_bind, labels_congr same]

/-- A candidate edge is looked for in the adjacency, and its record filtered. -/
theorem candidate_congr [Chrono] (step : AntiJoinStep) (conditions : List PropertyFilter)
    (u v : NodeId) : SimpleLocalExecutor.candidateExists generation step conditions u v =
      SimpleLocalExecutor.candidateExists generation' step conditions u v := by
  rw [SimpleLocalExecutor.candidateExists, SimpleLocalExecutor.candidateExists,
    same.neighbors_eq]
  congr 1
  funext entry
  congr 1
  have decided := same.filtered_eq entry.edgeId conditions
  cases found : generation.edgeRecords[entry.edgeId]? with
  | none =>
      rw [found, Option.map_none, eq_comm, Option.map_eq_none_iff] at decided
      rw [decided]
  | some record =>
      rw [found, Option.map_some, eq_comm, Option.map_eq_some_iff] at decided
      obtain ⟨record', found', alike⟩ := decided
      rw [found']
      exact alike.symm

end Congruence

/-- Once the generation is there, exploration reads nothing more. -/
theorem expandDepths_reads (generation : IndexGeneration) (step : ExpandHop)
    (binding : Binding) (remaining depth : Nat)
    (current : ExtTreeSet NodeId compare) (state : SimpleLocalExecutor.HopState) :
    ReadsWithin C SameService
      (SimpleLocalExecutor.expandDepths generation step binding remaining depth
        current state) 0 := by
  induction remaining generalizing depth current state with
  | zero => exact .pure _ _
  | succ remaining inductionHypothesis =>
      rw [SimpleLocalExecutor.expandDepths, ← add_zero 0]
      apply ReadsWithin.andThen
      · rw [SimpleLocalExecutor.exploreDepth]
        apply ReadsWithin.afterUnordered
        intro nodes _
        split
        · apply ReadsWithin.afterUnordered
          intro targets _
          exact .pure _ _
        · exact .pure _ _
      · intro explored
        split
        · exact .pure _ _
        · exact inductionHypothesis _ _ _

theorem expandFrontier_reads (generation : IndexGeneration) (step : ExpandHop)
    (frontier : List Binding) :
    ReadsWithin C SameService
      (SimpleLocalExecutor.expandFrontier generation step frontier) 0 := by
  apply ReadsWithin.foldlM_silent
  intro acc binding
  rw [← add_zero 0]
  apply ReadsWithin.andThen
  · rw [SimpleLocalExecutor.expandBinding]
    split
    · exact .fail _ _
    · rw [← add_zero 0]
      apply (expandDepths_reads generation step binding _ _ _ _).andThen
      intro state
      exact .pure _ _
  · intro found
    exact .pure _ _

include allowed

theorem resolveStart_reads (step : PlanStep) :
    ReadsWithin C SameService (SimpleLocalExecutor.resolveStart handle step) 1 := by
  cases step with
  | resolveStart step =>
      apply ReadsWithin.acquireThen allowed
      · intro generation generation' same
        rw [same.properties]
      · exact fun _ => .pure _ _
  | resolveAll step => exact .fail _ _
  | expandHop step => exact .fail _ _
  | antiJoin step => exact .fail _ _

theorem resolveAll_reads (step : PlanStep) :
    ReadsWithin C SameService (SimpleLocalExecutor.resolveAll handle step) 1 := by
  cases step with
  | resolveAll step =>
      apply ReadsWithin.acquireThen allowed
      · intro generation generation' same
        have named (met : List (NodeId × NodeRecord)) :
            (met.filter fun entry => entry.2.label.name = step.label).map
                (fun entry => Binding.fromNode step.aliasName entry.1) =
              ((met.map fun entry => (entry.1, entry.2.label)).filter fun entry =>
                entry.2.name = step.label).map
                fun entry => Binding.fromNode step.aliasName entry.1 := by
          rw [List.filter_map, List.map_map]
          rfl
        simp only [named]
        exact labelled_congr same fun met =>
          pure ((met.filter fun entry => entry.2.name = step.label).map fun entry =>
            Binding.fromNode step.aliasName entry.1)
      · intro generation
        apply ReadsWithin.afterUnordered
        intro records _
        exact .pure _ _
  | resolveStart step => exact .fail _ _
  | expandHop step => exact .fail _ _
  | antiJoin step => exact .fail _ _

theorem expandHop_reads (step : PlanStep) (frontier : List Binding) :
    ReadsWithin C SameService (SimpleLocalExecutor.expandHop handle step frontier) 1 := by
  cases step with
  | expandHop step =>
      apply ReadsWithin.acquireThen allowed
      · intro generation generation' same
        rw [expandFrontier_congr same, same.properties]
      · intro generation
        rw [← add_zero 0]
        apply (expandFrontier_reads generation step frontier).andThen
        intro found
        apply ReadsWithin.afterPure
        intro filtered _
        exact .pure _ _
  | resolveStart step => exact .fail _ _
  | resolveAll step => exact .fail _ _
  | antiJoin step => exact .fail _ _

theorem checkAntiJoin_reads [Chrono] (step : AntiJoinStep)
    (conditions : List PropertyFilter) (frontier : List Binding) :
    ReadsWithin C SameService
      (SimpleLocalExecutor.checkAntiJoin handle step conditions frontier) 1 := by
  apply ReadsWithin.acquireThen allowed
  · intro generation generation' same
    have each (binding : Binding) :
        SimpleLocalExecutor.checkBinding generation step conditions binding =
        SimpleLocalExecutor.checkBinding generation' step conditions binding := by
      simp only [SimpleLocalExecutor.checkBinding, candidate_congr same]
    rw [funext each]
  · intro generation
    apply ReadsWithin.collect_silent
    intro binding
    rw [SimpleLocalExecutor.checkBinding]
    split
    · exact .fail _ _
    · split
      · exact .fail _ _
      · split
        · exact .pure _ _
        · exact .pure _ _

end Local

/-! ### Calls -/

theorem sameService_of_sameGraph (generation generation' : IndexGeneration)
    (same : SameGraph generation generation') : SameService generation generation' := by
  obtain ⟨genMeta, rfl⟩ := same
  exact .ofMeta generation genMeta

section Calls

variable (C : GenerationHandle → Prop)

theorem inProcess_oneRead [Chrono] : inProcessRpc.OneRead C SameGraph where
  resolveStart _ allowed step :=
    (resolveStart_reads allowed step).weaken sameService_of_sameGraph
  resolveAll _ allowed step :=
    (resolveAll_reads allowed step).weaken sameService_of_sameGraph
  expandHop _ allowed step frontier :=
    (expandHop_reads allowed step frontier).weaken sameService_of_sameGraph
  getNodeProperties _ allowed ids := by
    apply ReadsWithin.acquireThen allowed
    · rintro generation _ ⟨genMeta, rfl⟩
      rfl
    · exact fun _ => .pure _ _
  getEdgeProperties _ allowed ids := by
    apply ReadsWithin.acquireThen allowed
    · rintro generation _ ⟨genMeta, rfl⟩
      rfl
    · exact fun _ => .pure _ _
  checkAntiJoin _ allowed step conditions frontier :=
    (checkAntiJoin_reads allowed step conditions frontier).weaken sameService_of_sameGraph

/-! #### Over the network -/

variable {C} {transport : Transport}

/-- Sending and receiving read nothing. -/
theorem send_reads {α : Type} {message : Message} {body : Unit → Exec α} {n : ℕ∞}
    (rest : ∀ sent, ReadsWithin C SameService (body sent) n) :
    ReadsWithin C SameService (transport.send message >>= body) n :=
  .afterPure fun sent _ => rest sent

theorem client_reads {α : Type} {replica : ReplicaEndpoint} {body : Unit → Exec α}
    {n : ℕ∞} (rest : ∀ connected, ReadsWithin C SameService (body connected) n) :
    ReadsWithin C SameService (transport.client replica >>= body) n :=
  .afterPure fun connected _ => rest connected

/-- A handler whose answer arrives as a stream. -/
theorem stream_reads {handler : Handler (List ProtoBinding)}
    (within : ReadsWithin C SameService handler 1) {α : Type}
    (decode : List ProtoBinding → α) :
    ReadsWithin C SameService (do
      let stream ← transport.handle handler
      let bindings ← transport.collect stream
      pure (decode bindings)) 1 := by
  rw [← add_zero 1]
  apply (within.mapError transport.reported).andThen
  intro stream
  rw [← add_zero 0]
  apply ReadsWithin.andThen
  · apply ReadsWithin.collect_silent
    intro item
    apply send_reads
    intro _
    exact .pure _ _
  · intro bindings
    exact .pure _ _

/-- A handler whose answer is a single message. -/
theorem reply_reads {β : Type} {handler : Handler β}
    (within : ReadsWithin C SameService handler 1) (wrap : β → Message) {α : Type}
    (decode : β → α) :
    ReadsWithin C SameService (do
      let response ← transport.handle handler
      transport.send (wrap response)
      pure (decode response) : Exec α) 1 := by
  rw [← add_zero 1]
  apply (within.mapError transport.reported).andThen
  intro response
  apply send_reads
  intro _
  exact .pure _ _

/-- A local execution whose result is encoded. -/
theorem encoded_reads {β γ : Type} {prog : Exec β}
    (within : ReadsWithin C SameService prog 1) (encode : β → γ) :
    ReadsWithin C SameService (prog.mapError HandlerFault.ofFault >>= fun found =>
      (pure (encode found) : Handler γ)) 1 := by
  rw [← add_zero 1]
  apply (within.mapError HandlerFault.ofFault).andThen
  intro found
  exact .pure _ _

section Rpcs

variable {replica : ReplicaEndpoint} (allowed : C replica.handle)

include allowed

theorem resolveStart_oneRead (step : PlanStep) :
    ReadsWithin C SameService
      (GrpcPartitionRpc.resolveStart transport replica step) 1 := by
  cases step with
  | resolveStart step =>
      apply client_reads
      intro _
      apply send_reads
      intro _
      apply stream_reads
      -- the request's filter is decoded before the generation is read
      apply ReadsWithin.afterPure
      intro value _
      apply ReadsWithin.afterPure
      intro key _
      exact encoded_reads (resolveStart_reads allowed _) _
  | resolveAll step => exact .fail _ _
  | expandHop step => exact .fail _ _
  | antiJoin step => exact .fail _ _

theorem resolveAll_oneRead (step : PlanStep) :
    ReadsWithin C SameService (GrpcPartitionRpc.resolveAll transport replica step) 1 := by
  cases step with
  | resolveAll step =>
      apply client_reads
      intro _
      apply send_reads
      intro _
      apply stream_reads
      exact encoded_reads (resolveAll_reads allowed _) _
  | resolveStart step => exact .fail _ _
  | expandHop step => exact .fail _ _
  | antiJoin step => exact .fail _ _

theorem expandHop_oneRead (step : PlanStep) (frontier : List Binding) :
    ReadsWithin C SameService
      (GrpcPartitionRpc.expandHop transport replica step frontier) 1 := by
  cases step with
  | expandHop step =>
      apply client_reads
      intro _
      apply send_reads
      intro _
      apply stream_reads
      apply ReadsWithin.afterPure
      intro filters _
      exact encoded_reads (expandHop_reads allowed _ _) _
  | resolveStart step => exact .fail _ _
  | resolveAll step => exact .fail _ _
  | antiJoin step => exact .fail _ _

theorem getNodeProperties_oneRead (ids : List NodeId) :
    ReadsWithin C SameService
      (GrpcPartitionRpc.getNodeProperties transport replica ids) 1 := by
  apply client_reads
  intro _
  apply send_reads
  intro _
  apply reply_reads
  apply ReadsWithin.acquireThen allowed
  · intro generation generation' same
    have alike (id : Nat) : (generation.nodeRecords[(⟨id⟩ : NodeId)]?).map
        (fun record => (id, PartitionServiceImpl.nodeRecordToProto record)) =
          (generation'.nodeRecords[(⟨id⟩ : NodeId)]?).map
            fun record => (id, PartitionServiceImpl.nodeRecordToProto record) := by
      have sent := congrArg (Option.map (Prod.mk id)) (same.sentNode_eq ⟨id⟩)
      rwa [Option.map_map, Option.map_map] at sent
    simp only [alike]
  · exact fun _ => .pure _ _

theorem getEdgeProperties_oneRead (ids : List EdgeId) :
    ReadsWithin C SameService
      (GrpcPartitionRpc.getEdgeProperties transport replica ids) 1 := by
  apply client_reads
  intro _
  apply send_reads
  intro _
  apply reply_reads
  apply ReadsWithin.acquireThen allowed
  · intro generation generation' same
    have alike (id : Nat) : (generation.edgeRecords[(⟨id⟩ : EdgeId)]?).map
        (fun record => (id, PartitionServiceImpl.edgeRecordToProto record)) =
          (generation'.edgeRecords[(⟨id⟩ : EdgeId)]?).map
            fun record => (id, PartitionServiceImpl.edgeRecordToProto record) := by
      have sent := congrArg (Option.map (Prod.mk id)) (same.sentEdge_eq ⟨id⟩)
      rwa [Option.map_map, Option.map_map] at sent
    simp only [alike]
  · exact fun _ => .pure _ _

theorem checkAntiJoin_oneRead [Chrono] (step : AntiJoinStep)
    (conditions : List PropertyFilter) (frontier : List Binding) :
    ReadsWithin C SameService
      (GrpcPartitionRpc.checkAntiJoin transport replica step conditions frontier) 1 := by
  apply client_reads
  intro _
  apply send_reads
  intro _
  apply reply_reads
  apply ReadsWithin.afterPure
  intro filters _
  exact encoded_reads (checkAntiJoin_reads allowed _ _ _) _

end Rpcs

theorem grpc_oneRead [Chrono] (transport : Transport) :
    (grpcPartitionRpc transport).OneRead C SameService where
  resolveStart _ allowed step := resolveStart_oneRead allowed step
  resolveAll _ allowed step := resolveAll_oneRead allowed step
  expandHop _ allowed step frontier := expandHop_oneRead allowed step frontier
  getNodeProperties _ allowed ids := getNodeProperties_oneRead allowed ids
  getEdgeProperties _ allowed ids := getEdgeProperties_oneRead allowed ids
  checkAntiJoin _ allowed step conditions frontier :=
    checkAntiJoin_oneRead allowed step conditions frontier

end Calls

/-! ### Groups -/

/-- Grouping by partition makes at most one group for each. -/
theorem groupByKey_length_le {α : Type} {key : α → PartitionId} {l : List α} {n : Nat}
    (bounded : ∀ a ∈ l, (key a).val < n) : (groupByKey key l).toList.length ≤ n := by
  have distinct : ((groupByKey key l).toList.map fun group => group.1.val).Nodup := by
    have keys := keys_nodup_toList (groupByKey key l)
    have injective : Function.Injective PartitionId.val :=
      fun p q same => by cases p; cases q; cases same; rfl
    have numbers := keys.map injective
    rwa [List.map_map] at numbers
  have below :
      ((groupByKey key l).toList.map fun group => group.1.val) ⊆ List.range n := by
    intro p member
    obtain ⟨group, listed, rfl⟩ := List.mem_map.mp member
    obtain ⟨content, nonempty⟩ := mem_toList_groupByKey.mp listed
    obtain ⟨a, inGroup⟩ := List.exists_mem_of_ne_nil _ nonempty
    rw [content, List.mem_filter, decide_eq_true_eq] at inGroup
    rw [List.mem_range, ← inGroup.2]
    exact bounded a inGroup.1
  have fits := (List.subperm_of_subset distinct below).length_le
  rwa [List.length_map, List.length_range] at fits

theorem groupIdsByPartition_length_le (hasher : Partitioning) (ids : List NodeId) :
    (groupIdsByPartition hasher ids).toList.length ≤ hasher.nPartitions :=
  groupByKey_length_le fun _ _ => hasher.partitionOf_lt _

theorem groupByOwningNodePartition_length_le {hasher : Partitioning}
    {frontier : List Binding} {aliasName : String}
    {groups : ExtTreeMap PartitionId (List Binding) compare}
    (grouped : (groupByOwningNodePartition hasher frontier aliasName).mapError
      Fault.error = .ok groups) : groups.toList.length ≤ hasher.nPartitions := by
  by_cases bound : ∀ b ∈ frontier, aliasName ∈ b.nodes
  · rw [groupByOwningNodePartition_ok hasher bound] at grouped
    cases grouped
    apply groupByKey_length_le
    intro b member
    obtain ⟨v, found⟩ := (b.mem_nodes_iff aliasName).mp (bound b member)
    rw [ownerOf_eq found]
    exact hasher.partitionOf_lt v
  · simp only [not_forall] at bound
    obtain ⟨other, inFrontier, unbound⟩ := bound
    rw [groupByOwningNodePartition_error hasher inFrontier unbound] at grouped
    cases grouped

/-! ### The coordinator -/

section Coordinator

variable {partitions : PartitionMap} {rpc : PartitionRpc}
variable {E : IndexGeneration → IndexGeneration → Prop}
variable (oneRead : rpc.OneRead (Picked partitions) E)
variable (hasher : Partitioning)

include oneRead

theorem resolveOn_reads {replica : ReplicaEndpoint}
    (picked : Picked partitions replica.handle) (step : PlanStep) :
    ReadsWithin (Picked partitions) E
      ((⟨rpc, hasher⟩ : ScatterGatherExecutor).resolveOn replica step) 1 := by
  cases step with
  | resolveStart step => exact oneRead.resolveStart replica picked _
  | resolveAll step => exact oneRead.resolveAll replica picked _
  | expandHop step => exact .fail _ _
  | antiJoin step => exact .fail _ _

/-- The start step asks every partition listed once. -/
theorem broadcastResolve_reads (step : PlanStep) :
    ReadsWithin (Picked partitions) E
      ((⟨rpc, hasher⟩ : ScatterGatherExecutor).broadcastResolve partitions step)
      partitions.replicasByPartition.keys.length := by
  apply ReadsWithin.afterUnordered
  intro keys perm
  apply ReadsWithin.foldlM_once perm.length_eq.le
  intro merged partition _
  split
  case h_1 => exact .pure _ _
  case h_2 replica picked =>
      rw [← add_zero 1]
      apply (resolveOn_reads oneRead hasher
        ⟨partition, replica, picked, rfl⟩ step).andThen
      intro bindings
      exact .pure _ _

/-- A round asks every partition at most once. -/
theorem oneRound_reads (step : ExpandHop) (frontier : List Binding) :
    ReadsWithin (Picked partitions) E
      ((⟨rpc, hasher⟩ : ScatterGatherExecutor).oneRound partitions step frontier)
        hasher.nPartitions := by
  apply ReadsWithin.afterPure
  intro byPartition grouped
  apply ReadsWithin.afterUnordered
  intro groups perm
  apply ReadsWithin.collect_once
    (perm.length_eq.le.trans (groupByOwningNodePartition_length_le grouped))
  intro group _
  split
  case h_1 => exact .pure _ _
  case h_2 replica picked =>
      rw [← add_zero 1]
      apply (oneRead.expandHop replica ⟨group.1, replica, picked, rfl⟩ _ _).andThen
      intro found
      exact .pure _ _

theorem hopRounds_reads (step : ExpandHop) (remaining depth : Nat)
    (cursorAlias : String) (current accepted : List Binding) :
    ReadsWithin (Picked partitions) E
      ((⟨rpc, hasher⟩ : ScatterGatherExecutor).hopRounds partitions step remaining
        depth cursorAlias current accepted)
      (remaining * hasher.nPartitions : Nat) := by
  induction remaining generalizing depth cursorAlias current accepted with
  | zero => exact .pure _ _
  | succ remaining inductionHypothesis =>
      rw [ScatterGatherExecutor.hopRounds]
      split
      · exact .pure _ _
      · rw [Nat.succ_mul, Nat.add_comm (remaining * _), Nat.cast_add]
        apply (oneRound_reads oneRead hasher _ _).andThen
        intro next
        exact inductionHypothesis _ _ _ _

/-! #### Hydration -/

theorem getNodeProperties_reads (ids : List NodeId) :
    ReadsWithin (Picked partitions) E
      ((⟨rpc, hasher⟩ : ScatterGatherExecutor).getNodeProperties partitions ids)
        hasher.nPartitions := by
  apply ReadsWithin.afterUnordered
  intro groups perm
  apply ReadsWithin.foldlM_once
    (perm.length_eq.le.trans (groupIdsByPartition_length_le hasher ids))
  intro properties group _
  split
  case h_1 => exact .pure _ _
  case h_2 replica picked =>
      rw [← add_zero 1]
      apply (oneRead.getNodeProperties replica ⟨group.1, replica, picked, rfl⟩ _).andThen
      intro found
      exact .pure _ _

theorem getEdgeProperties_reads (ids : List EdgeId) :
    ReadsWithin (Picked partitions) E
      ((⟨rpc, hasher⟩ : ScatterGatherExecutor).getEdgeProperties partitions ids)
      partitions.replicasByPartition.keys.length := by
  apply ReadsWithin.afterUnordered
  intro keys perm
  rw [← add_zero (partitions.replicasByPartition.keys.length : ℕ∞)]
  apply ReadsWithin.andThen
  · apply ReadsWithin.foldlM_once perm.length_eq.le
    intro acc partition _
    split
    · exact .pure _ _
    · split
      case h_1 => exact .pure _ _
      case h_2 replica picked =>
          apply ReadsWithin.afterUnordered
          intro batch _
          rw [← add_zero 1]
          apply (oneRead.getEdgeProperties replica
            ⟨partition, replica, picked, rfl⟩ _).andThen
          intro found
          exact .pure _ _
  · intro outcome
    exact .pure _ _

theorem hydrateNodes_reads (ids : ExtTreeSet NodeId compare) :
    ReadsWithin (Picked partitions) E
      ((⟨rpc, hasher⟩ : ScatterGatherExecutor).hydrateNodes partitions ids)
        hasher.nPartitions := by
  rw [ScatterGatherExecutor.hydrateNodes]
  split
  · exact .pure _ _
  · apply ReadsWithin.afterUnordered
    intro ids _
    exact getNodeProperties_reads oneRead hasher ids

theorem hydrateEdges_reads (ids : ExtTreeSet EdgeId compare) :
    ReadsWithin (Picked partitions) E
      ((⟨rpc, hasher⟩ : ScatterGatherExecutor).hydrateEdges partitions ids)
      partitions.replicasByPartition.keys.length := by
  rw [ScatterGatherExecutor.hydrateEdges]
  split
  · exact .pure _ _
  · apply ReadsWithin.afterUnordered
    intro ids _
    exact getEdgeProperties_reads oneRead hasher ids

/-! #### Steps -/

theorem filterFrontier_reads [Chrono] (step : ExpandHop) (frontier : List Binding) :
    ReadsWithin (Picked partitions) E
      ((⟨rpc, hasher⟩ : ScatterGatherExecutor).filterFrontier partitions step
        frontier) hasher.nPartitions := by
  rw [ScatterGatherExecutor.filterFrontier]
  split
  · exact .pure _ _
  · apply ReadsWithin.afterUnordered
    intro ids _
    rw [← add_zero (hasher.nPartitions : ℕ∞)]
    apply (getNodeProperties_reads oneRead hasher ids).andThen
    intro properties
    exact .pure _ _

theorem checkGroup_reads (step : AntiJoinStep)
    (group : List PropertyFilter × List Binding) :
    ReadsWithin (Picked partitions) E
      ((⟨rpc, hasher⟩ : ScatterGatherExecutor).checkGroup partitions step group)
        hasher.nPartitions := by
  apply ReadsWithin.afterPure
  intro byPartition grouped
  apply ReadsWithin.afterUnordered
  intro parts perm
  apply ReadsWithin.collect_once
    (perm.length_eq.le.trans (groupByOwningNodePartition_length_le grouped))
  intro part _
  split
  case h_1 => exact .pure _ _
  case h_2 replica picked =>
    exact oneRead.checkAntiJoin replica ⟨part.1, replica, picked, rfl⟩ _ _ _

/-- Without outer conditions there is one condition group and nothing to
hydrate. -/
theorem executeAntiJoin_reads_literal {step : AntiJoinStep}
    (literal : step.outerConditions = []) (frontier : List Binding) :
    ReadsWithin (Picked partitions) E
      ((⟨rpc, hasher⟩ : ScatterGatherExecutor).executeAntiJoin partitions step
        frontier) hasher.nPartitions := by
  cases frontier with
  | nil => exact .pure _ _
  | cons sample rest =>
      rw [ScatterGatherExecutor.executeAntiJoin,
        ScatterGatherExecutor.conditionGroups, if_pos literal, Client.pure_bind]
      have whole :=
        ReadsWithin.collect [(step.literalConditions, sample :: rest)] fun group _ =>
        checkGroup_reads oneRead hasher step group
      rwa [List.map_singleton, List.sum_singleton] at whole

/-- Whatever its conditions, an anti-join reads handles of replicas picked and
of them the graph alone. -/
theorem executeAntiJoin_reads (step : AntiJoinStep) (frontier : List Binding) :
    ReadsWithin (Picked partitions) E
      ((⟨rpc, hasher⟩ : ScatterGatherExecutor).executeAntiJoin partitions step
        frontier) ⊤ := by
  cases frontier with
  | nil => exact .pure _ _
  | cons sample rest =>
      rw [ScatterGatherExecutor.executeAntiJoin, ← top_add ⊤]
      apply ReadsWithin.andThen
      · rw [ScatterGatherExecutor.conditionGroups]
        split
        · exact .pure _ _
        · apply ReadsWithin.afterPure
          intro outerIsEdge _
          rw [← top_add ⊤]
          apply ((hydrateNodes_reads oneRead hasher _).mono le_top).andThen
          intro nodeProps
          rw [← top_add ⊤]
          apply ((hydrateEdges_reads oneRead hasher _).mono le_top).andThen
          intro edgeProps
          exact .pure _ _
      · intro groups
        exact (ReadsWithin.collect groups fun group _ =>
          checkGroup_reads oneRead hasher step group).mono le_top

/-- How often a step reads at most, if no anti-join refers to the outer query: a
hop in every partition for every depth and once more for its filters, an
anti-join once in every partition. -/
def stepCost (hasher : Partitioning) : PlanStep → Nat
  | .expandHop hop => hop.hops.max * hasher.nPartitions + hasher.nPartitions
  | .antiJoin _ => hasher.nPartitions
  | .resolveStart _ | .resolveAll _ => 0

/-- The step's condition lists do not depend on the bindings. -/
def PlanStep.Literal : PlanStep → Prop
  | .antiJoin step => step.outerConditions = []
  | _ => True

theorem runStep_reads_literal [Chrono] {step : PlanStep} (literal : step.Literal)
    (frontier : List Binding) :
    ReadsWithin (Picked partitions) E
      ((⟨rpc, hasher⟩ : ScatterGatherExecutor).runStep partitions frontier step)
      (stepCost hasher step) := by
  cases step with
  | expandHop hop =>
      rw [stepCost, Nat.cast_add]
      apply (hopRounds_reads oneRead hasher hop _ _ _ _ _).andThen
      intro expanded
      exact filterFrontier_reads oneRead hasher hop expanded
  | antiJoin step => exact executeAntiJoin_reads_literal oneRead hasher literal frontier
  | resolveStart step => exact .fail _ _
  | resolveAll step => exact .fail _ _

theorem runStep_reads [Chrono] (step : PlanStep) (frontier : List Binding) :
    ReadsWithin (Picked partitions) E
      ((⟨rpc, hasher⟩ : ScatterGatherExecutor).runStep partitions frontier step) ⊤ := by
  cases step with
  | expandHop hop =>
      have literal : PlanStep.Literal (.expandHop hop) := trivial
      exact (runStep_reads_literal oneRead hasher literal frontier).mono le_top
  | antiJoin step => exact executeAntiJoin_reads oneRead hasher step frontier
  | resolveStart step => exact .fail _ _
  | resolveAll step => exact .fail _ _

/-! #### Plans -/

/-- How often a plan reads at most, if no anti-join refers to the outer query:
its start step in every partition of the map, and every step as often as it
costs. -/
def planCost (hasher : Partitioning) (partitions : PartitionMap)
    (queryPlan : QueryPlan) : Nat :=
  partitions.replicasByPartition.keys.length + (queryPlan.steps.map (stepCost hasher)).sum

/-- A plan costs what its steps cost and the broadcast. -/
theorem execute_within [Chrono] {cost : PlanStep → ℕ∞} {queryPlan : QueryPlan}
    (each : ∀ step ∈ queryPlan.steps, ∀ frontier, ReadsWithin (Picked partitions) E
      ((⟨rpc, hasher⟩ : ScatterGatherExecutor).runStep partitions frontier step)
      (cost step)) :
    ReadsWithin (Picked partitions) E
      ((⟨rpc, hasher⟩ : ScatterGatherExecutor).execute partitions queryPlan)
      (partitions.replicasByPartition.keys.length + (queryPlan.steps.map cost).sum) := by
  obtain ⟨steps, project⟩ := queryPlan
  cases steps with
  | nil => exact .fail _ _
  | cons first rest =>
      have later (start : List Binding) : ReadsWithin (Picked partitions) E (do
          let frontier ← rest.foldlM
              ((⟨rpc, hasher⟩ : ScatterGatherExecutor).runStep partitions) start
          pure (dedup frontier)) ((first :: rest).map cost).sum := by
        rw [← add_zero ((first :: rest).map cost).sum]
        apply ReadsWithin.andThen
        · rw [List.map_cons, List.sum_cons]
          apply ReadsWithin.mono _ le_add_self
          apply ReadsWithin.foldlM
          intro frontier step member
          exact each step (List.mem_cons_of_mem first member) frontier
        · intro frontier
          exact .pure _ _
      cases first with
      | resolveStart step => exact (broadcastResolve_reads oneRead hasher _).andThen later
      | resolveAll step => exact (broadcastResolve_reads oneRead hasher _).andThen later
      | expandHop step => exact .fail _ _
      | antiJoin step => exact .fail _ _

theorem execute_reads_literal [Chrono] {queryPlan : QueryPlan}
    (literal : ∀ step ∈ queryPlan.steps, step.Literal) :
    ReadsWithin (Picked partitions) E
      ((⟨rpc, hasher⟩ : ScatterGatherExecutor).execute partitions queryPlan)
      (planCost hasher partitions queryPlan) := by
  have whole := execute_within oneRead hasher fun step member =>
    runStep_reads_literal oneRead hasher (literal step member)
  rw [planCost, Nat.cast_add, Nat.cast_list_sum, List.map_map]
  exact whole

theorem respond_reads (schema : Schema) (query : Query) (project : List ReturnItem)
    (bindings : List Binding) :
    ReadsWithin (Picked partitions) E
      (GraphServiceImpl.respond ⟨schema, ⟨rpc, hasher⟩⟩ partitions query project bindings)
      (hasher.nPartitions + partitions.replicasByPartition.keys.length : Nat) := by
  rw [GraphServiceImpl.respond, Nat.cast_add]
  apply (hydrateNodes_reads oneRead hasher _).andThen
  intro nodeProperties
  rw [← add_zero (partitions.replicasByPartition.keys.length : ℕ∞)]
  apply (hydrateEdges_reads oneRead hasher _).andThen
  intro edgeProperties
  rw [← add_zero 0]
  apply ReadsWithin.andThen
  · rw [GraphServiceImpl.applyOrderBy.eq_def]
    split
    · rw [GraphServiceImpl.sortBindingsByProperty, sortBy]
      split
      · exact .pure _ _
      · apply ReadsWithin.afterUnordered
        intro outcomes _
        split
        · exact .fail _ _
        · exact .unordered _ _
    · exact .pure _ _
  · intro sorted
    exact .pure _ _

/-! #### Queries -/

/-- How often a query reads at most, if no anti-join refers to the outer query:
as its plan, and for the response once in every partition for nodes and once in
every partition of the map for edges. -/
def queryCost (hasher : Partitioning) (partitions : PartitionMap)
    (queryPlan : QueryPlan) : Nat :=
  planCost hasher partitions queryPlan +
    (hasher.nPartitions + partitions.replicasByPartition.keys.length)

/-- A query reads what its plan and its response read. -/
theorem executeQuery_within [Chrono] {schema : Schema} {surroundings : Surroundings}
    {dsl : String} {n : ℕ∞} (isMap : surroundings.currentMap = .ok partitions)
    (each : ∀ query queryPlan,
      PestParser.parse surroundings.report dsl = .ok (.ok query) →
      NaivePlanner.plan query = .ok queryPlan → ReadsWithin (Picked partitions) E
      ((⟨rpc, hasher⟩ : ScatterGatherExecutor).execute partitions queryPlan) n) :
    ReadsWithin (Picked partitions) E
      (GraphServiceImpl.executeQuery ⟨schema, ⟨rpc, hasher⟩⟩ surroundings dsl)
      (n + (hasher.nPartitions + partitions.replicasByPartition.keys.length : Nat)) := by
  rw [GraphServiceImpl.executeQuery]
  apply ReadsWithin.afterPure
  intro outcome parsed
  apply ReadsWithin.afterPure
  intro query isQuery
  apply ReadsWithin.afterPure
  intro _ _
  apply ReadsWithin.afterPure
  intro queryPlan planned
  apply ReadsWithin.afterPure
  intro found sameMap
  rw [isMap] at sameMap
  cases sameMap
  rw [mapError_eq_ok_iff] at parsed isQuery planned
  subst isQuery
  apply ((each query queryPlan parsed planned).mapError _).andThen
  intro bindings
  exact (respond_reads oneRead hasher schema query _ bindings).mapError _

/-- Whatever its plan, a query reads handles of replicas picked and of them the
graph alone. -/
theorem executeQuery_reads [Chrono] {surroundings : Surroundings}
    (isMap : surroundings.currentMap = .ok partitions) (schema : Schema)
    (dsl : String) :
    ReadsWithin (Picked partitions) E
      (GraphServiceImpl.executeQuery ⟨schema, ⟨rpc, hasher⟩⟩ surroundings dsl) ⊤ := by
  apply (executeQuery_within oneRead hasher isMap _).mono le_top
  · exact ⊤
  · intro query queryPlan _ _
    exact (execute_within oneRead hasher fun step _ =>
      runStep_reads oneRead hasher step).mono le_top

/-- A run reads no more often than the plan and the partitions say. -/
theorem readCount_le_queryCost [Chrono] {surroundings : Surroundings}
    (isMap : surroundings.currentMap = .ok partitions) {schema : Schema}
    {dsl : String} {query : Query} {queryPlan : QueryPlan}
    (parsed : PestParser.parse surroundings.report dsl = .ok (.ok query))
    (planned : NaivePlanner.plan query = .ok queryPlan)
    (literal : ∀ step ∈ queryPlan.steps, step.Literal)
    (serve : Nat → GenerationHandle → IndexGeneration)
    (order : Nat → (size : Nat) → Equiv.Perm (Fin size)) (time : Nat) :
    (GraphServiceImpl.executeQuery ⟨schema, ⟨rpc, hasher⟩⟩ surroundings dsl).readCount
      serve order time ≤
      queryCost hasher partitions queryPlan := by
  have within : ReadsWithin (Picked partitions) E
      (GraphServiceImpl.executeQuery ⟨schema, ⟨rpc, hasher⟩⟩ surroundings dsl)
      ((planCost hasher partitions queryPlan : Nat) +
        (hasher.nPartitions + partitions.replicasByPartition.keys.length : Nat)) := by
    apply executeQuery_within oneRead hasher isMap
    intro other otherPlan otherParsed otherPlanned
    rw [parsed] at otherParsed
    cases otherParsed
    rw [planned] at otherPlanned
    cases otherPlanned
    exact execute_reads_literal oneRead hasher literal
  have bound := within.readCount_le serve order time
  rw [← Nat.cast_add, Nat.cast_le] at bound
  exact bound

end Coordinator

/-! ### The cost of a query -/

/-- Whatever the data, the enumeration orders and the generations swapped
meanwhile, a query whose anti-joins do not refer to the outer query reads no
more often than its plan and the partitions say: over the network, where every
call reads the generation of its replica once at most, and in process.  The
hypothesis `literal` is on the plan alone; an anti-join with outer conditions
makes a call for every group of bindings with equal conditions, and their number
depends on the data. -/
theorem executeQuery_readCount_le [Chrono] (transport : Transport)
    {hasher : Partitioning} {partitions : PartitionMap}
    {surroundings : Surroundings} (isMap : surroundings.currentMap = .ok partitions)
    {schema : Schema} {dsl : String} {query : Query} {queryPlan : QueryPlan}
    (parsed : PestParser.parse surroundings.report dsl = .ok (.ok query))
    (planned : NaivePlanner.plan query = .ok queryPlan)
    (literal : ∀ step ∈ queryPlan.steps, step.Literal)
    (serve : Nat → GenerationHandle → IndexGeneration)
    (order : Nat → (size : Nat) → Equiv.Perm (Fin size)) (time : Nat) :
    (grpcPartitionRpc transport).OneRead (Picked partitions) SameService ∧
      (GraphServiceImpl.executeQuery ⟨schema, overGrpc transport hasher⟩ surroundings
        dsl).readCount serve order time ≤
        queryCost hasher partitions queryPlan ∧
      (GraphServiceImpl.executeQuery
        ⟨schema, inProcess hasher⟩ surroundings dsl).readCount serve order time ≤
        queryCost hasher partitions queryPlan := by
  refine ⟨grpc_oneRead transport, ?_, ?_⟩
  · exact readCount_le_queryCost
      (grpc_oneRead transport) hasher isMap parsed planned literal serve order time
  · exact readCount_le_queryCost
      (inProcess_oneRead _) hasher isMap parsed planned literal serve order time

section

open scoped Social

/-- What a coordinator of the example finds around it. -/
def Social.surroundings : Surroundings where
  report _ := (0, "")
  validationText _ := "invalid"
  currentMap := .ok (deployment Social.byParity)

def Social.acquaintancesText : String := "MATCH (a:Person)-[:KNOWS]->(b:Person) RETURN b"

/-- Who knows whom, without the acquaintances that Ann introduced. -/
def Social.unintroducedText : String :=
  "MATCH (a:Person)-[:KNOWS]->(b:Person) " ++
  "WHERE NOT EXISTS \x7b MATCH (a)-[k:KNOWS]->(b) WHERE k.via = \"Ann\" \x7d RETURN b"

/-- What it lowers to. -/
def Social.unintroducedPlan : QueryPlan :=
  { Social.acquaintancesPlan with
    steps := Social.acquaintancesPlan.steps ++
      [.antiJoin
        { fromAlias := "a", toAlias := "b", direction := .outgoing,
          edgeAlias := some "k", edgeType := some "KNOWS"
          literalConditions :=
            [{ property := "via", op := .eq, value := .string "Ann" }],
            outerConditions := [] }] }

theorem Social.unintroduced_read : ∃ query,
    PestParser.parse Social.surroundings.report Social.unintroducedText =
      .ok (.ok query) ∧
      NaivePlanner.plan query = .ok Social.unintroducedPlan := by
  have passed : parsesTo (fun query =>
      decide ((NaivePlanner.plan query).toOption = some Social.unintroducedPlan))
      Social.unintroducedText = true := by
    decide +kernel
  obtain ⟨query, parsed, tested⟩ := exists_of_parsesTo passed
  refine ⟨query, parsed, ?_⟩
  have planned := of_decide_eq_true tested
  cases outcome : NaivePlanner.plan query with
  | error message =>
      rw [outcome] at planned
      cases planned
  | ok queryPlan =>
      rw [outcome] at planned
      exact congrArg Except.ok (Option.some.inj planned)

theorem Social.unintroduced_literal :
    ∀ step ∈ Social.unintroducedPlan.steps, step.Literal := by
  intro step member
  simp only [Social.unintroducedPlan, Social.acquaintancesPlan, List.cons_append,
    List.nil_append, List.mem_cons, List.not_mem_nil, or_false] at member
  rcases member with rfl | rfl | rfl
  · trivial
  · trivial
  · rfl

/-- Over two partitions the example, which ends with an anti-join, reads twelve
times at most. -/
theorem unintroduced_readCount_le :
    (GraphServiceImpl.executeQuery ⟨Social.schema, overGrpc lanTransport Social.byParity⟩
      Social.surroundings Social.unintroducedText).readCount
        (fun _ => Social.dataset.deployed Social.byParity) Social.inOrder 0 ≤ 12 ∧
    (GraphServiceImpl.executeQuery ⟨Social.schema, inProcess Social.byParity⟩
      Social.surroundings Social.unintroducedText).readCount
        (fun _ => Social.dataset.deployed Social.byParity) Social.inOrder 0 ≤ 12 := by
  obtain ⟨query, parsed, planned⟩ := Social.unintroduced_read
  have cost : queryCost Social.byParity
      (deployment Social.byParity) Social.unintroducedPlan = 12 := by
    decide
  rw [← cost]
  exact (executeQuery_readCount_le lanTransport rfl parsed planned
    Social.unintroduced_literal _ _ _).2

end

end GraphEngine
