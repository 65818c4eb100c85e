/-
Module: GraphEngine.Proofs.Routing
Layer: Proofs
Purpose: What the coordinator's bookkeeping keeps: keys of bindings are
  faithful, grouping a frontier by owner splits it without loss, and hydration
  returns the records that the cluster shows.
Trusted boundary: none
Main exports: bindingKey_injective, groupByOwningNodePartition_ok,
  broadcastResolve_meets, getNodeProperties_meets, getEdgeProperties_meetsBy
-/
import GraphEngine.Proofs.LocalHop

namespace GraphEngine

open Std (ExtTreeMap ExtTreeSet)

/-! ### Keys of bindings -/

/-- The triples of one kind. -/
theorem filter_map_kind {Entry : Type} (entries : List Entry) (kind other : Nat)
    (rest : Entry → String × Nat) :
    (entries.map fun entry => (kind, rest entry)).filter (fun t => t.1 = other) =
      if kind = other then entries.map fun entry => (kind, rest entry) else [] := by
  split
  case isTrue same =>
    refine List.filter_eq_self.mpr fun t member => ?_
    obtain ⟨entry, -, rfl⟩ := List.mem_map.mp member
    simpa using same
  case isFalse different =>
    refine List.filter_eq_nil_iff.mpr fun t member => ?_
    obtain ⟨entry, -, rfl⟩ := List.mem_map.mp member
    simpa using different

/-- Different bindings have different keys. -/
theorem bindingKey_injective (a b : Binding) (same : bindingKey a = bindingKey b) :
    a = b := by
  have sorted : ∀ c : Binding,
      (bindingKey c).Perm (bindingTriples c.nodes.toList c.edges.toList) :=
    fun c => List.perm_insertionSort (fun s t => KeyTriple.le s t = true) _
  have triples : (bindingTriples a.nodes.toList a.edges.toList).Perm
      (bindingTriples b.nodes.toList b.edges.toList) :=
    (sorted a).symm.trans (same ▸ sorted b)
  have nodes := triples.filter fun t => t.1 = 0
  have edges := triples.filter fun t => t.1 = 1
  simp only [bindingTriples, List.filter_append, filter_map_kind, if_true,
    List.append_nil, List.nil_append, Nat.one_ne_zero, Nat.zero_ne_one,
    if_false] at nodes edges
  refine Binding.ext_parts (Std.ExtTreeMap.ext_toList ?_) (Std.ExtTreeMap.ext_toList ?_)
  · refine (List.map_perm_map_iff ?_).mp nodes
    rintro ⟨x, v⟩ ⟨y, w⟩ equal
    simp only [Prod.mk.injEq, true_and] at equal
    exact Prod.ext equal.1 (NodeId.val_injective v w equal.2)
  · refine (List.map_perm_map_iff ?_).mp edges
    rintro ⟨x, e⟩ ⟨y, f⟩ equal
    simp only [Prod.mk.injEq, true_and] at equal
    exact Prod.ext equal.1 (EdgeId.val_injective e f equal.2)

/-- Merging keeps every binding and adds no other. -/
theorem mem_merge {kept more : List Binding} {b : Binding} :
    b ∈ appendUnseen bindingKey kept more ↔ b ∈ kept ∨ b ∈ more :=
  mem_appendUnseen bindingKey bindingKey_injective

theorem mem_dedup {bindings : List Binding} {b : Binding} :
    b ∈ dedup bindings ↔ b ∈ bindings := by
  rw [dedup, mem_merge]
  simp

/-! ### Grouping by owner -/

/-- The partition that owns the node a binding binds an alias to. -/
def ownerOf (hasher : Partitioning) (aliasName : String) (b : Binding) : PartitionId :=
  hasher.partition ((b.nodes[aliasName]?).getD ⟨0⟩)

theorem ownerOf_eq {hasher : Partitioning} {aliasName : String} {b : Binding}
    {v : NodeId} (bound : b.nodes[aliasName]? = some v) :
    ownerOf hasher aliasName b = hasher.partition v := by
  rw [ownerOf, bound, Option.getD_some]

theorem groupByOwningNodePartition_ok (hasher : Partitioning) {frontier : List Binding}
    {aliasName : String} (bound : ∀ b ∈ frontier, aliasName ∈ b.nodes) :
    groupByOwningNodePartition hasher frontier aliasName =
      .ok (groupByKey (ownerOf hasher aliasName) frontier) := by
  rw [groupByOwningNodePartition, groupByKey]
  generalize (∅ : ExtTreeMap PartitionId (List Binding) compare) = groups
  induction frontier generalizing groups with
  | nil => rfl
  | cons b rest inductionHypothesis =>
      obtain ⟨v, found⟩ := (b.mem_nodes_iff aliasName).mp (bound b List.mem_cons_self)
      rw [List.foldlM_cons, found, List.foldl_cons, ownerOf_eq found]
      exact inductionHypothesis
        (fun other member => bound other (List.mem_cons_of_mem b member)) _

theorem groupByOwningNodePartition_error (hasher : Partitioning)
    {frontier : List Binding} {aliasName : String} {b : Binding}
    (member : b ∈ frontier) (unbound : aliasName ∉ b.nodes) :
    groupByOwningNodePartition hasher frontier aliasName =
      .error (.unknownAlias aliasName) := by
  rw [groupByOwningNodePartition]
  generalize (∅ : ExtTreeMap PartitionId (List Binding) compare) = groups
  induction frontier generalizing groups with
  | nil => cases member
  | cons other rest inductionHypothesis =>
      rw [List.foldlM_cons]
      cases found : other.nodes[aliasName]? with
      | none => rfl
      | some v =>
          have later : b ∈ rest := by
            refine (List.mem_cons.mp member).resolve_left ?_
            rintro rfl
            exact unbound ((b.mem_nodes_iff aliasName).mpr ⟨v, found⟩)
          exact inductionHypothesis later _

@[simp] theorem raiseError_ok {α : Type} (a : α) :
    raiseError (.ok a) = (pure a : Exec α) := rfl

/-- A group of a frontier and what it stands for. -/
theorem exists_group_iff (hasher : Partitioning) {frontier : List Binding}
    {aliasName : String} (bound : ∀ b ∈ frontier, aliasName ∈ b.nodes)
    {groups : List (PartitionId × List Binding)}
    (perm : groups.Perm (groupByKey (ownerOf hasher aliasName) frontier).toList)
    (P : PartitionId → Binding → Prop) :
    (∃ group ∈ groups, ∃ b ∈ group.2, P group.1 b) ↔
      ∃ b ∈ frontier, ∃ v, b.nodes[aliasName]? = some v ∧ P (hasher.partition v) b := by
  constructor
  · rintro ⟨group, inGroups, b, inGroup, holds⟩
    obtain ⟨content, -⟩ := mem_toList_groupByKey.mp (perm.mem_iff.mp inGroups)
    rw [content, List.mem_filter, decide_eq_true_eq] at inGroup
    obtain ⟨v, found⟩ := (b.mem_nodes_iff aliasName).mp (bound b inGroup.1)
    refine ⟨b, inGroup.1, v, found, ?_⟩
    rwa [← ownerOf_eq found, inGroup.2]
  · rintro ⟨b, inFrontier, v, found, holds⟩
    have inGroup : b ∈ frontier.filter
        fun a => ownerOf hasher aliasName a = hasher.partition v := by
      rw [List.mem_filter, decide_eq_true_eq]
      exact ⟨inFrontier, ownerOf_eq found⟩
    refine ⟨(hasher.partition v, _),
      perm.mem_iff.mpr (mem_toList_groupByKey.mpr ⟨rfl, ?_⟩), b,
      inGroup, holds⟩
    exact List.ne_nil_of_mem inGroup

/-! ### Hydration -/

/-- Hydrated records are the records of the generation asked. -/
theorem getElem?_recordsOf {κ ν : Type} [Ord κ] [Std.TransOrd κ] [Std.LawfulEqOrd κ]
    [DecidableEq κ] (records : ExtTreeMap κ ν compare) (ids : List κ) (k : κ) :
    (recordsOf records ids)[k]? = if k ∈ ids then records[k]? else none :=
  getElem?_collectMap_lookup (fun id => records[id]?) ids k

theorem servingOf_of_pick (serve : GenerationHandle → IndexGeneration)
    {partitions : PartitionMap} {partition : PartitionId}
    {replica : ReplicaEndpoint}
    (picked : pickReplica partitions partition = some replica) :
    servingOf partitions serve partition = some (serve replica.handle) := by
  rw [servingOf, picked, Option.map_some]

theorem servingOf_of_pick_none (serve : GenerationHandle → IndexGeneration)
    {partitions : PartitionMap} {partition : PartitionId}
    (picked : pickReplica partitions partition = none) :
    servingOf partitions serve partition = none := by
  rw [servingOf, picked, Option.map_none]

section Hydration

variable [Chrono] (hasher : Partitioning) (partitions : PartitionMap)
variable (serve : GenerationHandle → IndexGeneration) {Allowed : Fault → Prop}

/-- What the in-process calls for records return. -/
theorem rpc_getNodeProperties (replica : ReplicaEndpoint) (ids : List NodeId) :
    (inProcessRpc.getNodeProperties replica ids).Meets serve
      (· = recordsOf (serve replica.handle).nodeRecords ids) Allowed := rfl

theorem rpc_getEdgeProperties (replica : ReplicaEndpoint) (ids : List EdgeId) :
    (inProcessRpc.getEdgeProperties replica ids).Meets serve
      (· = recordsOf (serve replica.handle).edgeRecords ids) Allowed := rfl

/-- The records fetched for the groups visited are the ones the cluster shows. -/
def NodesFetched (visited : List (PartitionId × List NodeId))
    (found : ExtTreeMap NodeId NodeRecord compare) : Prop :=
  ∀ v record, found[v]? = some record ↔ (∃ group ∈ visited, v ∈ group.2) ∧
    (clusterView hasher (servingOf partitions serve)).nodeRecord v record

omit [Chrono] in
theorem mem_visited_snoc {visited : List (PartitionId × List NodeId)}
    {group : PartitionId × List NodeId} {v : NodeId} :
    (∃ other ∈ visited ++ [group], v ∈ other.2) ↔ (∃ other ∈ visited, v ∈ other.2) ∨
      v ∈ group.2 := by
  simp only [List.mem_append, List.mem_singleton, or_and_right, exists_or, exists_eq_left]

variable {hasher partitions serve} {visited : List (PartitionId × List NodeId)}
variable {group : PartitionId × List NodeId}
variable {found : ExtTreeMap NodeId NodeRecord compare}

omit [Chrono] in
/-- A partition without a healthy replica shows no record. -/
theorem NodesFetched.skip (fetched : NodesFetched hasher partitions serve visited found)
    (owned : ∀ v ∈ group.2, hasher.partition v = group.1)
    (picked : pickReplica partitions group.1 = none) :
    NodesFetched hasher partitions serve (visited ++ [group]) found := by
  intro v record
  rw [fetched, mem_visited_snoc]
  constructor
  · rintro ⟨before, recorded⟩
    exact ⟨.inl before, recorded⟩
  · rintro ⟨before | here, recorded⟩
    · exact ⟨before, recorded⟩
    · obtain ⟨generation, serves, -⟩ := recorded
      rw [owned v here, servingOf_of_pick_none serve picked] at serves
      cases serves

omit [Chrono] in
/-- The reply of a partition adds the records of its group. -/
theorem NodesFetched.union (fetched : NodesFetched hasher partitions serve visited found)
    (owned : ∀ v ∈ group.2, hasher.partition v = group.1) {replica : ReplicaEndpoint}
    (picked : pickReplica partitions group.1 = some replica) :
    NodesFetched hasher partitions serve (visited ++ [group])
      (found ∪ recordsOf (serve replica.handle).nodeRecords group.2) := by
  intro v record
  rw [Std.ExtTreeMap.getElem?_union, getElem?_recordsOf, mem_visited_snoc]
  by_cases here : v ∈ group.2
  · have recordIff :
        (clusterView hasher (servingOf partitions serve)).nodeRecord v record ↔
        (serve replica.handle).nodeRecords[v]? = some record := by
      have serves := servingOf_of_pick serve picked
      rw [← owned v here] at serves
      constructor
      · rintro ⟨other, servesOther, stored⟩
        rw [serves] at servesOther
        cases servesOther
        exact stored
      · exact fun stored => ⟨_, serves, stored⟩
    rw [if_pos here, recordIff]
    cases stored : (serve replica.handle).nodeRecords[v]? with
    | none =>
        rw [Option.none_or, fetched, recordIff, stored]
        simp
    | some other => simp [here]
  · rw [if_neg here, Option.none_or, fetched, or_iff_left here]

variable (hasher partitions serve)

/-- Node hydration returns, for the ids asked, the records the cluster shows. -/
theorem getNodeProperties_meets (ids : List NodeId) :
    ((⟨inProcessRpc, hasher⟩ : ScatterGatherExecutor).getNodeProperties partitions
      ids).Meets serve
      (fun properties => ∀ v record, properties[v]? = some record ↔
        v ∈ ids ∧ (clusterView hasher (servingOf partitions serve)).nodeRecord v
          record) Allowed := by
  refine Client.Meets.bind (Client.Meets.unordered _) fun groups perm => ?_
  have content : ∀ group ∈ groups, ∀ v, v ∈ group.2 ↔ v ∈ ids ∧
      hasher.partition v = group.1 := by
    intro group member v
    rw [(mem_toList_groupByKey.mp (perm.mem_iff.mp member)).1, List.mem_filter,
      decide_eq_true_eq]
  have covered : ∀ v, (∃ group ∈ groups, v ∈ group.2) ↔ v ∈ ids := by
    intro v
    constructor
    · rintro ⟨group, member, inIds⟩
      exact ((content group member v).mp inIds).1
    · intro member
      have inFilter : v ∈ ids.filter fun a =>
          hasher.partition a = hasher.partition v := by
        rw [List.mem_filter, decide_eq_true_eq]
        exact ⟨member, rfl⟩
      exact ⟨(hasher.partition v, _),
        perm.mem_iff.mpr
          (mem_toList_groupByKey.mpr ⟨rfl, List.ne_nil_of_mem inFilter⟩), inFilter⟩
  refine (Client.Meets.foldlM
    (I := NodesFetched hasher partitions serve) groups ?_ ?_).imp ?_
  · intro v record
    simp
  · intro visited group later acc split fetched
    have member : group ∈ groups := by rw [split]; simp
    have owned := fun v inIds => ((content group member v).mp inIds).2
    cases picked : pickReplica partitions group.1 with
    | none => exact Client.Meets.pure (fetched.skip owned picked)
    | some replica =>
        refine Client.Meets.bind (rpc_getNodeProperties serve replica group.2) ?_
        rintro found rfl
        exact Client.Meets.pure (fetched.union owned picked)
  · intro properties fetched v record
    rw [fetched, covered]

/-- After asking the partitions visited, what they have of the edges looked for
is found, and the others are still looked for. -/
structure EdgesSearched (ids : List EdgeId) (visited : List PartitionId)
    (acc : ExtTreeMap EdgeId EdgeRecord compare × ExtTreeSet EdgeId compare) : Prop where
  found : ∀ e, acc.1[e]? = if e ∈ ids
    then foundInOrder (servingOf partitions serve) visited e else none
  missing : ∀ e, e ∈ acc.2 ↔ e ∈ ids ∧
    foundInOrder (servingOf partitions serve) visited e = none

variable {partitions serve} {ids : List EdgeId} {asked : List PartitionId}
variable {p : PartitionId}
variable {acc : ExtTreeMap EdgeId EdgeRecord compare × ExtTreeSet EdgeId compare}

omit [Chrono] in
/-- One more partition asked adds what it has of the edges not found before. -/
theorem foundInOrder_snoc (e : EdgeId) :
    foundInOrder (servingOf partitions serve) (asked ++ [p]) e =
    (foundInOrder (servingOf partitions serve) asked e).or
      ((servingOf partitions serve p).bind fun generation =>
        generation.edgeRecords[e]?) := by
  rw [foundInOrder, List.findSome?_append, List.findSome?_singleton]
  rfl

omit [Chrono] in
theorem EdgesSearched.skip (searched : EdgesSearched partitions serve ids asked acc)
    (here : ∀ e ∈ acc.2, ((servingOf partitions serve p).bind fun generation =>
        generation.edgeRecords[e]?) = none) :
    EdgesSearched partitions serve ids (asked ++ [p]) acc := by
  have same : ∀ e ∈ ids, foundInOrder (servingOf partitions serve) (asked ++ [p]) e =
      foundInOrder (servingOf partitions serve) asked e := by
    intro e member
    rw [foundInOrder_snoc]
    cases before : foundInOrder (servingOf partitions serve) asked e with
    | some record => rfl
    | none => rw [here e ((searched.missing e).mpr ⟨member, before⟩), Option.or_none]
  constructor
  · intro e
    rw [searched.found]
    exact ite_congr rfl (fun member => (same e member).symm) fun _ => rfl
  · intro e
    rw [searched.missing]
    exact and_congr_right fun member => by rw [same e member]

omit [Chrono] in
/-- The reply of a partition: what it holds of the edges looked for is found,
the others stay. -/
theorem EdgesSearched.fetch
    (searched : EdgesSearched partitions serve ids asked acc)
    {replica : ReplicaEndpoint} (picked : pickReplica partitions p = some replica)
    {batch : List EdgeId} (all : ∀ e, e ∈ batch ↔ e ∈ acc.2) :
    EdgesSearched partitions serve ids (asked ++ [p])
      (acc.1 ∪ recordsOf (serve replica.handle).edgeRecords batch,
        acc.2.filter fun id =>
          id ∉ recordsOf (serve replica.handle).edgeRecords batch) := by
  have serves := servingOf_of_pick serve picked
  have reply : ∀ e, (recordsOf (serve replica.handle).edgeRecords batch)[e]? =
      if e ∈ ids ∧ foundInOrder (servingOf partitions serve) asked e = none
        then (serve replica.handle).edgeRecords[e]? else none := by
    intro e
    rw [getElem?_recordsOf]
    simp only [all, searched.missing]
  constructor
  · intro e
    rw [Std.ExtTreeMap.getElem?_union, reply, searched.found, foundInOrder_snoc,
      serves, Option.bind_some]
    by_cases member : e ∈ ids
    · cases before : foundInOrder (servingOf partitions serve) asked e <;> simp [member]
    · simp [member]
  · intro e
    rw [mem_setFilter, decide_eq_true_eq, Std.ExtTreeMap.mem_iff_isSome_getElem?,
      reply, searched.missing, foundInOrder_snoc, serves, Option.bind_some]
    by_cases member : e ∈ ids
    · cases before : foundInOrder (servingOf partitions serve) asked e <;> simp [member]
    · simp [member]

variable (partitions serve)

/-- Edge hydration searches the partitions in some order, and it may be any. -/
theorem getEdgeProperties_meetsBy (ids : List EdgeId) :
    ((⟨inProcessRpc, hasher⟩ : ScatterGatherExecutor).getEdgeProperties partitions
      ids).MeetsBy serve
      (·.Perm partitions.replicasByPartition.keys)
      (fun order properties => ∀ e, properties[e]? =
        if e ∈ ids then foundInOrder (servingOf partitions serve) order e
          else none) Allowed := by
  refine Client.MeetsBy.bind (Client.MeetsBy.unordered _) ?_
  rintro order keys - rfl
  refine Client.Meets.bind
    (Client.Meets.foldlM (I := EdgesSearched partitions serve ids) keys ?_ ?_) ?_
  · exact ⟨fun e => by simp [foundInOrder], fun e => by simp [foundInOrder]⟩
  · intro visited p later acc _ searched
    split
    case isTrue empty =>
      refine Client.Meets.pure (searched.skip fun e remaining => ?_)
      rw [ExtTreeSet.isEmpty_iff] at empty
      rw [empty] at remaining
      exact absurd remaining ExtTreeSet.not_mem_empty
    case isFalse =>
      cases picked : pickReplica partitions p with
      | none =>
          refine Client.Meets.pure (searched.skip fun e _ => ?_)
          rw [servingOf_of_pick_none serve picked, Option.bind_none]
      | some replica =>
          refine Client.Meets.bind (Client.Meets.unordered _) fun batch batchPerm => ?_
          refine Client.Meets.bind (rpc_getEdgeProperties serve replica batch) ?_
          rintro found rfl
          exact Client.Meets.pure
            (searched.fetch picked fun e => mem_setEnumeration batchPerm)
  · exact fun outcome searched => Client.Meets.pure searched.found

/-! ### Start resolution -/

/-- The bindings one generation contributes to a start step. -/
def LocalStart (generation : IndexGeneration) : PlanStep → Binding → Prop
  | .resolveStart step, b =>
      ∃ v ∈ generation.properties.lookupEq step.labelOrType step.property step.key,
        b = Binding.fromNode step.aliasName v
  | .resolveAll step, b =>
      ∃ v record, generation.nodeRecords[v]? = some record ∧
        record.label.name = step.label ∧
        b = Binding.fromNode step.aliasName v
  | .expandHop _, _ => False
  | .antiJoin _, _ => False

/-- A plan starts with one of the two resolving steps. -/
def PlanStep.IsStart : PlanStep → Prop
  | .resolveStart _ | .resolveAll _ => True
  | .expandHop _ | .antiJoin _ => False

omit [Chrono] in
theorem started_clusterView_iff (step : PlanStep)
    (serving : PartitionId → Option IndexGeneration) (b : Binding) :
    Started (clusterView hasher serving) step b ↔
      ∃ p generation, serving p = some generation ∧ LocalStart generation step b := by
  cases step with
  | resolveStart step =>
      constructor
      · rintro ⟨v, ⟨p, generation, serves, found⟩, same⟩
        exact ⟨p, generation, serves, v, found, same⟩
      · rintro ⟨p, generation, serves, v, found, same⟩
        exact ⟨v, ⟨p, generation, serves, found⟩, same⟩
  | resolveAll step =>
      constructor
      · rintro ⟨v, ⟨p, generation, serves, record, found, labelled⟩, same⟩
        exact ⟨p, generation, serves, v, record, found, labelled, same⟩
      · rintro ⟨p, generation, serves, v, record, found, labelled, same⟩
        exact ⟨v, ⟨p, generation, serves, record, found, labelled⟩, same⟩
  | expandHop step => simp [Started, LocalStart]
  | antiJoin step => simp [Started, LocalStart]

omit [Chrono] in
theorem resolveStart_meets (index : GenerationHandle) (step : ResolveStart) :
    (SimpleLocalExecutor.resolveStart index (.resolveStart step)).Meets serve
      (fun out => ∀ b, b ∈ out ↔
        LocalStart (serve index) (.resolveStart step) b) Allowed := by
  refine Client.Meets.bind (Client.Meets.acquire index) ?_
  rintro generation rfl
  refine Client.Meets.pure fun b => ?_
  rw [List.mem_map]
  exact ⟨fun ⟨v, found, same⟩ => ⟨v, found, same.symm⟩, fun ⟨v, found, same⟩ =>
    ⟨v, found, same.symm⟩⟩

omit [Chrono] in
theorem resolveAll_meets (index : GenerationHandle) (step : ResolveAll) :
    (SimpleLocalExecutor.resolveAll index (.resolveAll step)).Meets serve
      (fun out => ∀ b, b ∈ out ↔
        LocalStart (serve index) (.resolveAll step) b) Allowed := by
  refine Client.Meets.bind (Client.Meets.acquire index) ?_
  rintro generation rfl
  refine Client.Meets.bind (Client.Meets.unordered _) fun records perm => ?_
  refine Client.Meets.pure fun b => ?_
  rw [List.mem_map]
  constructor
  · rintro ⟨⟨v, record⟩, member, same⟩
    rw [List.mem_filter, decide_eq_true_eq, perm.mem_iff,
      Std.ExtTreeMap.mem_toList_iff_getElem?_eq_some] at member
    exact ⟨v, record, member.1, member.2, same.symm⟩
  · rintro ⟨v, record, found, labelled, same⟩
    refine ⟨(v, record), ?_, same.symm⟩
    rw [List.mem_filter, decide_eq_true_eq, perm.mem_iff,
      Std.ExtTreeMap.mem_toList_iff_getElem?_eq_some]
    exact ⟨found, labelled⟩

/-- Start resolution finds exactly what the cluster shows. -/
theorem broadcastResolve_meets {step : PlanStep} (isStart : step.IsStart) :
    ((⟨inProcessRpc, hasher⟩ : ScatterGatherExecutor).broadcastResolve partitions
      step).Meets serve
      (fun out => ∀ b, b ∈ out ↔
        Started (clusterView hasher (servingOf partitions serve)) step b)
      Allowed := by
  refine Client.Meets.bind (Client.Meets.unordered _) fun keys perm => ?_
  refine (Client.Meets.foldlM
    (I := fun visited (merged : List Binding) => ∀ b, b ∈ merged ↔
    ∃ p ∈ visited, ∃ generation, servingOf partitions serve p = some generation ∧
      LocalStart generation step b) keys (by simp) ?_).imp ?_
  · intro visited p later merged split inv
    cases picked : pickReplica partitions p with
    | none =>
        refine Client.Meets.pure fun b => ?_
        rw [inv]
        simp [or_and_right, exists_or, servingOf_of_pick_none serve picked]
    | some replica =>
        have serves := servingOf_of_pick serve picked
        refine Client.Meets.bind (M := fun (out : List Binding) => ∀ b, b ∈ out ↔
          LocalStart (serve replica.handle) step b) ?_ fun found post => ?_
        · cases step with
          | resolveStart step => exact resolveStart_meets serve replica.handle step
          | resolveAll step => exact resolveAll_meets serve replica.handle step
          | expandHop step => exact isStart.elim
          | antiJoin step => exact isStart.elim
        · refine Client.Meets.pure fun b => ?_
          rw [mem_merge, inv, post]
          simp [or_and_right, exists_or, serves]
  · intro merged inv b
    rw [inv, started_clusterView_iff]
    constructor
    · rintro ⟨p, -, generation, serves, found⟩
      exact ⟨p, generation, serves, found⟩
    · rintro ⟨p, generation, serves, found⟩
      refine ⟨p, ?_, generation, serves, found⟩
      rw [perm.mem_iff]
      obtain ⟨replica, picked, -⟩ := Option.map_eq_some_iff.mp serves
      exact mem_keys_of_pickReplica picked

/-- Start resolution cannot fail. -/
theorem broadcastResolve_safe {step : PlanStep} (isStart : step.IsStart) :
    ((⟨inProcessRpc, hasher⟩ : ScatterGatherExecutor).broadcastResolve partitions
      step).Meets serve
      (fun out => ∀ b, b ∈ out ↔
        Started (clusterView hasher (servingOf partitions serve)) step b)
      (fun _ => False) :=
  broadcastResolve_meets hasher partitions serve isStart

end Hydration

end GraphEngine
